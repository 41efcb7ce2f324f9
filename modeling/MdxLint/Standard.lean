import MdxLint.Json.Writer
import MdxLint.Schema.Forms
import MdxLint.Toolkit
import MdxLint.Yaml.Document

/-! # The standard toolkit

The reader of YAML and the validator that the program goes by if nothing else is said.
-/

namespace MdxLint

namespace Value

mutual

def holdsLong : Value → Bool
  | int n => !canBeWritten n
  | list vs => anyLong vs
  | pair a b => a.holdsLong || b.holdsLong
  | set vs => anyLong vs
  | map es => anyEntryLong es
  | _ => false

def anyLong : List Value → Bool
  | [] => false
  | v :: vs => v.holdsLong || anyLong vs

def anyEntryLong : List (Value × Value) → Bool
  | [] => false
  | (k, v) :: es => k.holdsLong || v.holdsLong || anyEntryLong es

end

end Value

namespace Schema

/-- The values that are shown if a value violates a rule that does not look into it. -/
def Rule.mentioned (v : Value) : Rule → List Value
  | .const _ => []
  | .required _ => []
  | .onlyKeys _ =>
    match v with
    | .map es => es.map (·.1)
    | _ => []
  | _ => [v]

mutual

/-- A message about the value, even if it is one of a schema that may be violated, would show a number
with too many digits. -/
def Rule.stumbles (v : Value) : Rule → Bool
  | .oneOf branches => v.holdsLong && (branchViolations v branches).any (!·.isEmpty)
  | .properties ps => propertyStumbles v ps
  | .firstItems ss =>
    match v with
    | .list vs => firstStumbles vs ss
    | _ => false
  | .items s =>
    match v with
    | .list vs => vs.any fun v => anyStumbles v s
    | _ => false
  | r => !(r.objections v).isEmpty && (r.mentioned v).any Value.holdsLong

def anyStumbles (v : Value) : List Rule → Bool
  | [] => false
  | r :: rs => r.stumbles v || anyStumbles v rs

def propertyStumbles (v : Value) : List (String × List Rule) → Bool
  | [] => false
  | (k, s) :: ps =>
    (match v.get? k with
      | some part => anyStumbles part s
      | none => false)
    || propertyStumbles v ps

def firstStumbles (vs : List Value) : List (List Rule) → Bool
  | [] => false
  | s :: ss =>
    match vs with
    | [] => false
    | v :: vs => anyStumbles v s || firstStumbles vs ss

end

def check (v : Value) (form : List Rule) : Except String (Option Violation) :=
  if anyStumbles v form then .error Json.Obstacle.longNumber.message else .ok (violation? v form)

theorem violations_of_check {v : Value} {form : List Rule} (h : check v form = .ok none) :
    violations v form = [] := by
  unfold check at h
  split at h
  · cases h
  · have hnone := Option.map_eq_none_iff.1 (Except.ok.inj h)
    cases hv : violations v form with
    | nil => rfl
    | cons x xs =>
      rw [hv] at hnone
      cases hnone

end Schema

/-- How deep JSON may be nested where the stack of the program has its usual size. -/
def usualRoom : Nat := 990

instance (priority := low) standard : Toolkit where
  toCharNames := Glob.asciiNames
  yaml := Yaml.read
  check := Schema.check
  sound := Schema.violations_of_check
  settingsRoom := usualRoom
  answerRoom := usualRoom
  requestRoom := usualRoom
  bears _ := true

end MdxLint
