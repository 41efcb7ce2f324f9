import MdxLint.Schema.Rule
import MdxLint.Text.Split

/-! # Violations

All violations of a schema are collected, in the order of its rules. The one that is told is the
outermost and earliest; where only a choice of schemas is violated, it is the violation of one of
these that comes closest to the value.
-/

namespace MdxLint.Schema

inductive Step where
  | key (name : String)
  | index (i : Nat)
  deriving DecidableEq, Repr

def Step.text : Step → String
  | key name => name
  | index i => toString i

/-- A violation, at a path from the value where the search began. -/
inductive Violation where
  | mk (path : List Step) (message : String) (isChoice fitsKind : Bool) (inner : List Violation)
  deriving Repr, Inhabited

namespace Violation

def path : Violation → List Step
  | mk p _ _ _ _ => p

def message : Violation → String
  | mk _ m _ _ _ => m

def isChoice : Violation → Bool
  | mk _ _ c _ _ => c

def fitsKind : Violation → Bool
  | mk _ _ _ f _ => f

def inner : Violation → List Violation
  | mk _ _ _ _ i => i

def inPart (s : Step) (v : Violation) : Violation :=
  mk (s :: v.path) v.message v.isChoice v.fitsKind v.inner

end Violation

def extraText (keys : List Value) : String :=
  let ordered := keys.mergeSort fun a b => decide (¬ b.plain < a.plain)
  let verb := if keys.length = 1 then "was" else "were"
  "Additional properties are not allowed (" ++ ", ".intercalate (ordered.map Value.display)
    ++ " " ++ verb ++ " unexpected)"

def Rule.objections (v : Value) : Rule → List String
  | .kinds ks =>
    if ks.any (·.holds v) then []
    else
      let names := ks.map fun k => (Value.text k.name).display
      [v.display ++ " is not of type " ++ ", ".intercalate names]
  | .enum vs =>
    if vs.any (same · v) then [] else [v.display ++ " is not one of " ++ (Value.list vs).display]
  | .const c => if same c v then [] else [c.display ++ " was expected"]
  | .minimum n =>
    let low : Bool := match v with
      | .int m => m < n
      | .float x => x < Float.ofInt n
      | _ => false
    if low then [s!"{v.display} is less than the minimum of {n}"] else []
  | .minLength n =>
    match v with
    | .text s =>
      if n ≤ s.length then []
      else [v.display ++ if n = 1 then " should be non-empty" else " is too short"]
    | .torn ps =>
      if n ≤ ps.length then []
      else [v.display ++ if n = 1 then " should be non-empty" else " is too short"]
    | _ => []
  | .minItems n =>
    match v with
    | .list vs =>
      if n ≤ vs.length then []
      else [v.display ++ if n = 1 then " should be non-empty" else " is too short"]
    | _ => []
  | .maxItems n =>
    match v with
    | .list vs => if vs.length ≤ n then [] else [v.display ++ " is too long"]
    | _ => []
  | .uniqueItems =>
    match v with
    | .list vs => if allDistinct vs then [] else [v.display ++ " has non-unique elements"]
    | _ => []
  | .oneWord =>
    match v with
    | .text s => if isOneWord s then [] else [v.display ++ " does not match '^\\\\S+$'"]
    | .torn ps =>
      if isOneWord (shownText ps) then [] else [v.display ++ " does not match '^\\\\S+$'"]
    | _ => []
  | .required keys =>
    match v with
    | .map _ =>
      (keys.filter fun k => (v.get? k).isNone).map fun k =>
        (Value.text k).display ++ " is a required property"
    | _ => []
  | .onlyKeys keys =>
    match v with
    | .map es =>
      let extra := (es.map (·.1)).filter fun k => !keys.any fun known => k.sameKey (.text known)
      if extra.isEmpty then [] else [extraText extra]
    | _ => []
  | _ => []

mutual

/-- What a value violates of one rule. `fits` tells whether it has a kind that the rules named. -/
def Rule.violations (fits : Bool) (v : Value) : Rule → List Violation
  | .oneOf branches =>
    let inner := branchViolations v branches
    if inner.any List.isEmpty then []
    else
      [.mk [] (v.display ++ " is not valid under any of the given schemas") true fits
        inner.flatten]
  | .properties ps => propertyViolations v ps
  | .firstItems ss =>
    match v with
    | .list vs => firstViolations 0 vs ss
    | _ => []
  | .items s =>
    match v with
    | .list vs =>
      (vs.mapIdx fun i v => (violationsOf ((kindsOf? s).any (·.any (·.holds v))) v s).map
        (·.inPart (.index i))).flatten
    | _ => []
  | r => (r.objections v).map fun m => .mk [] m false fits []

def violationsOf (fits : Bool) (v : Value) : List Rule → List Violation
  | [] => []
  | r :: rs => r.violations fits v ++ violationsOf fits v rs

def branchViolations (v : Value) : List (List Rule) → List (List Violation)
  | [] => []
  | s :: ss =>
    violationsOf ((kindsOf? s).any (·.any (·.holds v))) v s :: branchViolations v ss

def propertyViolations (v : Value) : List (String × List Rule) → List Violation
  | [] => []
  | (k, s) :: ps =>
    (match v.get? k with
      | some part =>
        (violationsOf ((kindsOf? s).any (·.any (·.holds part))) part s).map (·.inPart (.key k))
      | none => [])
    ++ propertyViolations v ps

def firstViolations (i : Nat) (vs : List Value) : List (List Rule) → List Violation
  | [] => []
  | s :: ss =>
    match vs with
    | [] => []
    | v :: vs =>
      (violationsOf ((kindsOf? s).any (·.any (·.holds v))) v s).map (·.inPart (.index i))
        ++ firstViolations (i + 1) vs ss

end

/-- What a value violates of a schema. -/
def violations (v : Value) (s : List Rule) : List Violation :=
  violationsOf ((kindsOf? s).any (·.any (·.holds v))) v s

def Step.order (a b : Step) : Ordering :=
  match a, b with
  | .key x, .key y => compare x y
  | .index i, .index j => compare i j
  | .key _, .index _ => .gt
  | .index _, .key _ => .lt

def pathOrder : List Step → List Step → Ordering
  | [], [] => .eq
  | [], _ => .lt
  | _, [] => .gt
  | a :: as, b :: bs => (a.order b).then (pathOrder as bs)

/-- How much a violation says about the value: less, the deeper it lies; then by path; more, if no
choice is violated; more, if the value does not fit the kind that was asked for. -/
def Violation.relevance (a b : Violation) : Ordering :=
  (compare b.path.length a.path.length).then <|
    (pathOrder a.path b.path).then <|
      (compare (!a.isChoice).toNat (!b.isChoice).toNat).then <|
        compare (!a.fitsKind).toNat (!b.fitsKind).toNat

def mostRelevant? : List Violation → Option Violation
  | [] => none
  | v :: vs => some (vs.foldl (fun best w => if best.relevance w = .lt then w else best) v)

def leastRelevant (vs : List Violation) : List Violation :=
  vs.mergeSort fun a b => (a.relevance b) != .gt

theorem sizeOf_lt_of_leastRelevant {vs rest : List Violation} {v : Violation}
    (h : leastRelevant vs = v :: rest) : sizeOf v < sizeOf vs := by
  apply List.sizeOf_lt_of_mem
  have : v ∈ leastRelevant vs := h ▸ List.mem_cons_self
  exact (List.mem_mergeSort).1 this

/-- The violation to tell, seen from outside: inside a choice, the least relevant of the inner
ones, unless two of them are equally so. -/
def Violation.narrow (v : Violation) : Violation :=
  match v with
  | .mk path message isChoice fits inner =>
    match _h : leastRelevant inner with
    | [] => .mk path message isChoice fits inner
    | a :: rest =>
      if rest.head?.any fun b => a.relevance b = .eq then .mk path message isChoice fits inner
      else
        let w := a.narrow
        .mk (path ++ w.path) w.message w.isChoice w.fitsKind w.inner
  termination_by sizeOf v
  decreasing_by
    all_goals
      have := sizeOf_lt_of_leastRelevant _h
      simp; omega

end MdxLint.Schema
