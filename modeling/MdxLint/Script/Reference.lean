import MdxLint.Script.Declaration
import MdxLint.Script.Tokens

/-! # Free names

A name is free in a script if some token uses it and none declares it. Scopes are not told apart:
a declaration anywhere covers every use.
-/

namespace MdxLint

namespace Script

def isProperty (s : Script) (i : Nat) : Bool :=
  (s.before? i).any fun t => t.kind == .punctuator && t.text ∈ [".", "?.", "#"]

def isJumpLabel (s : Script) (i : Nat) : Bool :=
  (s.before? i).any fun t => t.kind == .keyword && t.text ∈ ["break", "continue"]

def isKeyOrLabel (s : Script) (i : Nat) : Bool :=
  s.isPunct (i + 1) ":" &&
    match s.before? i with
    | none => true
    | some t => t.kind == .punctuator && t.text ∈ ["\x7b", ",", ";", "\x7d"]

def isUse (s : Script) (d : Declarations) (i : Nat) : Bool :=
  s.text i ∉ contextualKeywords && !d.excludes i
    && !s.isProperty i && !s.isJumpLabel i && !s.isKeyOrLabel i

/-- The indices of the uses of names that are declared nowhere. -/
def freeUses (s : Script) : List Nat :=
  let d := s.declarations
  let names := d.declared.map s.text
  (List.range s.size).filter fun i => s.isName i && s.text i ∉ names && s.isUse d i

/-- The free names, in the order of their first use. -/
def freeNames (s : Script) : List String := (s.freeUses.map s.text).eraseDups

end Script

/-- The free names of a script that is given as text. -/
def freeNamesOf (code : String) : Except ScanError (List String) :=
  (scan code).map fun ts => (Script.ofTokens ts).freeNames

/-- The free names of a script that are not allowed. -/
def unknownNames (code : String) (allowed : List String) : Except ScanError (List String) :=
  (freeNamesOf code).map (·.filter (· ∉ allowed))

end MdxLint
