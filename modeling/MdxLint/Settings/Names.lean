import MdxLint.Failure
import MdxLint.Data.Value
import MdxLint.Script.Ambient

/-! # Which names are allowed

A document may use the ambient names, or the names of a list, with or without the ambient ones, or
any name at all.
-/

namespace MdxLint

/-- How the names of documents are checked. -/
inductive NameMode where
  | ambient
  | listed
  | unchecked
  deriving DecidableEq, Repr

def NameMode.name : NameMode → String
  | ambient => "default"
  | listed => "custom"
  | unchecked => "disabled"

/-- Which names documents may use. `extend` adds the ambient names to listed ones. -/
structure NamePolicy where
  mode : NameMode
  names : List String
  extend : Bool
  deriving DecidableEq, Repr

namespace NamePolicy

def ambient : NamePolicy := ⟨.ambient, [], false⟩

def unchecked : NamePolicy := ⟨.unchecked, [], false⟩

def listed (names : List String) (extend : Bool) : NamePolicy := ⟨.listed, names.eraseDups, extend⟩

def enabled (p : NamePolicy) : Bool := p.mode != .unchecked

/-- The names that are allowed, if any check is made. -/
def allowed? (p : NamePolicy) : Option (List String) :=
  match p.mode with
  | .unchecked => none
  | .ambient => some ambientNames
  | .listed => some (if p.extend then (ambientNames ++ p.names).eraseDups else p.names)

def ofValue (v : Value) (extend : Bool) : Except Failure NamePolicy :=
  match v with
  | .null => .ok ambient
  | .bool b => .ok (if b then ambient else unchecked)
  | .list vs => .ok (listed (vs.map Value.plain) extend)
  | .pair a b => .ok (listed [a.plain, b.plain] extend)
  | .set vs => .ok (listed (vs.map Value.plain) extend)
  | .text "default" => .ok ambient
  | .text "disabled" => .ok unchecked
  | v => .error (.settings ("invalid globals setting: " ++ v.display))

end NamePolicy

end MdxLint
