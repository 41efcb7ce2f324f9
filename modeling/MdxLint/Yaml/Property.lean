import MdxLint.Text.Utf8
import MdxLint.Yaml.Block

/-! # Tags, anchors and directives

What stands in front of a node: a tag says of what kind the node is, an anchor names it. A tag is
written in full or behind a handle, which a directive can explain. Each reader answers the number of
characters it took.
-/

namespace MdxLint.Yaml

/-- A tag as it is written. Without a handle it is complete. -/
structure WrittenTag where
  handle : Option (List Char)
  suffix : List Char
  deriving DecidableEq, Repr

inductive Directive where
  | version (major : Nat)
  | handle (name lead : List Char)
  | other
  deriving DecidableEq, Repr

def isTagChar (c : Char) : Bool :=
  c.isAlphanum || c ∈ "-;/?:@&=+$,_.!~*'()[]".toList

/-- The bytes written by a run of percent signs, each with two digits behind it. -/
def percentBytes? : List Char → Option (List UInt8)
  | '%' :: a :: b :: cs =>
    if isHex a && isHex b then (percentBytes? cs).map (UInt8.ofNat (hexNumber [a, b]) :: ·)
    else none
  | '%' :: _ => none
  | _ => some []

def tagText? (cs : List Char) : Option (List Char × Nat) :=
  match cs with
  | [] => some ([], 0)
  | c :: tail =>
    if c = '%' then
      match percentBytes? (c :: tail) with
      | none => none
      | some bytes =>
        match Utf8.decode bytes with
        | .error _ => none
        | .ok text =>
          (tagText? (tail.drop (3 * bytes.length - 1))).map fun r =>
            (text ++ r.1, 3 * bytes.length + r.2)
    else if isTagChar c then (tagText? tail).map fun r => (c :: r.1, r.2 + 1)
    else some ([], 0)
  termination_by cs.length
  decreasing_by all_goals simp_all only [List.length_drop, List.length_cons]; omega

def someTagText? (cs : List Char) : Option (List Char × Nat) :=
  (tagText? cs).filter fun r => r.2 ≠ 0

def tagHandle? (cs : List Char) : Option (List Char × Nat) :=
  if cs.head? = some ' ' then some (['!'], 0)
  else
    let name := cs.takeWhile isNameChar
    if (cs.drop name.length).head? = some '!' then some ('!' :: name ++ ['!'], name.length + 1)
    else none

def writtenTag? (cs : List Char) : Option (WrittenTag × Nat) :=
  let tag : Option (WrittenTag × Nat) := match cs with
    | '<' :: rest =>
      (someTagText? rest).bind fun (text, n) =>
        if (rest.drop n).head? = some '>' then some (⟨none, text⟩, n + 2) else none
    | _ =>
      if gapFollows cs then some (⟨none, ['!']⟩, 0)
      else if '!' ∈ cs.takeWhile fun c => !spaceFollows [c] then
        (tagHandle? cs).bind fun (handle, n) =>
          (someTagText? (cs.drop n)).map fun (text, m) => (⟨some handle, text⟩, n + m)
      else (someTagText? cs).map fun (text, n) => (⟨some ['!'], text⟩, n)
  tag.filter fun r => spaceFollows (cs.drop r.2)

def anchorName? (cs : List Char) : Option (List Char) :=
  let name := cs.takeWhile isNameChar
  let rest := cs.drop name.length
  let ends := gapFollows rest || rest.head?.any (· ∈ ['?', ':', ',', ']', '\x7d', '%', '@', '\x60'])
  if name.isEmpty || !ends then none else some name

def directiveValue? (name cs : List Char) : Option (Directive × Nat) :=
  let blanks := (cs.takeWhile (· = ' ')).length
  let value := cs.drop blanks
  if name = "YAML".toList then
    let major := value.takeWhile Char.isDigit
    let point := value.drop major.length
    let minor := (point.drop 1).takeWhile Char.isDigit
    if major.isEmpty || point.head? ≠ some '.' || minor.isEmpty then none
    else some (.version (digitsNumber 10 major), blanks + major.length + 1 + minor.length)
  else if name = "TAG".toList then
    if value.head? ≠ some '!' then none
    else
      (tagHandle? (value.drop 1)).bind fun (handle, n) =>
        let gap := (value.drop (n + 1)).takeWhile (· = ' ')
        if gap.isEmpty then none
        else
          (someTagText? (value.drop (n + 1 + gap.length))).map fun (lead, m) =>
            (.handle handle lead, blanks + n + 1 + gap.length + m)
  else some (.other, (cs.takeWhile (!isBreak ·)).length)

def directive? (cs : List Char) : Option (Directive × Nat) :=
  let name := cs.takeWhile isNameChar
  let rest := cs.drop name.length
  if name.isEmpty || !spaceFollows rest then none
  else
    (directiveValue? name rest).bind fun (d, n) =>
      if spaceFollows (rest.drop n) then
        (idleLine? (rest.drop n)).map fun m => (d, name.length + n + m)
      else none

end MdxLint.Yaml
