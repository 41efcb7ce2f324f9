import MdxLint.Text.Blank
import MdxLint.Text.Split

/-! # Ranges of revisions

The files to be checked may be those changed between two revisions. A range is one revision, two
revisions parted by two points or by blanks, or two parted by three points, which stay together
because only so they mean the changes since the common ancestor.
-/

namespace MdxLint

/-- A revision, and a second one if the range has two ends. -/
structure Revisions where
  first : String
  second : Option String
  deriving DecidableEq, Repr

/-- What keeps a text from being a range. -/
inductive RevisionsFault where
  | empty
  | missingEnd (raw : String)
  | tooMany (raw : String)
  deriving DecidableEq, Repr

def RevisionsFault.message : RevisionsFault → String
  | empty => "git range cannot be empty"
  | missingEnd raw => "invalid git range \x60" ++ raw ++ "\x60: expected <sha1>..<sha2>"
  | tooMany raw => "invalid git range \x60" ++ raw ++ "\x60"

namespace Revisions

/-- The range that a text is. -/
def read (raw : String) : Except RevisionsFault Revisions :=
  let text := trim raw.toList
  if text.isEmpty then .error .empty
  else
    match cutAt? ['.', '.', '.'] text, cutAt? ['.', '.'] text with
    | some (a, b), _ =>
      if a.isEmpty || b.isEmpty then .error (.missingEnd raw)
      else .ok ⟨String.ofList text, none⟩
    | none, some (a, b) =>
      if a.isEmpty || b.isEmpty then .error (.missingEnd raw)
      else .ok ⟨String.ofList a, some (String.ofList b)⟩
    | none, none =>
      match wordsBy isBlank text with
      | [a] => .ok ⟨String.ofList a, none⟩
      | [a, b] => .ok ⟨String.ofList a, some (String.ofList b)⟩
      | _ => .error (.tooMany raw)

/-- The range in words; an empty second end counts as none. -/
def label (r : Revisions) : String :=
  match r.second with
  | some b => if b = "" then r.first else r.first ++ ".." ++ b
  | none => r.first

end Revisions

end MdxLint
