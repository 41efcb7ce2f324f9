/-! # Places in a text

A place counts characters, lines and columns. Only the line feed ends a line, and `Place.after`
of a concatenation is the place after the second part seen from the place after the first.
-/

namespace MdxLint

/-- A place in a text: the characters before it, and its line and column, both from one. -/
structure Place where
  offset : Nat
  line : Nat
  column : Nat
  deriving DecidableEq, Repr, Inhabited

namespace Place

/-- The place of the first character. -/
def origin : Place := ⟨0, 1, 1⟩

def next (p : Place) (c : Char) : Place :=
  if c = '\n' then ⟨p.offset + 1, p.line + 1, 1⟩ else ⟨p.offset + 1, p.line, p.column + 1⟩

/-- The place behind a text. -/
def after (p : Place) (cs : List Char) : Place := cs.foldl next p

@[simp] theorem after_nil (p : Place) : p.after [] = p := rfl

@[simp] theorem after_cons (p : Place) (c : Char) (cs : List Char) :
    p.after (c :: cs) = (p.next c).after cs := rfl

@[simp] theorem after_append (p : Place) (a b : List Char) :
    p.after (a ++ b) = (p.after a).after b := by
  simp [after]

@[simp] theorem offset_after (p : Place) (cs : List Char) :
    (p.after cs).offset = p.offset + cs.length := by
  induction cs generalizing p with
  | nil => rfl
  | cons c cs ih =>
    rw [after_cons, ih, List.length_cons, next]
    split <;> simp <;> omega

theorem line_after (p : Place) (cs : List Char) :
    (p.after cs).line = p.line + cs.count '\n' := by
  induction cs generalizing p with
  | nil => rfl
  | cons c cs ih =>
    rw [after_cons, ih, List.count_cons, next]
    split <;> simp_all
    omega

def describe (p : Place) : String := s!"line {p.line}, column {p.column}"

end Place

end MdxLint
