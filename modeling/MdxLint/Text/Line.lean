import MdxLint.Text.Ranges

/-! # Lines

A text is cut into lines behind each line break, so that the lines put together are the text. The
line breaks are those of Unicode and the information separators; a carriage return with a line
feed behind it is one break.
-/

namespace MdxLint

def lineBreakRanges : CodeRanges :=
  [(0x0A, 0x0D), (0x1C, 0x1E), (0x85, 0x85), (0x2028, 0x2029)]

/-- The character ends a line of a text. -/
def isLineBreak (c : Char) : Bool := lineBreakRanges.contains c.toNat

def consLine (c : Char) : List (List Char) → List (List Char)
  | [] => [[c]]
  | l :: ls => (c :: l) :: ls

/-- The lines of a text, each with the break that ends it. -/
def splitLines : List Char → List (List Char)
  | [] => []
  | '\r' :: '\n' :: cs => ['\r', '\n'] :: splitLines cs
  | c :: cs => if isLineBreak c then [c] :: splitLines cs else consLine c (splitLines cs)

@[simp] theorem flatten_consLine (c : Char) (ls : List (List Char)) :
    (consLine c ls).flatten = c :: ls.flatten := by
  cases ls <;> simp [consLine]

theorem flatten_splitLines (cs : List Char) : (splitLines cs).flatten = cs := by
  fun_induction splitLines cs with
  | case1 => rfl
  | case2 cs ih => simp [ih]
  | case3 c cs _ _ ih => simp [ih]
  | case4 c cs _ _ ih => simp [ih]

/-- Every line break becomes a line feed, as a file is read in text mode. -/
def unifyLineEnds : List Char → List Char
  | [] => []
  | '\r' :: '\n' :: cs => '\n' :: unifyLineEnds cs
  | '\r' :: cs => '\n' :: unifyLineEnds cs
  | c :: cs => c :: unifyLineEnds cs

end MdxLint
