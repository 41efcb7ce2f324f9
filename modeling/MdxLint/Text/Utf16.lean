import MdxLint.Text.Quoted

/-! # UTF-16

Data files may write half of a pair of UTF-16 units that stands for no character. A text with such
a half is a row of points, each of which is a character or a lone half.
-/

namespace MdxLint

/-- A character, or the half of a pair of units without its other half. -/
inductive Point where
  | char (c : Char)
  | half (n : Fin 0x800)
  deriving DecidableEq, Repr

/-- The units of a character. -/
def charUnits (c : Char) : List Nat :=
  if c.toNat < 0x10000 then [c.toNat]
  else
    let n := c.toNat - 0x10000
    [0xD800 + n / 0x400, 0xDC00 + n % 0x400]

namespace Point

def code : Point → Nat
  | char c => c.toNat
  | half n => 0xD800 + n

def units : Point → List Nat
  | char c => charUnits c
  | half n => [0xD800 + n]

def ofUnit (n : Nat) : Point :=
  if h : 0xD800 ≤ n ∧ n < 0xE000 then half ⟨n - 0xD800, by omega⟩ else char (Char.ofNat n)

def char? : Point → Option Char
  | char c => some c
  | half _ => none

/-- The character, where a lone half is replaced by the character that says so. -/
def shown : Point → Char
  | char c => c
  | half _ => '\ufffd'

/-- What the error stream writes. -/
def printed : Point → List Char
  | char c => [c]
  | half n => '\\' :: 'u' :: hexDigits 4 (0xD800 + n)

def quoted (quote : Char) : Point → List Char
  | char c => quotedChar quote c
  | half n => '\\' :: 'u' :: hexDigits 4 (0xD800 + n)

end Point

/-- The characters of a text. -/
def pointsOf (s : String) : List Point := s.toList.map .char

def wholeText? (ps : List Point) : Option String := (ps.mapM Point.char?).map String.ofList

/-- The text with lone halves replaced. No name, number or blank has a lone half in it, and none has
the character that stands for one. -/
def shownText (ps : List Point) : String := String.ofList (ps.map Point.shown)

def printedText (ps : List Point) : String := String.ofList (ps.flatMap Point.printed)

def quotedPoints (ps : List Point) : String :=
  let q := quoteMark (ps.map Point.shown)
  String.ofList (q :: ps.flatMap (Point.quoted q) ++ [q])

end MdxLint
