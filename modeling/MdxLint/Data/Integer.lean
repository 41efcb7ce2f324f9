import MdxLint.Data.Value
import MdxLint.Text.Blank
import MdxLint.Text.Split

/-! # Whole numbers from values

A whole number may be written with a sign, with digits of any script and with single underscores
between digits; blanks around it do not count. In base ten no number of more than `digitLimit`
digits is read or written.
-/

namespace MdxLint

/-- A whole number may have so many digits in base ten. -/
def digitLimit : Nat := 4300

/-- What is told about a number with `n` digits, if it has too many to be read. -/
def digitLimitText (n : Nat) : String :=
  s!"Exceeds the limit ({digitLimit} digits) for integer string conversion: value has {n} digits; "
    ++ "use sys.set_int_max_str_digits() to increase the limit"

/-- The number has as many digits as may be written. -/
def canBeWritten (n : Int) : Bool := n.natAbs < Nat.pow 10 digitLimit

/-- The number that decimal digits write, with single underscores between them allowed. -/
def readDigits? (cs : List Char) : Option Nat :=
  let groups := splitAtChar '_' cs
  if groups.any (·.isEmpty) || digitLimit < groups.flatten.length then none
  else groups.flatten.foldlM (fun n c => (decimalValue? c).map (n * 10 + ·)) 0

def readInteger? (s : String) : Option Int :=
  match trim s.toList with
  | '-' :: cs => (readDigits? cs).map fun n => -(n : Int)
  | '+' :: cs => (readDigits? cs).map Int.ofNat
  | cs => (readDigits? cs).map Int.ofNat

def baseMark? : Nat → Option Char
  | 2 => some 'b'
  | 8 => some 'o'
  | 16 => some 'x'
  | _ => none

def digitValue? (base : Nat) (c : Char) : Option Nat :=
  ((decimalValue? c).or (if isHex c then some (hexValue c) else none)).filter (· < base)

/-- The natural number that the digits of a base write; its mark may stand in front of them. -/
def readInBase? (base : Nat) (cs : List Char) : Option Nat :=
  let marked := cs.head? = some '0' && baseMark? base = ((cs.drop 1).head?.map Char.toLower)
    && (baseMark? base).isSome
  let ds := if marked then cs.drop 2 else cs
  if ds.isEmpty then none
  else ds.foldlM (fun n c => (digitValue? base c).map (n * base + ·)) 0

/-- The whole number that a text is in a base; no underscores are allowed. -/
def readSignedInBase? (base : Nat) (cs : List Char) : Option Int :=
  match trim cs with
  | '-' :: cs => (readInBase? base cs).map fun n => -(n : Int)
  | '+' :: cs => (readInBase? base cs).map Int.ofNat
  | cs => (readInBase? base cs).map Int.ofNat

end MdxLint
