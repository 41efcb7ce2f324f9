import MdxLint.Data.Decimal
import MdxLint.Text.Blank
import MdxLint.Text.Digit

/-! # Floating point numbers from texts

A number may have a sign, a point and an exponent, and its digits may be those of any script; words
stand for the infinities and for what is no number. Blanks around it do not count.
-/

namespace MdxLint

def decimalNumber (cs : List Char) : Nat :=
  cs.foldl (fun n c => n * 10 + (decimalValue? c).getD 0) 0

def readExponent? (cs : List Char) : Option Int :=
  match cs with
  | [] => some 0
  | e :: rest =>
    let (negative, ds) : Bool × List Char := match rest with
      | '-' :: ds => (true, ds)
      | '+' :: ds => (false, ds)
      | ds => (false, ds)
    if (e = 'e' || e = 'E') && !ds.isEmpty && ds.all isDecimal then
      let n : Int := decimalNumber ds
      some (if negative then -n else n)
    else none

def readMagnitude? (cs : List Char) : Option Float :=
  let word := cs.map Char.toLower
  if word = "inf".toList || word = "infinity".toList then some (1.0 / 0.0)
  else if word = "nan".toList then some (0.0 / 0.0)
  else
    let whole := cs.takeWhile isDecimal
    let afterWhole := cs.drop whole.length
    let pointed := afterWhole.head? = some '.'
    let fraction := if pointed then (afterWhole.drop 1).takeWhile isDecimal else []
    let behind := afterWhole.drop (if pointed then fraction.length + 1 else 0)
    if whole.isEmpty && fraction.isEmpty then none
    else
      (readExponent? behind).map fun e =>
        (Decimal.mk (decimalNumber (whole ++ fraction)) (e - fraction.length)).toFloat

def readFloat? (cs : List Char) : Option Float :=
  match trim cs with
  | '-' :: cs => (readMagnitude? cs).map (-·)
  | '+' :: cs => readMagnitude? cs
  | cs => readMagnitude? cs

end MdxLint
