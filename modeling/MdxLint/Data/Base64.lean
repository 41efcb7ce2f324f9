/-! # Bytes as text in base 64

Four characters write three bytes. Characters outside the alphabet do not count, and padding ends
the text where it completes a group of four.
-/

namespace MdxLint.Base64

def sextet? (c : Char) : Option Nat :=
  if 'A' ≤ c && c ≤ 'Z' then some (c.toNat - 'A'.toNat)
  else if 'a' ≤ c && c ≤ 'z' then some (c.toNat - 'a'.toNat + 26)
  else if '0' ≤ c && c ≤ '9' then some (c.toNat - '0'.toNat + 52)
  else if c = '+' then some 62
  else if c = '/' then some 63
  else none

/-- The bytes of a text from a place on where `taken` characters of a group of four have been read,
the last one's bits that are not written yet being `bits`, and `pads` padding characters stood right
before. -/
def decodeFrom? (taken bits pads : Nat) : List Char → Option (List UInt8)
  | [] => if taken = 0 then some [] else none
  | c :: cs =>
    if c = '=' then
      if 2 ≤ taken && 4 ≤ taken + pads + 1 then some []
      else decodeFrom? taken bits (if 2 ≤ taken then pads + 1 else pads) cs
    else
      match sextet? c with
      | none => decodeFrom? taken bits pads cs
      | some n =>
        match taken with
        | 0 => decodeFrom? 1 n 0 cs
        | 1 => (decodeFrom? 2 (n % 16) 0 cs).map (UInt8.ofNat (bits * 4 + n / 16) :: ·)
        | 2 => (decodeFrom? 3 (n % 4) 0 cs).map (UInt8.ofNat (bits * 16 + n / 4) :: ·)
        | _ => (decodeFrom? 0 0 0 cs).map (UInt8.ofNat (bits * 64 + n) :: ·)

def decode? (cs : List Char) : Option (List UInt8) := decodeFrom? 0 0 0 cs

end MdxLint.Base64
