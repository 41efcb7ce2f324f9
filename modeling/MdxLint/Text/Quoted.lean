import MdxLint.Text.Digit
import MdxLint.Text.Printable

/-! # Quoted text

A text between quotes as it is shown in messages. Single quotes are used unless the text holds
one and no double quote; the quote and the backslash are escaped, so is what cannot be printed.
-/

namespace MdxLint

def quoteMark (cs : List Char) : Char :=
  if '\'' ∈ cs && '"' ∉ cs then '"' else '\''

def quotedChar (quote c : Char) : List Char :=
  if c = quote || c = '\\' then ['\\', c]
  else if c = '\n' then ['\\', 'n']
  else if c = '\r' then ['\\', 'r']
  else if c = '\t' then ['\\', 't']
  else if isPrintable c then [c]
  else if c.toNat < 0x100 then '\\' :: 'x' :: hexDigits 2 c.toNat
  else if c.toNat < 0x10000 then '\\' :: 'u' :: hexDigits 4 c.toNat
  else '\\' :: 'U' :: hexDigits 8 c.toNat

def quoted (s : String) : String :=
  let cs := s.toList
  let q := quoteMark cs
  String.ofList (q :: cs.flatMap (quotedChar q) ++ [q])

end MdxLint
