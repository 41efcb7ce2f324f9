import MdxLint.Data.Base64
import MdxLint.Data.Integer
import MdxLint.Data.Real
import MdxLint.Yaml.Stamp

/-! # Values of scalars

What the text of a scalar means as a value of a kind. A tag can ask for a kind whose form the text
does not have; then there is no value.
-/

namespace MdxLint.Yaml

def wholeInBase (base : Nat) (cs : List Char) : Except Fault Int :=
  if base = 10 && digitLimit < cs.countP isDecimal then
    .error (.wrongValue (digitLimitText (cs.countP isDecimal)))
  else
    match readSignedInBase? base cs with
    | some n => .ok n
    | none =>
      .error (.wrongValue
        (s!"invalid literal for int() with base {base}: " ++ quoted (String.ofList cs)))

/-- A whole number: binary, octal, hexadecimal, decimal, or of base sixty. -/
def wholeNumber (cs : List Char) : Except Fault Int :=
  let cs := cs.filter (· ≠ '_')
  let sign : Int := if cs.head? = some '-' then -1 else 1
  let tooShort : Except Fault Int := .error (.tooShort "string index out of range")
  if cs.isEmpty then tooShort
  else
    match unsigned cs with
    | [] => tooShort
    | ['0'] => .ok 0
    | '0' :: 'b' :: ds => (wholeInBase 2 ds).map (sign * ·)
    | '0' :: 'x' :: ds => (wholeInBase 16 ds).map (sign * ·)
    | '0' :: ds => (wholeInBase 8 ('0' :: ds)).map (sign * ·)
    | body =>
      ((splitAtChar ':' body).mapM (wholeInBase 10)).map fun ns =>
        sign * ns.foldl (fun n d => n * 60 + d) 0

def floatOf (cs : List Char) : Except Fault Float :=
  match readFloat? cs with
  | some x => .ok x
  | none =>
    .error (.wrongValue ("could not convert string to float: " ++ quoted (String.ofList cs)))

/-- A number of base sixty, the digits of least weight last. The weights are whole numbers and have to
be in the range of floating point numbers. -/
def weighted (digits : List Float) : Except Fault Float :=
  if Nat.pow 2 1024 ≤ Nat.pow 60 (digits.length - 1) then
    .error (.tooLarge "int too large to convert to float")
  else
    let scaled := digits.reverse.mapIdx fun i x => x * Float.ofNat (Nat.pow 60 i)
    .ok (scaled.foldl (· + ·) 0.0)

def fractionalNumber (cs : List Char) : Except Fault Float :=
  let cs := (cs.filter (· ≠ '_')).map Char.toLower
  let signed (x : Float) : Float := if cs.head? = some '-' then -x else x
  if cs.isEmpty then .error (.tooShort "string index out of range")
  else
    let body := unsigned cs
    if body = ".inf".toList then .ok (signed (1.0 / 0.0))
    else if body = ".nan".toList then .ok (0.0 / 0.0)
    else if ':' ∈ body then
      (((splitAtChar ':' body).mapM floatOf).bind weighted).map signed
    else (floatOf body).map signed

def truthValue (cs : List Char) : Except Fault Bool :=
  let word := String.ofList (cs.map Char.toLower)
  if word ∈ ["yes", "true", "on"] then .ok true
  else if word ∈ ["no", "false", "off"] then .ok false
  else .error (.unknownName (quoted word))

def timeStamp (cs : List Char) : Except Fault Timestamp :=
  match writtenStamp? cs with
  | some s => s.stamp
  | none => .error (.missingPart "'NoneType' object has no attribute 'groupdict'")

def byteString (cs : List Char) : Except Fault (List UInt8) :=
  if cs.all (·.toNat < 0x80) then orSyntactic (Base64.decode? cs) else .error .syntactic

def Kind.scalarValue (k : Kind) (cs : List Char) : Except Fault Value :=
  match k with
  | .null => .ok .null
  | .bool => (truthValue cs).map .bool
  | .int => (wholeNumber cs).map .int
  | .float => (fractionalNumber cs).map .float
  | .bytes => (byteString cs).map .bytes
  | .stamp => (timeStamp cs).map .stamp
  | .text => .ok (.text (String.ofList cs))
  | _ => .error .syntactic

end MdxLint.Yaml
