/-! # Shortest decimals

The decimal text of a binary floating point number is the shortest one that reads back as the
same number, and of several shortest ones the nearest. The search is exact: a finite number is a
quotient of natural numbers, and so are the ends of the interval of reals that round to it.
-/

namespace MdxLint

structure Decimal where
  digits : Nat
  exponent : Int
  deriving DecidableEq, Repr

/-- A finite floating point number without its sign: `mantissa · 2 ^ exponent`. -/
structure Dyadic where
  mantissa : Nat
  exponent : Int
  /-- The next number below is only half as far away as the next one above. -/
  atStep : Bool
  deriving DecidableEq, Repr

/-- What a floating point number is, apart from its sign. -/
inductive Magnitude where
  | finite (x : Dyadic)
  | infinite
  | undefined
  deriving DecidableEq, Repr

namespace Dyadic

/-- The sign, and the magnitude, of a double precision number given by its bits. -/
def ofBits (bits : Nat) : Bool × Magnitude :=
  let fraction : Nat := bits % Nat.pow 2 52
  let exponent : Nat := bits / Nat.pow 2 52 % Nat.pow 2 11
  let magnitude : Magnitude :=
    if exponent = 2047 then if fraction = 0 then .infinite else .undefined
    else if exponent = 0 then .finite ⟨fraction, -1074, false⟩
    else .finite ⟨fraction + Nat.pow 2 52, exponent - 1075, fraction = 0 && exponent > 1⟩
  (bits / Nat.pow 2 63 % 2 = 1, magnitude)

/-- `4 · 2 ^ exponent` as a quotient, so that a quarter of a step is a whole number. -/
def unit (x : Dyadic) : Nat × Nat :=
  let e := x.exponent - 2
  if 0 ≤ e then (Nat.pow 2 e.toNat, 1) else (1, Nat.pow 2 (-e).toNat)

/-- Numerators of the least real that rounds to `x`, of `x`, and of the greatest, over the
denominator of `unit`. -/
def window (x : Dyadic) : Nat × Nat × Nat :=
  let u := x.unit.1
  ((4 * x.mantissa - if x.atStep then 1 else 2) * u, 4 * x.mantissa * u, (4 * x.mantissa + 2) * u)

/-- The number of digits before the decimal point, negative for zeros behind it. -/
def magnitude (x : Dyadic) : Int :=
  let (_, v, _) := x.window
  ((Nat.toDigits 10 (v * Nat.pow 10 400 / x.unit.2)).length : Int) - 400

/-- The decimal with `n` digits nearest to `x` that reads back as `x`, if there is one. Of two
that are equally near, the even one is taken. -/
def withDigits? (x : Dyadic) (n : Nat) : Option Decimal :=
  let (lo, v, hi) := x.window
  let den := x.unit.2
  let e := x.magnitude - n
  let scaleUp := Nat.pow 10 (-e).toNat
  let scaleDown := Nat.pow 10 e.toNat
  let grid := den * scaleDown
  let below := v * scaleUp / grid
  let above := below + 1
  let even := x.mantissa % 2 = 0
  let inside (c : Nat) : Bool :=
    let c := c * grid
    if even then lo * scaleUp ≤ c && c ≤ hi * scaleUp else lo * scaleUp < c && c < hi * scaleUp
  let toBelow := v * scaleUp - below * grid
  let toAbove := above * grid - v * scaleUp
  let belowFirst := if toBelow = toAbove then below % 2 = 0 else toBelow < toAbove
  if inside below && inside above then some ⟨if belowFirst then below else above, e⟩
  else if inside below then some ⟨below, e⟩
  else if inside above then some ⟨above, e⟩
  else none

/-- The shortest decimal that reads back as `x`; seventeen digits are always enough. -/
def shortest (x : Dyadic) : Decimal :=
  ((List.range 17).findSome? fun n => x.withDigits? (n + 1)).getD ⟨0, 0⟩

end Dyadic

namespace Decimal

/-- The digits without the zeros at their end, and the place of the point behind the first. -/
def normal (d : Decimal) : List Char × Int :=
  let ds := Nat.toDigits 10 d.digits
  ((ds.reverse.dropWhile (· = '0')).reverse, ds.length + d.exponent)

def positional (ds : List Char) (point : Int) : List Char :=
  if point ≤ 0 then '0' :: '.' :: List.replicate (-point).toNat '0' ++ ds
  else
    let p := point.toNat
    let whole := ds.take p ++ List.replicate (p - ds.length) '0'
    let rest := ds.drop p
    whole ++ '.' :: (if rest.isEmpty then ['0'] else rest)

/-- Scientific notation; the exponent has a sign and at least two digits. -/
def scientific (ds : List Char) (point : Int) : List Char :=
  let e := point - 1
  let n := Nat.toDigits 10 e.natAbs
  let mantissa := match ds with
    | d :: r :: rs => d :: '.' :: r :: rs
    | ds => ds
  mantissa ++ 'e' :: (if e < 0 then '-' else '+') :: (List.replicate (2 - n.length) '0' ++ n)

/-- Numbers from `10 ^ 16` on and below `10 ^ -4` are written in scientific notation. -/
def text (d : Decimal) : List Char :=
  let (ds, point) := d.normal
  if -4 < point && point ≤ 16 then positional ds point else scientific ds point

def toFloat (d : Decimal) : Float :=
  if d.digits = 0 then 0.0
  else
    let size := ((Nat.toDigits 10 d.digits).length : Int) + d.exponent
    if 310 < size then 1.0 / 0.0
    else if size < -330 then 0.0
    else if 0 ≤ d.exponent then Float.ofScientific d.digits false d.exponent.toNat
    else Float.ofScientific d.digits true (-d.exponent).toNat

end Decimal

/-- The shortest text that reads back as the number, with `inf` and `nan` for what is no number. -/
def floatText (x : Float) : String :=
  let (negative, m) := Dyadic.ofBits x.toBits.toNat
  let sign := if negative then ['-'] else []
  String.ofList <| match m with
    | .undefined => ['n', 'a', 'n']
    | .infinite => sign ++ ['i', 'n', 'f']
    | .finite x => sign ++ if x.mantissa = 0 then ['0', '.', '0'] else x.shortest.text

def floatTruncate? (x : Float) : Option Int :=
  let (negative, m) := Dyadic.ofBits x.toBits.toNat
  match m with
  | .finite x =>
    let n : Nat := if 0 ≤ x.exponent then x.mantissa * Nat.pow 2 x.exponent.toNat
      else x.mantissa / Nat.pow 2 (-x.exponent).toNat
    some (if negative then -n else n)
  | _ => none

end MdxLint
