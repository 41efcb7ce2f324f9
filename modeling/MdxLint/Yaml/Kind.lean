import MdxLint.Text.Split
import MdxLint.Yaml.Character

/-! # Kinds of values

The kind that a tag names, and the kind that a plain scalar has without one: the forms of truth
values, numbers, time stamps and null are told apart by their characters alone, and whatever has
none of these forms is a text.
-/

namespace MdxLint.Yaml

inductive Kind where
  | null
  | bool
  | int
  | float
  | bytes
  | stamp
  | text
  | list
  /-- A list of maps with one entry each. -/
  | pairs
  | map
  /-- A map of which only the keys count. -/
  | set
  /-- A key under which the entries of other mappings are taken over. -/
  | merge
  /-- A key under which a mapping holds what it stands for as a scalar. -/
  | standIn
  | unknown
  deriving DecidableEq, Repr

def kindTags : List (String × Kind) :=
  [("null", .null), ("bool", .bool), ("int", .int), ("float", .float), ("binary", .bytes),
   ("timestamp", .stamp), ("str", .text), ("seq", .list), ("omap", .pairs), ("pairs", .pairs),
   ("map", .map), ("set", .set), ("merge", .merge), ("value", .standIn)]

def Kind.ofTag (tag : List Char) : Kind :=
  let lead := "tag:yaml.org,2002:".toList
  if lead.isPrefixOf tag then
    (kindTags.lookup (String.ofList (tag.drop lead.length))).getD .unknown
  else .unknown

def boolWords : List String :=
  ["yes", "Yes", "YES", "no", "No", "NO", "true", "True", "TRUE", "false", "False", "FALSE",
   "on", "On", "ON", "off", "Off", "OFF"]

def nullWords : List String := ["", "~", "null", "Null", "NULL"]

def isSpacedDigit (c : Char) : Bool := c.isDigit || c = '_'

def unsigned (cs : List Char) : List Char :=
  if cs.head? = some '+' || cs.head? = some '-' then cs.drop 1 else cs

def isSpacedNumber (cs : List Char) : Bool := cs.head?.any Char.isDigit && cs.all isSpacedDigit

def isSixtieth (cs : List Char) : Bool :=
  match cs with
  | [d] => d.isDigit
  | [t, d] => '0' ≤ t && t ≤ '5' && d.isDigit
  | _ => false

/-- The form of a whole number: binary, octal, hexadecimal, decimal, or of base sixty. -/
def isWhole (cs : List Char) : Bool :=
  match unsigned cs with
  | '0' :: 'b' :: ds => !ds.isEmpty && ds.all fun c => c = '0' || c = '1' || c = '_'
  | '0' :: 'x' :: ds => !ds.isEmpty && ds.all fun c => isHex c || c = '_'
  | '0' :: ds => ds.all fun c => isOctal c || c = '_'
  | body =>
    match splitAtChar ':' body with
    | first :: others => isSpacedNumber first && others.all isSixtieth
    | [] => false

def isFraction (cs : List Char) : Bool :=
  match cs.dropWhile isSpacedDigit with
  | [] => true
  | e :: s :: ds =>
    (e = 'e' || e = 'E') && (s = '+' || s = '-') && !ds.isEmpty && ds.all Char.isDigit
  | _ => false

/-- The form of a number with a point, of base ten or sixty, or of a word for one. -/
def isFractional (cs : List Char) : Bool :=
  match unsigned cs with
  | '.' :: rest =>
    let word := String.ofList rest
    let bare := cs.head? = some '.'
    word ∈ ["inf", "Inf", "INF"] || (bare && word ∈ ["nan", "NaN", "NAN"])
      || (bare && rest.head?.any Char.isDigit && isFraction rest)
  | body =>
    let whole := body.takeWhile (· ≠ '.')
    match body.drop whole.length, splitAtChar ':' whole with
    | _ :: rest, [n] => isSpacedNumber n && isFraction rest
    | _ :: rest, n :: others =>
      isSpacedNumber n && others.all isSixtieth && rest.all isSpacedDigit
    | _, _ => false

end MdxLint.Yaml
