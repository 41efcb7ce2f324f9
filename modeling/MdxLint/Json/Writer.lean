import MdxLint.Data.Integer
import MdxLint.Text.Digit

/-! # Writing JSON

Texts are written in ASCII: what has no short escape and is not printed in ASCII is written as one
or two UTF-16 units. A layout says how items are separated and whether keys are sorted.
-/

namespace MdxLint.Json

def unitEscape (n : Nat) : List Char := '\\' :: 'u' :: hexDigits 4 n

def escapedChar (c : Char) : List Char :=
  if c = '"' then ['\\', '"']
  else if c = '\\' then ['\\', '\\']
  else if c = '\n' then ['\\', 'n']
  else if c = '\r' then ['\\', 'r']
  else if c = '\t' then ['\\', 't']
  else if c = '\x08' then ['\\', 'b']
  else if c = '\x0c' then ['\\', 'f']
  else if 0x20 ≤ c.toNat && c.toNat < 0x7f then [c]
  else if c.toNat < 0x10000 then unitEscape c.toNat
  else
    let n := c.toNat - 0x10000
    unitEscape (0xD800 + n / 0x400) ++ unitEscape (0xDC00 + n % 0x400)

def escapedPoint : Point → List Char
  | .char c => escapedChar c
  | .half n => unitEscape (0xD800 + n)

def escaped (ps : List Point) : String :=
  String.ofList ('"' :: ps.flatMap escapedPoint ++ ['"'])

structure Layout where
  /-- Keys of maps are written in the order of their code points. -/
  sorted : Bool := false
  /-- Items stand on lines of their own, two blanks deeper than what holds them. -/
  onLines : Bool := false

def numberText (x : Float) : String :=
  match floatText x with
  | "nan" => "NaN"
  | "inf" => "Infinity"
  | "-inf" => "-Infinity"
  | s => s

/-- The text of a key, if it can be one. Numbers, truth values and null are spelt out. -/
def keyText? : Value → Option (List Point)
  | .text s => some (pointsOf s)
  | .torn ps => some ps
  | .int n => if canBeWritten n then some (pointsOf (toString n)) else none
  | .float x => some (pointsOf (numberText x))
  | .bool true => some (pointsOf "true")
  | .bool false => some (pointsOf "false")
  | .null => some (pointsOf "null")
  | _ => none

def Layout.group (l : Layout) (depth : Nat) (opener closer : String) (items : List String) :
    String :=
  if items.isEmpty then opener ++ closer
  else if l.onLines then
    let indent (d : Nat) : String := "\n" ++ String.ofList (List.replicate (2 * d) ' ')
    opener ++ indent (depth + 1) ++ ("," ++ indent (depth + 1)).intercalate items
      ++ indent depth ++ closer
  else opener ++ ", ".intercalate items ++ closer

def keyLe (a b : List Point × String) : Bool := decide (¬ b.1.map Point.code < a.1.map Point.code)

def Layout.order (l : Layout) (es : List (List Point × String)) : List (List Point × String) :=
  if l.sorted then es.mergeSort keyLe else es

mutual

def Layout.write? (l : Layout) (depth : Nat) : Value → Option String
  | .null => some "null"
  | .bool true => some "true"
  | .bool false => some "false"
  | .int n => if canBeWritten n then some (toString n) else none
  | .float x => some (numberText x)
  | .text s => some (escaped (pointsOf s))
  | .torn ps => some (escaped ps)
  | .list vs => (l.writeItems? (depth + 1) vs).map (l.group depth "[" "]")
  | .pair a b =>
    match l.write? (depth + 1) a, l.write? (depth + 1) b with
    | some s, some t => some (l.group depth "[" "]" [s, t])
    | _, _ => none
  | .map es =>
    (l.writeEntries? (depth + 1) es).map fun es =>
      l.group depth "\x7b" "\x7d" ((l.order es).map fun e => escaped e.1 ++ ": " ++ e.2)
  | _ => none

def Layout.writeItems? (l : Layout) (depth : Nat) : List Value → Option (List String)
  | [] => some []
  | v :: vs =>
    match l.write? depth v, l.writeItems? depth vs with
    | some s, some ss => some (s :: ss)
    | _, _ => none

def Layout.writeEntries? (l : Layout) (depth : Nat) :
    List (Value × Value) → Option (List (List Point × String))
  | [] => some []
  | (k, v) :: es =>
    match keyText? k, l.write? depth v, l.writeEntries? depth es with
    | some k, some s, some ss => some ((k, s) :: ss)
    | _, _, _ => none

end

inductive Obstacle where
  /-- JSON does not know values of the kind. -/
  | foreign (message : String)
  /-- A whole number has too many digits. -/
  | longNumber
  /-- A list or map is a part of itself. -/
  | circular
  | tooDeep
  deriving DecidableEq, Repr

def Obstacle.message : Obstacle → String
  | foreign m => m
  | longNumber =>
    s!"Exceeds the limit ({digitLimit} digits) for integer string conversion; "
      ++ "use sys.set_int_max_str_digits() to increase the limit"
  | circular => "Circular reference detected"
  | tooDeep => "maximum recursion depth exceeded while encoding a JSON object"

def foreignName : Value → String
  | .bytes _ => "bytes"
  | .stamp t => if t.time.isSome then "datetime" else "date"
  | .pair _ _ => "tuple"
  | .set _ => "set"
  | _ => "object"

def keyObstacle : Value → Obstacle
  | .int _ => .longNumber
  | v => .foreign ("keys must be str, int, float, bool or None, not " ++ foreignName v)

def foreign (v : Value) : Obstacle :=
  .foreign ("Object of type " ++ foreignName v ++ " is not JSON serializable")

mutual

/-- Why a value cannot be written by a writer that goes no deeper than `room`, told of the first
part that cannot be. -/
def obstacle? (room : Nat) : Value → Option Obstacle
  | .int n => if canBeWritten n then none else some .longNumber
  | .stamp t => some (foreign (.stamp t))
  | .bytes bs => some (foreign (.bytes bs))
  | .set vs => some (foreign (.set vs))
  | .list vs => if room = 0 then some .tooDeep else obstacleInItems? (room - 1) vs
  | .pair a b =>
    if room = 0 then some .tooDeep else (obstacle? (room - 1) a).or (obstacle? (room - 1) b)
  | .map es => if room = 0 then some .tooDeep else obstacleInEntries? (room - 1) es
  | .again => some (if room = 0 then .tooDeep else .circular)
  | _ => none

def obstacleInItems? (room : Nat) : List Value → Option Obstacle
  | [] => none
  | v :: vs => (obstacle? room v).or (obstacleInItems? room vs)

def obstacleInEntries? (room : Nat) : List (Value × Value) → Option Obstacle
  | [] => none
  | (k, v) :: es =>
    match keyText? k with
    | none => some (keyObstacle k)
    | some _ => (obstacle? room v).or (obstacleInEntries? room es)

end

def compact : Layout := {}

def compactSorted : Layout := { sorted := true }

def pretty : Layout := { sorted := true, onLines := true }

/-- The text of a value in a layout; empty if it has none. -/
def Layout.write (l : Layout) (v : Value) : String := (l.write? 0 v).getD ""

end MdxLint.Json
