import MdxLint.Data.Decimal
import MdxLint.Text.Utf16

/-! # Values

Values as data files hold them, and as messages show them. Maps keep the order in which their
keys were first written; a later entry under the same key replaces the value in place. A list or map
that is a part of itself is written out further than anybody looks into it, and ends in `again`.
-/

namespace MdxLint

structure Timestamp where
  year : Nat
  month : Nat
  day : Nat
  /-- Hour, minute, second and microsecond. -/
  time : Option (Nat × Nat × Nat × Nat) := none
  /-- The distance to the universal time in minutes, if it is known. -/
  zone : Option Int := none
  deriving DecidableEq, Repr

/-- A value of a data file. -/
inductive Value where
  | null
  | bool (b : Bool)
  | int (n : Int)
  | float (x : Float)
  | text (s : String)
  /-- A text in which some half of a character stands alone. -/
  | torn (ps : List Point)
  | stamp (t : Timestamp)
  | bytes (bs : List UInt8)
  | list (xs : List Value)
  | pair (a b : Value)
  | set (xs : List Value)
  | map (entries : List (Value × Value))
  /-- The list or map, once more, that the value is a part of. -/
  | again
  deriving Repr, Inhabited

def Timestamp.display (t : Timestamp) : String :=
  let zone := match t.zone with
    | none => ""
    | some 0 => ", tzinfo=datetime.timezone.utc"
    | some m =>
      let days := if m < 0 then "days=-1, " else ""
      let seconds := (if m < 0 then m + 1440 else m) * 60
      ", tzinfo=datetime.timezone(datetime.timedelta(" ++ days ++ s!"seconds={seconds}))"
  match t.time with
  | none => s!"datetime.date({t.year}, {t.month}, {t.day})"
  | some (h, m, s, us) =>
    let fields := if us ≠ 0 then [h, m, s, us] else if s ≠ 0 then [h, m, s] else [h, m]
    let fields := [t.year, t.month, t.day] ++ fields
    "datetime.datetime(" ++ ", ".intercalate (fields.map toString) ++ zone ++ ")"

namespace Value

def displayByte (quote : Char) (b : UInt8) : List Char :=
  let c := Char.ofNat b.toNat
  if c = quote || c = '\\' then ['\\', c]
  else if c = '\n' then ['\\', 'n']
  else if c = '\r' then ['\\', 'r']
  else if c = '\t' then ['\\', 't']
  else if 32 ≤ b.toNat && b.toNat < 127 then [c]
  else '\\' :: 'x' :: hexDigits 2 b.toNat

def displayBytes (bs : List UInt8) : String :=
  let quote := quoteMark (bs.map fun b => Char.ofNat b.toNat)
  String.ofList ('b' :: quote :: bs.flatMap (displayByte quote) ++ [quote])

mutual

def display : Value → String
  | null => "None"
  | bool true => "True"
  | bool false => "False"
  | int n => toString n
  | float x => floatText x
  | text s => quoted s
  | torn ps => quotedPoints ps
  | stamp t => t.display
  | bytes bs => displayBytes bs
  | list xs => "[" ++ ", ".intercalate (displayAll xs) ++ "]"
  | pair a b => "(" ++ a.display ++ ", " ++ b.display ++ ")"
  | set [] => "set()"
  | set xs => "\x7b" ++ ", ".intercalate (displayAll xs) ++ "\x7d"
  | map es => "\x7b" ++ ", ".intercalate (displayEntries es) ++ "\x7d"
  | again => "..."

def displayAll : List Value → List String
  | [] => []
  | x :: xs => x.display :: displayAll xs

def displayEntries : List (Value × Value) → List String
  | [] => []
  | (k, v) :: es => (k.display ++ ": " ++ v.display) :: displayEntries es

end

/-- A value in running text: a text stands as it is. -/
def plain : Value → String
  | text s => s
  | torn ps => shownText ps
  | v => v.display

/-- A value in running text, as the error stream writes it. -/
def printed : Value → String
  | torn ps => printedText ps
  | v => v.plain

def asPoints : Value → List Point
  | torn ps => ps
  | v => pointsOf v.plain

def asText : Value → Value
  | torn ps => torn ps
  | v => text v.plain

def ofPoints (ps : List Point) : Value :=
  match wholeText? ps with
  | some s => text s
  | none => torn ps

def points? : Value → Option (List Point)
  | text s => some (pointsOf s)
  | torn ps => some ps
  | _ => none

/-- The number that a key counts as; truth values count as one and zero. -/
def numeric? : Value → Option (Int ⊕ Float)
  | bool b => some (.inl (if b then 1 else 0))
  | int n => some (.inl n)
  | float x => some (.inr x)
  | _ => none

def sameNumber (n : Int) (x : Float) : Bool :=
  match floatTruncate? x with
  | some m => m = n && x == Float.ofInt n
  | none => false

def sameKey (a b : Value) : Bool :=
  match a.numeric?, b.numeric? with
  | some (.inl m), some (.inl n) => m = n
  | some (.inl m), some (.inr y) => sameNumber m y
  | some (.inr x), some (.inl n) => sameNumber n x
  | some (.inr x), some (.inr y) => x == y
  | _, _ =>
    match a, b with
    | null, null => true
    | text s, text t => s = t
    | torn ps, torn qs => ps = qs
    | stamp s, stamp t => s = t
    | bytes s, bytes t => s = t
    | pair a b, pair c d => a.sameKey c && b.sameKey d
    | _, _ => false

/-- The entries with one more: a key that is there keeps its place and takes the new value. -/
def insertEntry (es : List (Value × Value)) (k v : Value) : List (Value × Value) :=
  match es with
  | [] => [(k, v)]
  | e :: rest => if e.1.sameKey k then (e.1, v) :: rest else e :: insertEntry rest k v

def entriesOf (es : List (Value × Value)) : List (Value × Value) :=
  es.foldl (fun m e => insertEntry m e.1 e.2) []

/-- The value under a text key of a map. -/
def get? (v : Value) (key : String) : Option Value :=
  match v with
  | map es => (es.find? fun e => e.1.sameKey (text key)).map (·.2)
  | _ => none

/-- The value counts as true: it is no zero, no null and not empty. -/
def truthy : Value → Bool
  | null => false
  | bool b => b
  | int n => n ≠ 0
  | float x => !(x == 0.0)
  | text s => s ≠ ""
  | torn ps => !ps.isEmpty
  | stamp _ => true
  | bytes bs => !bs.isEmpty
  | list xs => !xs.isEmpty
  | pair _ _ => true
  | set xs => !xs.isEmpty
  | map es => !es.isEmpty
  | again => true

mutual

/-- How many lists and maps of the value stand in each other. -/
def depth : Value → Nat
  | list xs => depthOfAll xs + 1
  | pair a b => max a.depth b.depth + 1
  | set xs => depthOfAll xs + 1
  | map es => depthOfEntries es + 1
  | again => 1
  | _ => 0

def depthOfAll : List Value → Nat
  | [] => 0
  | x :: xs => max x.depth (depthOfAll xs)

def depthOfEntries : List (Value × Value) → Nat
  | [] => 0
  | (_, v) :: es => max v.depth (depthOfEntries es)

end

/-- A map with text keys. -/
def object (fields : List (String × Value)) : Value := map (fields.map fun f => (text f.1, f.2))

/-- The value, but an empty map in the place of null. -/
def orEmpty : Value → Value
  | null => map []
  | v => v

def texts (ss : List String) : Value := list (ss.map text)

/-- A natural number. -/
def nat (n : Nat) : Value := int n

def ofOption (v : Option Value) : Value := v.getD null

end Value

end MdxLint
