import MdxLint.Data.Value
import MdxLint.Yaml.Kind

/-! # Time stamps

A time stamp is a day, or a day and a time of day with an optional fraction and an optional distance
to the universal time. Its numbers have to name a day and a time that exist.
-/

namespace MdxLint.Yaml

structure WrittenZone where
  isWest : Bool
  hours : Nat
  minutes : Nat
  deriving DecidableEq, Repr

structure WrittenTime where
  hour : Nat
  minute : Nat
  second : Nat
  fraction : List Char
  zone : Option WrittenZone
  deriving DecidableEq, Repr

structure WrittenStamp where
  year : Nat
  month : Nat
  day : Nat
  /-- Month and day have two digits each. -/
  isPadded : Bool
  time : Option WrittenTime
  deriving DecidableEq, Repr

/-- A number of `least` to `most` digits, the number of its digits, and what is left. -/
def numeral? (least most : Nat) (cs : List Char) : Option (Nat × Nat × List Char) :=
  let ds := (cs.take most).takeWhile Char.isDigit
  if least ≤ ds.length then some (digitsNumber 10 ds, ds.length, cs.drop ds.length) else none

def behind? (c : Char) (cs : List Char) : Option (List Char) :=
  if cs.head? = some c then some (cs.drop 1) else none

def zone? (cs : List Char) : Option (Option WrittenZone) :=
  match cs.dropWhile fun c => c = ' ' || c = '\t' with
  | [] => if cs.isEmpty then some none else none
  | ['Z'] => some (some ⟨false, 0, 0⟩)
  | s :: rest => do
    if s ≠ '+' && s ≠ '-' then none
    let (hours, _, rest) ← numeral? 1 2 rest
    if rest.isEmpty then return some ⟨s = '-', hours, 0⟩
    let rest ← behind? ':' rest
    let (minutes, _, rest) ← numeral? 2 2 rest
    if rest.isEmpty then return some ⟨s = '-', hours, minutes⟩ else none

def time? (cs : List Char) : Option WrittenTime := do
  let rest ← match cs with
    | 'T' :: rest => some rest
    | 't' :: rest => some rest
    | cs =>
      let rest := cs.dropWhile fun c => c = ' ' || c = '\t'
      if rest.length < cs.length then some rest else none
  let (hour, _, rest) ← numeral? 1 2 rest
  let rest ← behind? ':' rest
  let (minute, _, rest) ← numeral? 2 2 rest
  let rest ← behind? ':' rest
  let (second, _, rest) ← numeral? 2 2 rest
  let pointed := rest.head? = some '.'
  let fraction := if pointed then (rest.drop 1).takeWhile Char.isDigit else []
  let rest := if pointed then rest.drop (fraction.length + 1) else rest
  let zone ← zone? rest
  return ⟨hour, minute, second, fraction, zone⟩

def writtenStamp? (cs : List Char) : Option WrittenStamp := do
  let (year, _, rest) ← numeral? 4 4 cs
  let rest ← behind? '-' rest
  let (month, m, rest) ← numeral? 1 2 rest
  let rest ← behind? '-' rest
  let (day, d, rest) ← numeral? 1 2 rest
  let isPadded := m = 2 && d = 2
  if rest.isEmpty then return ⟨year, month, day, isPadded, none⟩
  let time ← time? rest
  return ⟨year, month, day, isPadded, some time⟩

/-- The form of a time stamp. A day alone has two digits for month and day. -/
def isStamp (cs : List Char) : Bool :=
  (writtenStamp? cs).any fun s => s.isPadded || s.time.isSome

def Kind.ofPlain (cs : List Char) : Kind :=
  let word := String.ofList cs
  if word ∈ boolWords then .bool
  else if isFractional cs then .float
  else if isWhole cs then .int
  else if word = "<<" then .merge
  else if word ∈ nullWords then .null
  else if isStamp cs then .stamp
  else if word = "=" then .standIn
  else if word ∈ ["!", "&", "*"] then .unknown
  else .text

def daysOfMonth (year month : Nat) : Nat :=
  let isLeap := year % 4 = 0 && (year % 100 ≠ 0 || year % 400 = 0)
  if month = 2 then if isLeap then 29 else 28
  else if month ∈ [4, 6, 9, 11] then 30
  else 31

/-- The minutes between a zone and the universal time. They are less than those of a day. -/
def WrittenZone.minutesEast (z : WrittenZone) : Except Fault Int :=
  let n : Int := 60 * z.hours + z.minutes
  let n := if z.isWest then -n else n
  if n.natAbs < 24 * 60 then .ok n
  else
    let days := Int.fdiv n 1440
    let seconds := Int.fmod n 1440 * 60
    let parts := (if days = 0 then [] else [s!"days={days}"])
      ++ if seconds = 0 then [] else [s!"seconds={seconds}"]
    .error (.wrongValue ("offset must be a timedelta strictly between -timedelta(hours=24) and "
      ++ "timedelta(hours=24), not datetime.timedelta(" ++ ", ".intercalate parts ++ ")."))

def microseconds (fraction : List Char) : Nat :=
  let ds := fraction.take 6
  digitsNumber 10 (ds ++ List.replicate (6 - ds.length) '0')

def WrittenStamp.stamp (s : WrittenStamp) : Except Fault Timestamp := do
  let zone ← match s.time.bind (·.zone) with
    | none => pure none
    | some z => z.minutesEast.map some
  if s.year = 0 then throw (.wrongValue "year 0 is out of range")
  if s.month = 0 || 12 < s.month then throw (.wrongValue "month must be in 1..12")
  if s.day = 0 || daysOfMonth s.year s.month < s.day then
    throw (.wrongValue "day is out of range for month")
  match s.time with
  | none => return { year := s.year, month := s.month, day := s.day }
  | some t =>
    if 23 < t.hour then throw (.wrongValue "hour must be in 0..23")
    if 59 < t.minute then throw (.wrongValue "minute must be in 0..59")
    if 59 < t.second then throw (.wrongValue "second must be in 0..59")
    return {
      year := s.year
      month := s.month
      day := s.day
      time := some (t.hour, t.minute, t.second, microseconds t.fraction)
      zone }

end MdxLint.Yaml
