import MdxLint.Data.Integer
import MdxLint.Script.Place
import MdxLint.Text.Digit

/-! # Reading JSON

A reader that also takes `NaN` and the infinities, and lets the last entry under a key win. A whole
number that is longer than the limit is a fault, and so are brackets that stand deeper than the
reader has room for, though the text may well be JSON. Each part of the reader hands back the
characters it left together with the fact that they are fewer, and a fault is told by the number of
characters that were left when it was met.
-/

namespace MdxLint.Json

/-- What is wrong with a text. -/
inductive FaultKind where
  | expectedValue
  | expectedName
  | expectedColon
  | expectedComma
  | extraData
  | unterminatedString
  | controlCharacter
  | invalidEscape
  | invalidUnicodeEscape
  | byteOrderMark
  | longNumber (digits : Nat)
  | tooDeep
  deriving DecidableEq, Repr

def FaultKind.describe : FaultKind → String
  | expectedValue => "Expecting value"
  | expectedName => "Expecting property name enclosed in double quotes"
  | expectedColon => "Expecting ':' delimiter"
  | expectedComma => "Expecting ',' delimiter"
  | extraData => "Extra data"
  | unterminatedString => "Unterminated string starting at"
  | controlCharacter => "Invalid control character at"
  | invalidEscape => "Invalid \\escape"
  | invalidUnicodeEscape => "Invalid \\uXXXX escape"
  | byteOrderMark => "Unexpected UTF-8 BOM (decode using utf-8-sig)"
  | longNumber n => digitLimitText n
  | tooDeep => "maximum recursion depth exceeded"

/-- A fault, and the number of characters from it to the end. -/
structure Fault where
  kind : FaultKind
  remaining : Nat
  deriving DecidableEq, Repr

def Fault.message (f : Fault) (input : List Char) : String :=
  let p := Place.origin.after (input.take (input.length - f.remaining))
  s!"{f.kind.describe}: line {p.line} column {p.column} (char {p.offset})"

abbrev Rest (cs : List Char) := { r : List Char // r.length < cs.length }

def Rest.ofTail {c : Char} {cs : List Char} (r : Rest cs) : Rest (c :: cs) :=
  ⟨r.1, Nat.lt_succ_of_lt r.2⟩

def Rest.ofDrop {n : Nat} {cs : List Char} (r : Rest (cs.drop n)) : Rest cs :=
  ⟨r.1, Nat.lt_of_lt_of_le r.2 (List.drop_sublist n cs).length_le⟩

def isSpace (c : Char) : Bool := c = ' ' || c = '\t' || c = '\n' || c = '\r'

def skip (cs : List Char) : List Char := cs.dropWhile isSpace

theorem length_skip_le (cs : List Char) : (skip cs).length ≤ cs.length :=
  (List.dropWhile_sublist _).length_le

def simpleEscape? : Char → Option Char
  | '"' => some '"'
  | '\\' => some '\\'
  | '/' => some '/'
  | 'b' => some '\x08'
  | 'f' => some '\x0c'
  | 'n' => some '\n'
  | 'r' => some '\r'
  | 't' => some '\t'
  | _ => none

def fourHex? (cs : List Char) : Option Nat :=
  match cs with
  | a :: b :: c :: d :: _ :: _ =>
    if isHex a && isHex b && isHex c && isHex d then some (hexNumber [a, b, c, d]) else none
  | _ => none

def joinPair (high low : Nat) : Char :=
  Char.ofNat (0x10000 + (high - 0xD800) * 0x400 + (low - 0xDC00))

/-- After the opening quote: what the text up to the closing one stands for. The quote itself had
`start` characters from it to the end of the text. -/
def string (start : Nat) (cs : List Char) : Except Fault (List Point × Rest cs) :=
  match cs with
  | [] => .error ⟨.unterminatedString, start⟩
  | c :: tail =>
    if c = '"' then .ok ([], ⟨tail, Nat.lt_succ_self _⟩)
    else if c = '\\' then
      match tail with
      | [] => .error ⟨.unterminatedString, start⟩
      | e :: rest =>
        if e = 'u' then
          match fourHex? rest with
          | none => .error ⟨.invalidUnicodeEscape, rest.length + 1⟩
          | some n =>
            let after := rest.drop 4
            if 0xD800 ≤ n && n < 0xDC00 && 7 ≤ after.length && after.take 2 = ['\\', 'u'] then
              match fourHex? (after.drop 2) with
              | none => .error ⟨.invalidUnicodeEscape, after.length - 1⟩
              | some m =>
                if 0xDC00 ≤ m && m < 0xE000 then
                  match string start (after.drop 6) with
                  | .error f => .error f
                  | .ok (s, r) => .ok (.char (joinPair n m) :: s, r.ofDrop.ofDrop.ofTail.ofTail)
                else
                  match string start after with
                  | .error f => .error f
                  | .ok (s, r) => .ok (.ofUnit n :: s, r.ofDrop.ofTail.ofTail)
            else
              match string start after with
              | .error f => .error f
              | .ok (s, r) => .ok (.ofUnit n :: s, r.ofDrop.ofTail.ofTail)
        else
          match simpleEscape? e with
          | none => .error ⟨.invalidEscape, rest.length + 2⟩
          | some d =>
            match string start rest with
            | .error f => .error f
            | .ok (s, r) => .ok (.char d :: s, r.ofTail.ofTail)
    else if c.toNat < 0x20 then .error ⟨.controlCharacter, tail.length + 1⟩
    else
      match string start tail with
      | .error f => .error f
      | .ok (s, r) => .ok (.char c :: s, r.ofTail)
  termination_by cs.length
  decreasing_by all_goals simp only [List.length_drop, List.length_cons]; omega

def literals : List (List Char × Value) :=
  [("null".toList, .null), ("true".toList, .bool true), ("false".toList, .bool false),
   ("NaN".toList, .float (0.0 / 0.0)), ("Infinity".toList, .float (1.0 / 0.0)),
   ("-Infinity".toList, .float (-1.0 / 0.0))]

/-- A number at the front of a text and the number of its characters. A point or an exponent that
no digit follows does not belong to it. -/
def number? (cs : List Char) : Option (Value × Nat) :=
  let sign := if cs.head? = some '-' then 1 else 0
  let digits (cs : List Char) : List Char := cs.takeWhile Char.isDigit
  let whole := match cs.drop sign with
    | '0' :: _ => ['0']
    | cs => digits cs
  if whole.isEmpty then none
  else
    let afterWhole := cs.drop (sign + whole.length)
    let fraction := match afterWhole with
      | '.' :: rest => digits rest
      | _ => []
    let n := sign + whole.length + if fraction.isEmpty then 0 else fraction.length + 1
    let (power, extra) : Option Int × Nat := match cs.drop n with
      | e :: rest =>
        if e = 'e' || e = 'E' then
          let (negative, rest, width) := match rest with
            | '-' :: r => (true, r, 1)
            | '+' :: r => (false, r, 1)
            | r => (false, r, 0)
          let ds := digits rest
          if ds.isEmpty then (none, 0)
          else
            let e : Int := digitsNumber 10 ds
            (some (if negative then -e else e), 1 + width + ds.length)
        else (none, 0)
      | [] => (none, 0)
    if fraction.isEmpty && power.isNone then
      let m : Int := digitsNumber 10 whole
      some (.int (if sign = 1 then -m else m), n)
    else
      let d : Decimal := ⟨digitsNumber 10 (whole ++ fraction), power.getD 0 - fraction.length⟩
      let x := d.toFloat
      some (.float (if sign = 1 then -x else x), n + extra)

def scalar? (cs : List Char) : Option (Value × Nat) :=
  match literals.find? fun l => l.1.isPrefixOf cs with
  | some (w, v) => some (v, w.length)
  | none => number? cs

/-- The digits of a whole number that takes `n` characters; other values count as having none. -/
def wholeDigits (v : Value) (n : Nat) : Nat :=
  match v with
  | .int m => if m < 0 then n - 1 else n
  | _ => 0

mutual

/-- A value at the front of a text, whose brackets stand in each other no deeper than `room`. -/
def value (room : Nat) (cs : List Char) : Except Fault (Value × Rest cs) :=
  match cs with
  | [] => .error ⟨.expectedValue, 0⟩
  | c :: tail =>
    have hs := length_skip_le tail
    if c = '"' then
      match string (tail.length + 1) tail with
      | .error f => .error f
      | .ok (s, r) => .ok (.ofPoints s, r.ofTail)
    else if c = '\x7b' then
      if room = 0 then .error ⟨.tooDeep, tail.length + 1⟩
      else if (skip tail).head? = some '\x7d' then
        .ok (.map [], ⟨(skip tail).drop 1, by simp; omega⟩)
      else
        match entries (room - 1) (skip tail) with
        | .error f => .error f
        | .ok (es, r) => .ok (.map (Value.entriesOf es), ⟨r.1, by have := r.2; simp; omega⟩)
    else if c = '[' then
      if room = 0 then .error ⟨.tooDeep, tail.length + 1⟩
      else if (skip tail).head? = some ']' then
        .ok (.list [], ⟨(skip tail).drop 1, by simp; omega⟩)
      else
        match items (room - 1) (skip tail) with
        | .error f => .error f
        | .ok (vs, r) => .ok (.list vs, ⟨r.1, by have := r.2; simp; omega⟩)
    else
      match scalar? (c :: tail) with
      | none => .error ⟨.expectedValue, tail.length + 1⟩
      | some (v, n) =>
        if digitLimit < wholeDigits v n then
          .error ⟨.longNumber (wholeDigits v n), tail.length + 1⟩
        else .ok (v, ⟨tail.drop (n - 1), by simp only [List.length_drop, List.length_cons]; omega⟩)
  termination_by 2 * cs.length
  decreasing_by all_goals simp; omega

/-- The entries of an object from the name of the first one on, and the brace behind them. -/
def entries (room : Nat) (cs : List Char) : Except Fault (List (Value × Value) × Rest cs) :=
  match cs with
  | [] => .error ⟨.expectedName, 0⟩
  | c :: tail =>
    if c = '"' then
      match string (tail.length + 1) tail with
      | .error f => .error f
      | .ok (k, r) =>
        match hr : skip r.1 with
        | [] => .error ⟨.expectedColon, 0⟩
        | d :: afterName =>
          have h₁ : afterName.length < tail.length := by
            have := length_skip_le r.1
            have := r.2
            rw [hr, List.length_cons] at *
            omega
          if d = ':' then
            have h₂ := length_skip_le afterName
            match value room (skip afterName) with
            | .error f => .error f
            | .ok (v, r') =>
              have h₃ := r'.2
              match hr' : skip r'.1 with
              | [] => .error ⟨.expectedComma, 0⟩
              | e :: behind =>
                have h₄ : behind.length < tail.length := by
                  have := length_skip_le r'.1
                  rw [hr', List.length_cons] at *
                  omega
                if e = '\x7d' then
                  .ok ([(.ofPoints k, v)], ⟨behind, by simp; omega⟩)
                else if e = ',' then
                  have h₅ := length_skip_le behind
                  match entries room (skip behind) with
                  | .error f => .error f
                  | .ok (es, r'') =>
                    .ok ((.ofPoints k, v) :: es,
                      ⟨r''.1, by have := r''.2; simp; omega⟩)
                else .error ⟨.expectedComma, behind.length + 1⟩
          else .error ⟨.expectedColon, afterName.length + 1⟩
    else .error ⟨.expectedName, tail.length + 1⟩
  termination_by 2 * cs.length
  decreasing_by all_goals simp; omega

def items (room : Nat) (cs : List Char) : Except Fault (List Value × Rest cs) :=
  match value room cs with
  | .error f => .error f
  | .ok (v, r) =>
    have h₁ := r.2
    match hr : skip r.1 with
    | [] => .error ⟨.expectedComma, 0⟩
    | c :: behind =>
      have h₂ : behind.length < cs.length := by
        have := length_skip_le r.1
        rw [hr, List.length_cons] at *
        omega
      if c = ']' then .ok ([v], ⟨behind, h₂⟩)
      else if c = ',' then
        have h₃ := length_skip_le behind
        match items room (skip behind) with
        | .error f => .error f
        | .ok (vs, r') => .ok (v :: vs, ⟨r'.1, by have := r'.2; omega⟩)
      else .error ⟨.expectedComma, behind.length + 1⟩
  termination_by 2 * cs.length + 1
  decreasing_by all_goals omega

end

/-- The value that a whole text is, by a reader that has so much room. -/
def readWithin (room : Nat) (input : List Char) : Except Fault Value :=
  if input.head? = some '\ufeff' then .error ⟨.byteOrderMark, input.length⟩
  else
    match value room (skip input) with
    | .error f => .error f
    | .ok (v, r) =>
      match skip r.1 with
      | [] => .ok v
      | rest => .error ⟨.extraData, rest.length⟩

def read (input : List Char) : Except Fault Value := readWithin input.length input

end MdxLint.Json
