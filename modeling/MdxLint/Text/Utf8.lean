import MdxLint.Text.Digit

/-! # UTF-8

A text is read from bytes one part at a time. After its first byte a character is owed a number of
further bytes, and the first of these may be bounded more narrowly than the others. A part that
forms no character is as long as it could still have become one.
-/

namespace MdxLint.Utf8

inductive Reason where
  | invalidStart
  | invalidContinuation
  | unexpectedEnd
  deriving DecidableEq, Repr

def Reason.describe : Reason → String
  | invalidStart => "invalid start byte"
  | invalidContinuation => "invalid continuation byte"
  | unexpectedEnd => "unexpected end of data"

/-- A part of a byte sequence; `extra` counts its bytes behind the first one. -/
inductive Part where
  | char (c : Char) (extra : Nat)
  | illFormed (reason : Reason) (extra : Nat)
  deriving DecidableEq, Repr

/-- What a first byte asks for: the number of bytes owed, the bounds of the first of them, and the
bits it brings itself. -/
structure Lead where
  owed : Nat
  least : Nat
  greatest : Nat
  bits : Nat
  deriving DecidableEq, Repr

def lead? (b : Nat) : Option Lead :=
  if b < 0x80 then some ⟨0, 0, 0, b⟩
  else if b < 0xC2 then none
  else if b < 0xE0 then some ⟨1, 0x80, 0xBF, b - 0xC0⟩
  else if b = 0xE0 then some ⟨2, 0xA0, 0xBF, 0⟩
  else if b = 0xED then some ⟨2, 0x80, 0x9F, 0xD⟩
  else if b < 0xF0 then some ⟨2, 0x80, 0xBF, b - 0xE0⟩
  else if b = 0xF0 then some ⟨3, 0x90, 0xBF, 0⟩
  else if b < 0xF4 then some ⟨3, 0x80, 0xBF, b - 0xF0⟩
  else if b = 0xF4 then some ⟨3, 0x80, 0x8F, 4⟩
  else none

/-- The part whose bytes so far make up `bits`, of which `taken` came behind the first one. -/
def follow (owed least greatest bits taken : Nat) (bytes : List UInt8) : Part :=
  match owed with
  | 0 => .char (Char.ofNat bits) taken
  | owed + 1 =>
    match bytes with
    | [] => .illFormed .unexpectedEnd taken
    | b :: rest =>
      let b := b.toNat
      if least ≤ b && b ≤ greatest then
        follow owed 0x80 0xBF (bits * 64 + (b - 0x80)) (taken + 1) rest
      else .illFormed .invalidContinuation taken

def part (b : UInt8) (rest : List UInt8) : Part :=
  match lead? b.toNat with
  | none => .illFormed .invalidStart 0
  | some l => follow l.owed l.least l.greatest l.bits 0 rest

/-- Bytes that form no character: the first of them, where they are and how many. -/
structure Fault where
  byte : UInt8
  start : Nat
  width : Nat
  reason : Reason
  deriving DecidableEq, Repr

def Fault.message (f : Fault) : String :=
  let place :=
    if f.width = 1 then
      s!"byte 0x{String.ofList (hexDigits 2 f.byte.toNat)} in position {f.start}"
    else s!"bytes in position {f.start}-{f.start + f.width - 1}"
  "'utf-8' codec can't decode " ++ place ++ ": " ++ f.reason.describe

/-- The text that the bytes encode; `start` bytes were before them. -/
def decodeFrom (start : Nat) : List UInt8 → Except Fault (List Char)
  | [] => .ok []
  | b :: rest =>
    match part b rest with
    | .char c extra => (decodeFrom (start + 1 + extra) (rest.drop extra)).map (c :: ·)
    | .illFormed reason extra => .error ⟨b, start, extra + 1, reason⟩
  termination_by bs => bs.length
  decreasing_by simp only [List.length_drop, List.length_cons]; omega

/-- The text that the bytes encode, or the first part that encodes nothing. -/
def decode (bytes : List UInt8) : Except Fault (List Char) := decodeFrom 0 bytes

/-- The text that the bytes encode, with a replacement for each part that encodes nothing. -/
def decodeLossy : List UInt8 → List Char
  | [] => []
  | b :: rest =>
    match part b rest with
    | .char c extra => c :: decodeLossy (rest.drop extra)
    | .illFormed _ extra => '\ufffd' :: decodeLossy (rest.drop extra)
  termination_by bs => bs.length
  decreasing_by all_goals simp only [List.length_drop, List.length_cons]; omega

def encode (s : String) : List UInt8 := s.toUTF8.toList

end MdxLint.Utf8
