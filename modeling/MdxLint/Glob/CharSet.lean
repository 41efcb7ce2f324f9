import MdxLint.Glob.CharName
import MdxLint.Text.Blank
import MdxLint.Text.Digit
import MdxLint.Text.Word
import MdxLint.Text.Quoted

/-! # Sets of characters in brackets

The body of a set holds characters, ranges and escapes; a `]` right at the start is a character.
A fault is told by the number of characters from its culprit to the end of the expression.
-/

namespace MdxLint.Glob

inductive CharClass where
  | digit
  | blank
  | word
  deriving DecidableEq, Repr

def CharClass.contains : CharClass → Char → Bool
  | digit, c => isDecimal c
  | blank, c => isBlank c
  | word, c => isWord c

/-- A member of a set: the code points of a range, or the characters in or outside a class. -/
inductive Member where
  | range (lo hi : Nat)
  | inside (k : CharClass)
  | outside (k : CharClass)
  deriving DecidableEq, Repr

def Member.contains : Member → Char → Bool
  | range lo hi, c => lo ≤ c.toNat && c.toNat ≤ hi
  | inside k, c => k.contains c
  | outside k, c => !k.contains c

/-- A set of characters, or what is left when one is taken away. -/
structure CharSet where
  negated : Bool
  members : List Member
  deriving DecidableEq, Repr

/-- The character belongs to the set. -/
def CharSet.contains (s : CharSet) (c : Char) : Bool :=
  s.members.any (·.contains c) != s.negated

def CharSet.one (c : Char) : CharSet := ⟨false, [.range c.toNat c.toNat]⟩

def CharSet.except (c : Char) : CharSet := ⟨true, [.range c.toNat c.toNat]⟩

inductive SetFaultKind where
  | badRange (lo hi : String)
  | badEscape (escape : String)
  | incompleteEscape (escape : String)
  | octalTooLarge (escape : String)
  | missingBrace
  | missingName
  | unterminatedName
  | unknownName (name : String)
  | unterminatedSet
  deriving DecidableEq, Repr

def SetFaultKind.describe : SetFaultKind → String
  | badRange lo hi => "bad character range " ++ lo ++ "-" ++ hi
  | badEscape e => "bad escape " ++ e
  | incompleteEscape e => "incomplete escape " ++ e
  | octalTooLarge e => "octal escape value " ++ e ++ " outside of range 0-0o377"
  | missingBrace => "missing \x7b"
  | missingName => "missing character name"
  | unterminatedName => "missing \x7d, unterminated name"
  | unknownName n => "undefined character name " ++ quoted n
  | unterminatedSet => "unterminated character set"

structure SetFault where
  kind : SetFaultKind
  remaining : Nat
  deriving DecidableEq, Repr

/-- One token of a set: what its text begins with, the code point or the class it stands for, and
the number of characters it has behind its first. -/
structure SetToken where
  text : String
  meaning : Nat ⊕ Member
  extra : Nat
  deriving DecidableEq, Repr

def controlEscape? : Char → Option Nat
  | 'a' => some 7
  | 'b' => some 8
  | 'f' => some 12
  | 'n' => some 10
  | 'r' => some 13
  | 't' => some 9
  | 'v' => some 11
  | '\\' => some 92
  | _ => none

def classEscape? : Char → Option Member
  | 'd' => some (.inside .digit)
  | 'D' => some (.outside .digit)
  | 's' => some (.inside .blank)
  | 'S' => some (.outside .blank)
  | 'w' => some (.inside .word)
  | 'W' => some (.outside .word)
  | _ => none

/-- The number of hexadecimal digits that a letter asks for behind a backslash. -/
def hexEscape? : Char → Option Nat
  | 'x' => some 2
  | 'u' => some 4
  | 'U' => some 8
  | _ => none

def isAsciiLetter (c : Char) : Bool := ('a' ≤ c && c ≤ 'z') || ('A' ≤ c && c ≤ 'Z')

/-- The length of a name up to its closing brace, which a backslash before it hides. -/
def nameLength? : List Char → Option Nat
  | [] => none
  | '\\' :: _ :: cs => (nameLength? cs).map (· + 2)
  | c :: cs => if c = '\x7d' then some 0 else (nameLength? cs).map (· + 1)

variable [CharNames]

/-- An escape that names a character, behind the letter that announces the name. -/
def namedToken (behind : List Char) : Except SetFault SetToken :=
  match behind with
  | '\x7b' :: cs =>
    match nameLength? cs with
    | none => .error (if cs.isEmpty then ⟨.missingName, 0⟩ else ⟨.unterminatedName, cs.length⟩)
    | some 0 => .error ⟨.missingName, cs.length⟩
    | some n =>
      let name := String.ofList (cs.take n)
      match CharNames.named? name with
      | some c => .ok ⟨"\\N", .inl c, n + 3⟩
      | none => .error ⟨.unknownName name, cs.length + 3⟩
  | _ => .error ⟨.missingBrace, behind.length⟩

def escapeToken (c : Char) (behind : List Char) : Except SetFault SetToken :=
  let text := String.ofList ['\\', c]
  let atBackslash := behind.length + 2
  match controlEscape? c, classEscape? c, hexEscape? c with
  | some n, _, _ => .ok ⟨text, .inl n, 1⟩
  | _, some m, _ => .ok ⟨text, .inr m, 1⟩
  | _, _, some width =>
    let ds := (behind.take width).takeWhile isHex
    let whole := text ++ String.ofList ds
    if ds.length < width then .error ⟨.incompleteEscape whole, atBackslash⟩
    else if 0x110000 ≤ hexNumber ds then .error ⟨.badEscape whole, atBackslash⟩
    else .ok ⟨text, .inl (hexNumber ds), 1 + width⟩
  | none, none, none =>
    if c = 'N' then namedToken behind
    else if isOctal c then
      let ds := (behind.take 2).takeWhile isOctal
      let n := digitsNumber 8 (c :: ds)
      if 0o377 < n then .error ⟨.octalTooLarge (text ++ String.ofList ds), atBackslash⟩
      else .ok ⟨text, .inl n, 1 + ds.length⟩
    else if isAsciiLetter c || c.isDigit then .error ⟨.badEscape text, atBackslash⟩
    else .ok ⟨text, .inl c.toNat, 1⟩

def setToken (c : Char) (tail : List Char) : Except SetFault SetToken :=
  if c = '\\' then
    match tail with
    | [] => .error ⟨.unterminatedSet, 1⟩
    | e :: behind => escapeToken e behind
  else .ok ⟨c.toString, .inl c.toNat, 0⟩

def SetToken.member (t : SetToken) : Member :=
  match t.meaning with
  | .inl n => .range n n
  | .inr m => m

/-- The range between two tokens, which both have to be characters in order. `remaining` counts
the characters behind the second one. -/
def rangeOf (lo hi : SetToken) (remaining : Nat) : Except SetFault Member :=
  let fault : SetFault :=
    ⟨.badRange lo.text hi.text, remaining + lo.text.length + 1 + hi.text.length⟩
  match lo.meaning, hi.meaning with
  | .inl a, .inl b => if b < a then .error fault else .ok (.range a b)
  | _, _ => .error fault

abbrev SetRest (cs : List Char) := { r : List Char // r.length < cs.length }

/-- The members up to the bracket that closes the set, and what is behind it. At the `start` of a
set, a bracket is a member. -/
def members (start : Bool) (cs : List Char) : Except SetFault (List Member × SetRest cs) :=
  match cs with
  | [] => .error ⟨.unterminatedSet, 0⟩
  | c :: tail =>
    if c = ']' && !start then .ok ([], ⟨tail, by simp⟩)
    else
      match setToken c tail with
      | .error f => .error f
      | .ok lo =>
        match hb : tail.drop lo.extra with
        | '-' :: d :: more =>
          have h : more.length + 2 ≤ tail.length := by
            have := congrArg List.length hb
            simp at this; omega
          if d = ']' then .ok ([lo.member, .range 45 45], ⟨more, by simp; omega⟩)
          else
            match setToken d more with
            | .error f => .error f
            | .ok hi =>
              match rangeOf lo hi (more.length - hi.extra) with
              | .error f => .error f
              | .ok m =>
                match members false (more.drop hi.extra) with
                | .error f => .error f
                | .ok (ms, r) =>
                  .ok (m :: ms, ⟨r.1, by have := r.2; simp at this ⊢; omega⟩)
        | _ =>
          match members false (tail.drop lo.extra) with
          | .error f => .error f
          | .ok (ms, r) => .ok (lo.member :: ms, ⟨r.1, by have := r.2; simp at this ⊢; omega⟩)
  termination_by cs.length
  decreasing_by all_goals simp <;> omega

def charSet (cs : List Char) : Except SetFault (CharSet × SetRest cs) :=
  match cs with
  | [] => .error ⟨.unterminatedSet, 0⟩
  | c :: tail =>
    if c = '^' then
      match members true tail with
      | .error f => .error f
      | .ok (ms, r) => .ok (⟨true, ms⟩, ⟨r.1, by have := r.2; simp; omega⟩)
    else
      match members true (c :: tail) with
      | .error f => .error f
      | .ok (ms, r) => .ok (⟨false, ms⟩, r)

end MdxLint.Glob
