import MdxLint.Script.Lexeme

/-! # Pieces of a program

What the programs of the fragment are written with: words, signs, numbers, texts and the two ends
of a template. A word says what it stands for where it is written.
-/

namespace MdxLint

/-- The text is one word: a character that may begin a name, then characters of a name. -/
def isWordText (x : String) : Bool :=
  match x.toList with
  | [] => false
  | c :: cs => Lexeme.isNameStart c && !isDigitLike c && !isBlank c && cs.all Lexeme.isNamePart

structure Identifier where
  text : String
  isWord : isWordText text = true
  not_keyword : text ∉ keywords

/-- A word that may name a variable. -/
structure Name extends Identifier where
  not_contextual : text ∉ contextualKeywords

structure Digits where
  chars : List Char
  ne_nil : chars ≠ []
  isDecimal : ∀ c ∈ chars, isDecimal c = true

structure Quote where
  chars : List Char
  plain : ∀ c ∈ chars, c ≠ '"' ∧ c ≠ '\\' ∧ c ≠ '\n' ∧ c ≠ '\r'

def signs : List String :=
  ["(", ")", "[", "]", "\x7b", "\x7d", ",", ";", ".", "...", "+", "?", ":", "=", "=>", "*"]

inductive Role where
  /-- It declares a name. -/
  | binds
  /-- It declares a name, in a declarator that is not reached. -/
  | lost
  /-- It is the use of a name. -/
  | uses
  /-- It is silent where it stands: a name of another module, or what is taken for the name of a
  member of a class. -/
  | outer
  /-- It is the name of a member or a key, or a word of the language. -/
  | plain
  deriving DecidableEq, Repr

/-- A piece of a program. -/
inductive Piece where
  | word (w : Identifier) (role : Role)
  | keyword (k : String) (h : k ∈ keywords := by decide)
  | sign (p : String) (h : p ∈ signs := by decide)
  /-- The closing parenthesis in front of a block. -/
  | headEnd
  | number (d : Digits)
  | string (q : Quote)
  /-- The opening of a template, and whether a line feed stands directly behind it. -/
  | opening (turn : Bool)
  /-- The end of a template. -/
  | ending

namespace Piece

def kind : Piece → TokenKind
  | word _ _ => .name
  | keyword _ _ => .keyword
  | sign _ _ => .punctuator
  | headEnd => .punctuator
  | number _ => .number
  | string _ => .string
  | opening _ => .template
  | ending => .template

def text : Piece → String
  | word w _ => w.text
  | keyword k _ => k
  | sign p _ => p
  | headEnd => ")"
  | number d => String.ofList d.chars
  | string q => String.ofList ('"' :: (q.chars ++ ['"']))
  | opening _ => "\x60$\x7b"
  | ending => "\x7d\x60"

def token (p : Piece) (place : Place) : Token := ⟨p.kind, p.text, place⟩

def use (x : Name) : Piece := word x.toIdentifier .uses

def plain (x : Name) : Piece := word x.toIdentifier .plain

def binder (reached : Bool) (x : Name) : Piece :=
  word x.toIdentifier (if reached then .binds else .lost)

def as : Piece := word ⟨"as", by decide, by decide⟩ .plain

def fromWord : Piece := word ⟨"from", by decide, by decide⟩ .plain

def ofWord : Piece := word ⟨"of", by decide, by decide⟩ .plain

end Piece

end MdxLint
