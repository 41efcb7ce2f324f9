import MdxLint.Script.Place

/-! # Tokens of a script

A token is a kind, the characters it is made of and the place it begins at. Brackets are told by
their text, so that a closing bracket fits the opening one whose kind it names.
-/

namespace MdxLint

/-- What a token is. -/
inductive TokenKind where
  | name
  | keyword
  | punctuator
  | number
  | string
  | template
  | regex
  deriving DecidableEq, Repr, Inhabited

/-- A token of a script. -/
structure Token where
  kind : TokenKind
  text : String
  place : Place
  deriving DecidableEq, Repr, Inhabited

/-- The three bracket kinds, and the substitution of a template, which `}` closes as well. -/
inductive Bracket where
  | round
  | square
  | curly
  | substitution
  deriving DecidableEq, Repr, Inhabited

namespace Bracket

/-- The text that opens the bracket. -/
def opener : Bracket → String
  | round => "("
  | square => "["
  | curly => "\x7b"
  | substitution => "$\x7b"

/-- The text that closes the bracket. -/
def closer : Bracket → String
  | round => ")"
  | square => "]"
  | curly => "\x7d"
  | substitution => "\x7d"

def ofOpener? : String → Option Bracket
  | "(" => some round
  | "[" => some square
  | "\x7b" => some curly
  | _ => none

def ofCloser? : String → Option Bracket
  | ")" => some round
  | "]" => some square
  | "\x7d" => some curly
  | _ => none

end Bracket

namespace Token

/-- The token is the punctuator `text`. -/
def isPunct (t : Token) (text : String) : Bool := t.kind == .punctuator && t.text == text

/-- The token is a bracket that opens a group. -/
def opens (t : Token) : Bool := t.kind == .punctuator && (Bracket.ofOpener? t.text).isSome

/-- The token is a bracket that closes a group. -/
def closes (t : Token) : Bool := t.kind == .punctuator && (Bracket.ofCloser? t.text).isSome

end Token

/-- Words that are never names. -/
def keywords : List String :=
  ["break", "case", "catch", "class", "const", "continue", "debugger", "default", "delete", "do",
   "else", "enum", "export", "extends", "false", "finally", "for", "function", "if", "import",
   "in", "instanceof", "let", "new", "null", "return", "super", "switch", "this", "throw", "true",
   "try", "typeof", "var", "void", "while", "with"]

/-- Words that are keywords in some positions only; they count as names, but never as uses. -/
def contextualKeywords : List String :=
  ["as", "async", "await", "from", "get", "of", "set", "static", "yield"]

end MdxLint
