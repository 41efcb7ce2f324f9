import MdxLint.Script.Lexeme
import MdxLint.Text.Quoted

/-! # The tokens of a text

Each round of the reader takes one lexeme off the front of the text: `Reader.lexeme` says what it
is and how many characters it has beyond its first one, `Reader.push` what the reader knows after
it. A lexeme has at least one character, so the text gets shorter in each round.

Two things depend on what was read before. A slash begins a regular expression unless a value may
have ended just before it, and a closing brace continues a template if the innermost open bracket
is a substitution.
-/

namespace MdxLint

/-- What keeps a text from being read. -/
inductive ScanFault where
  | unterminatedComment
  | unterminatedString
  | unterminatedTemplate
  | unterminatedRegex
  | invalidEscape
  | unexpected (c : Char)
  | unbalanced (closer : String)
  | unclosed (opener : String)
  deriving DecidableEq, Repr

/-- A fault and the place of its culprit. -/
structure ScanError where
  fault : ScanFault
  place : Place
  deriving DecidableEq, Repr

/-- The fault in words. -/
def ScanFault.describe : ScanFault → String
  | unterminatedComment => "unterminated comment"
  | unterminatedString => "unterminated string literal"
  | unterminatedTemplate => "unterminated template literal"
  | unterminatedRegex => "unterminated regular expression"
  | invalidEscape => "invalid identifier escape"
  | unexpected c => "unexpected character " ++ quoted (c.toString)
  | unbalanced closer => "unbalanced \x60" ++ closer ++ "\x60"
  | unclosed opener => "unclosed \x60" ++ opener ++ "\x60"

/-- The fault and where it is. -/
def ScanError.message (e : ScanError) : String := e.fault.describe ++ " at " ++ e.place.describe

structure Opening where
  bracket : Bracket
  place : Place
  /-- The bracket opens the head of a control statement. -/
  controlHead : Bool
  deriving DecidableEq, Repr

/-- What is known between two lexemes. -/
structure Reader where
  place : Place
  /-- The open brackets, innermost first. -/
  openings : List Opening
  /-- The token read last. -/
  last : Option Token
  /-- The token read last is the `)` of the head of a control statement. -/
  headClosed : Bool
  deriving DecidableEq, Repr

inductive Shape where
  /-- White space or a comment. -/
  | blank
  | token (kind : TokenKind)
  /-- A piece of a template up to a substitution. -/
  | substitution
  deriving DecidableEq, Repr

/-- A lexeme at the front of a text: its shape and the number of characters after its first. -/
structure Lexeme where
  shape : Shape
  extra : Nat
  deriving DecidableEq, Repr

/-- Keywords after which a slash begins a regular expression. -/
def operandKeywords : List String :=
  ["return", "typeof", "instanceof", "in", "of", "new", "delete", "void", "throw", "case", "do",
   "else", "yield", "await"]

def controlHeads : List String := ["if", "while", "for", "with"]

namespace Reader

/-- Nothing has been read. -/
def initial : Reader := ⟨Place.origin, [], none, false⟩

def regexAllowed (r : Reader) : Bool :=
  match r.last with
  | none => true
  | some t =>
    match t.kind with
    | .keyword => t.text ∈ operandKeywords
    | .punctuator =>
      if t.text = ")" then r.headClosed else t.text ∉ ["]", "\x7d", "++", "--"]
    | _ => false

def inSubstitution (r : Reader) : Bool :=
  match r.openings with
  | o :: _ => o.bracket == .substitution
  | [] => false

def templatePiece (tail : List Char) : Except ScanFault Lexeme :=
  match Lexeme.template tail with
  | none => .error .unterminatedTemplate
  | some (n, .closed) => .ok ⟨.token .template, n⟩
  | some (n, .substitution) => .ok ⟨.substitution, n⟩

def word (cs : List Char) : Except ScanFault Lexeme :=
  match Lexeme.name cs with
  | 0 => .error .invalidEscape
  | n + 1 =>
    .ok ⟨.token (if String.ofList (cs.take (n + 1)) ∈ keywords then .keyword else .name), n⟩

/-- The lexeme that begins with `c`, where `tail` follows. -/
def lexeme (r : Reader) (c : Char) (tail : List Char) : Except ScanFault Lexeme :=
  let next := tail.head?
  if isBlank c || c = '\ufeff' then .ok ⟨.blank, 0⟩
  else if c = '/' && next = some '/' then .ok ⟨.blank, 1 + Lexeme.lineComment (tail.drop 1)⟩
  else if c = '/' && next = some '*' then
    match Lexeme.blockComment (tail.drop 1) with
    | none => .error .unterminatedComment
    | some n => .ok ⟨.blank, 1 + n⟩
  else if c = '\'' || c = '"' then
    match Lexeme.quoted c tail with
    | none => .error .unterminatedString
    | some n => .ok ⟨.token .string, n⟩
  else if c = '\x60' then templatePiece tail
  else if c = '\x7d' && r.inSubstitution then templatePiece tail
  else if c = '/' && r.regexAllowed then
    match Lexeme.regex false tail with
    | none => .error .unterminatedRegex
    | some n => .ok ⟨.token .regex, n⟩
  else if isDigitLike c || (c = '.' && next.any isDigitLike) then
    .ok ⟨.token .number, Lexeme.number (c :: tail) - 1⟩
  else if Lexeme.isNameStart c || (c = '\\' && next = some 'u') then word (c :: tail)
  else
    match Lexeme.punctuator (c :: tail) with
    | none => .error (.unexpected c)
    | some n => .ok ⟨.token .punctuator, n - 1⟩

def atControlHead (r : Reader) : Bool :=
  r.last.any fun t => t.kind == .keyword && t.text ∈ controlHeads

/-- The reader behind a punctuator, which may open a bracket or close the innermost one. -/
def pushPunctuator (r : Reader) (t : Token) (behind : Place) : Except ScanFault Reader :=
  match Bracket.ofOpener? t.text, Bracket.ofCloser? t.text with
  | some b, _ =>
    let opening := ⟨b, t.place, b == .round && r.atControlHead⟩
    .ok ⟨behind, opening :: r.openings, some t, false⟩
  | none, some b =>
    match r.openings with
    | o :: rest =>
      if o.bracket = b then .ok ⟨behind, rest, some t, o.controlHead⟩
      else .error (.unbalanced t.text)
    | [] => .error (.unbalanced t.text)
  | none, none => .ok ⟨behind, r.openings, some t, false⟩

/-- The open brackets around a template piece that begins with `c`: a closing brace has left the
substitution before it. -/
def aroundPiece (r : Reader) (c : Char) : List Opening :=
  if c = '\x7d' then r.openings.drop 1 else r.openings

/-- The token that a lexeme stands for, if any, and the reader behind it. -/
def push (r : Reader) (shape : Shape) (c : Char) (more : List Char) :
    Except ScanFault (Option Token × Reader) :=
  let behind := r.place.after (c :: more)
  let text := String.ofList (c :: more)
  match shape with
  | .blank => .ok (none, { r with place := behind })
  | .token .punctuator =>
    let t : Token := ⟨.punctuator, text, r.place⟩
    (r.pushPunctuator t behind).map fun r' => (some t, r')
  | .token .template =>
    let t : Token := ⟨.template, text, r.place⟩
    .ok (some t, ⟨behind, r.aroundPiece c, some t, false⟩)
  | .token kind =>
    let t : Token := ⟨kind, text, r.place⟩
    .ok (some t, ⟨behind, r.openings, some t, false⟩)
  | .substitution =>
    let t : Token := ⟨.template, text, r.place⟩
    let opened := r.place.after (c :: more.take (more.length - 2))
    .ok (some t, ⟨behind, ⟨.substitution, opened, false⟩ :: r.aroundPiece c, some t, false⟩)

/-- All that is left of the text has to be read, and no bracket may stay open. -/
def tokens (r : Reader) : List Char → Except ScanError (List Token)
  | [] =>
    match r.openings with
    | [] => .ok []
    | o :: _ => .error ⟨.unclosed o.bracket.opener, o.place⟩
  | c :: tail =>
    match r.lexeme c tail with
    | .error fault => .error ⟨fault, r.place⟩
    | .ok piece =>
      match r.push piece.shape c (tail.take piece.extra) with
      | .error fault => .error ⟨fault, r.place⟩
      | .ok (token, r') =>
        match r'.tokens (tail.drop piece.extra) with
        | .error e => .error e
        | .ok rest => .ok (token.toList ++ rest)
  termination_by cs => cs.length
  decreasing_by simp only [List.length_drop, List.length_cons]; omega

end Reader

/-- The tokens of a script, or the first fault in it. -/
def scan (code : String) : Except ScanError (List Token) := Reader.initial.tokens code.toList

end MdxLint
