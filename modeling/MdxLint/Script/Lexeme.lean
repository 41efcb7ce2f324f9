import MdxLint.Script.Token
import MdxLint.Text.Blank
import MdxLint.Text.Digit
import MdxLint.Text.Word

/-! # Lexemes

How far a lexeme reaches. Each measure takes the characters that follow the ones that told its
kind, and answers how many of them belong to it. A measure that answers `none` has met the end of
the text, or a line break that the lexeme may not hold.
-/

namespace MdxLint

/-- Characters that end a line of a script. -/
def isLineEnd (c : Char) : Bool := c = '\n' || c = '\r' || c = '\u2028' || c = '\u2029'

namespace Lexeme

def run (p : Char → Bool) : List Char → Nat
  | [] => 0
  | c :: cs => if p c then run p cs + 1 else 0

def lineComment : List Char → Nat := run (fun c => !isLineEnd c)

/-- After the two characters that open a block comment: up to and with the two that close it. -/
def blockComment : List Char → Option Nat
  | [] => none
  | '*' :: '/' :: _ => some 2
  | _ :: cs => (blockComment cs).map (· + 1)

/-- After the opening quote of a string: up to and with the closing one. A backslash takes the
next character along, whatever it is; otherwise a line feed or carriage return is not allowed. -/
def quoted (quote : Char) : List Char → Option Nat
  | [] => none
  | '\\' :: cs =>
    match cs with
    | [] => none
    | _ :: cs => (quoted quote cs).map (· + 2)
  | c :: cs =>
    if c = quote then some 1
    else if c = '\n' || c = '\r' then none
    else (quoted quote cs).map (· + 1)

/-- How a piece of a template ends. -/
inductive TemplateEnd where
  | closed
  | substitution
  deriving DecidableEq, Repr

/-- After the character that begins a piece of a template: up to and with the backtick that ends
the template, or the two characters that open a substitution. -/
def template : List Char → Option (Nat × TemplateEnd)
  | [] => none
  | '\\' :: cs =>
    match cs with
    | [] => none
    | _ :: cs => (template cs).map fun r => (r.1 + 2, r.2)
  | '\x60' :: _ => some (1, .closed)
  | '$' :: '\x7b' :: _ => some (2, .substitution)
  | _ :: cs => (template cs).map fun r => (r.1 + 1, r.2)

/-- A character that may be a flag of a regular expression. -/
def isFlag (c : Char) : Bool := isWord c || c = '$'

/-- After the slash that begins a regular expression: up to and with its flags. A slash inside a
class does not end it, and no line end may stand in it, escaped ones apart. -/
def regex (inClass : Bool) : List Char → Option Nat
  | [] => none
  | '\\' :: cs =>
    match cs with
    | [] => none
    | _ :: cs => (regex inClass cs).map (· + 2)
  | c :: cs =>
    if isLineEnd c then none
    else if c = '[' then (regex true cs).map (· + 1)
    else if c = ']' then (regex false cs).map (· + 1)
    else if c = '/' && !inClass then some (run isFlag cs + 1)
    else (regex inClass cs).map (· + 1)

def bigMark : List Char → Nat
  | 'n' :: _ => 1
  | _ => 0

/-- A number in a base that `0` and a letter announce: the letter, at least one digit or
underscore, and the mark of a big integer. -/
def radixNumber (marks : List Char) (isDigit : Char → Bool) : List Char → Option Nat
  | '0' :: m :: cs =>
    if m ∈ marks then
      match run (fun c => isDigit c || c = '_') cs with
      | 0 => none
      | n => some (2 + n + bigMark (cs.drop n))
    else none
  | _ => none

/-- An exponent: the letter, a sign if there is one, and at least one digit; else nothing. -/
def exponent : List Char → Nat
  | [] => 0
  | e :: cs =>
    if e = 'e' || e = 'E' then
      let sign := match cs with
        | c :: _ => if c = '+' || c = '-' then 1 else 0
        | [] => 0
      match run isDecimal (cs.drop sign) with
      | 0 => 0
      | n => 1 + sign + n
    else 0

/-- A number in base ten: digits, a point and digits, or a point and at least one digit. -/
def decimalNumber (cs : List Char) : Option Nat :=
  let digits := run (fun c => isDecimal c || c = '_')
  let mantissa : Option Nat :=
    match cs with
    | [] => none
    | c :: tail =>
      if isDecimal c then
        let whole := 1 + digits tail
        match cs.drop whole with
        | '.' :: rest => some (whole + 1 + digits rest)
        | _ => some whole
      else if c = '.' then
        match tail with
        | d :: rest => if isDecimal d then some (2 + digits rest) else none
        | [] => none
      else none
  mantissa.map fun n =>
    let n := n + exponent (cs.drop n)
    n + bigMark (cs.drop n)

/-- A number, from its first character on. A digit that forms no number stands alone. -/
def number (cs : List Char) : Nat :=
  (radixNumber ['x', 'X'] isHex cs
    <|> radixNumber ['o', 'O'] isOctal cs
    <|> radixNumber ['b', 'B'] (fun c => c = '0' || c = '1') cs
    <|> decimalNumber cs).getD 1

/-- A character that may stand in a name as it is. -/
def isNamePart (c : Char) : Bool := isWord c || c = '$' || c = '\u200c' || c = '\u200d'

/-- A character that may begin a name. -/
def isNameStart (c : Char) : Bool := (isWord c && !isDecimal c) || c = '$'

/-- An escape in a name, from its backslash on: `\u` with four digits or with digits in braces. -/
def nameEscape : List Char → Option Nat
  | '\\' :: 'u' :: '\x7b' :: cs =>
    match run isHex cs with
    | 0 => none
    | n => if (cs.drop n).head? = some '\x7d' then some (n + 4) else none
  | '\\' :: 'u' :: a :: b :: c :: d :: _ =>
    if isHex a && isHex b && isHex c && isHex d then some 6 else none
  | _ => none

/-- A name, from its first character on: characters and complete escapes. -/
def name : List Char → Nat
  | [] => 0
  | c :: cs =>
    if isNamePart c then name cs + 1
    else match nameEscape (c :: cs) with
      | none => 0
      | some n => name (cs.drop (n - 1)) + n
  termination_by cs => cs.length
  decreasing_by all_goals simp only [List.length_drop, List.length_cons]; omega

/-- The punctuators, longer ones first. -/
def punctuators : List (List Char) :=
  [">>>=",
   "...", "===", "!==", "**=", "<<=", ">>=", ">>>", "&&=", "||=", "??=",
   "=>", "==", "!=", "<=", ">=", "&&", "||", "??", "?.", "++", "--", "+=", "-=", "*=", "/=", "%=",
   "&=", "|=", "^=", "<<", ">>", "**",
   "\x7b", "\x7d", "(", ")", "[", "]", ";", ",", "<", ">", "+", "-", "*", "/", "%", "&", "|", "^",
   "!", "~", "?", ":", "=", ".", "@", "#"].map String.toList

/-- The longest punctuator at the front; `?.` with a digit behind it is only `?`, for there the
point belongs to a number. -/
def punctuator (cs : List Char) : Option Nat :=
  (punctuators.find? (·.isPrefixOf cs)).map fun p =>
    if p = ['?', '.'] && (cs.drop 2).head?.any isDigitLike then 1 else p.length

end Lexeme

end MdxLint
