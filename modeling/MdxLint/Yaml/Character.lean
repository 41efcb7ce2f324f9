import MdxLint.Text.Digit

/-! # Characters of YAML

The classes of characters that tell the parts of a document apart. Line ends have been unified
before: a carriage return does not occur. Of a run of blanks and line breaks inside a scalar only
the breaks count, and a single line feed counts as a blank; `folded` is that rule.
-/

namespace MdxLint.Yaml

/-- What keeps a text from being read. -/
inductive Fault where
  /-- The text is no document. -/
  | syntactic
  /-- A scalar has no meaning as a value of its kind. -/
  | wrongValue (message : String)
  /-- A scalar is no word of its kind. -/
  | unknownName (message : String)
  /-- A scalar has no part that its kind asks for. -/
  | missingPart (message : String)
  /-- A scalar is empty where its kind has a first character. -/
  | tooShort (message : String)
  /-- A number is out of the range of machine words. -/
  | tooLarge (message : String)
  /-- The parts of the document stand in each other deeper than the reader goes. -/
  | tooDeep
  deriving DecidableEq, Repr

def orSyntactic {α : Type} (r : Option α) : Except Fault α :=
  match r with
  | some a => .ok a
  | none => .error .syntactic

def isAllowed (c : Char) : Bool :=
  let n := c.toNat
  n = 0x09 || n = 0x0A || n = 0x0D || (0x20 ≤ n && n ≤ 0x7E) || n = 0x85
    || (0xA0 ≤ n && n ≤ 0xFFFD) || 0x10000 ≤ n

def isBreak (c : Char) : Bool := c = '\n' || c = '\x85' || c = '\u2028' || c = '\u2029'

/-- A line break as it is kept: the next line of C1 is a line feed. -/
def keptBreak (c : Char) : Char := if c = '\x85' then '\n' else c

def lineEnded (cs : List Char) : Bool := cs.head?.all isBreak

def spaceFollows (cs : List Char) : Bool := cs.head? = some ' ' || lineEnded cs

def gapFollows (cs : List Char) : Bool := cs.head? = some '\t' || spaceFollows cs

/-- At the start of a line: a mark that ends a document. -/
def markFollows (cs : List Char) : Bool :=
  (cs.take 3 = ['-', '-', '-'] || cs.take 3 = ['.', '.', '.']) && gapFollows (cs.drop 3)

def isNameChar (c : Char) : Bool := c.isAlphanum || c = '-' || c = '_'

def breaksOf (cs : List Char) : List Char := (cs.filter isBreak).map keptBreak

def folded (gap : List Char) : List Char :=
  match breaksOf gap with
  | [] => gap
  | ['\n'] => [' ']
  | '\n' :: bs => bs
  | bs => bs

/-- A place in a text: the characters before it, the lines before its own, and the characters
before it on its own line. -/
structure Spot where
  index : Nat
  line : Nat
  column : Nat
  deriving DecidableEq, Repr

/-- The place behind one more character. A byte order mark has no width. -/
def Spot.next (s : Spot) (c : Char) : Spot :=
  if isBreak c then ⟨s.index + 1, s.line + 1, 0⟩
  else if c = '\ufeff' then ⟨s.index + 1, s.line, s.column⟩
  else ⟨s.index + 1, s.line, s.column + 1⟩

def Spot.after (s : Spot) (cs : List Char) : Spot := cs.foldl Spot.next s

/-- The number of characters up to the next lexeme: blanks, line breaks and comments. -/
def gapLength (inComment : Bool) : List Char → Nat
  | [] => 0
  | c :: cs =>
    if isBreak c then gapLength false cs + 1
    else if inComment then gapLength true cs + 1
    else if c = ' ' then gapLength false cs + 1
    else if c = '#' then gapLength true cs + 1
    else 0

end MdxLint.Yaml
