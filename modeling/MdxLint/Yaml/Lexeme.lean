import MdxLint.Yaml.Plain
import MdxLint.Yaml.Property
import MdxLint.Yaml.Quoted

/-! # Lexemes of YAML

The parts of a document between its gaps. What a part is depends on whether it stands between the
brackets of a collection, on its column, and, for scalars with several lines, on the column from
which on text belongs to the innermost block.
-/

namespace MdxLint.Yaml

inductive Enclosure where
  | square
  | curly
  deriving DecidableEq, Repr

inductive Lexeme where
  | directive (d : Directive)
  | documentStart
  | documentEnd
  | opener (e : Enclosure)
  | closer (e : Enclosure)
  | comma
  | dash
  | question
  | colon
  | alias (name : List Char)
  | anchor (name : List Char)
  | tag (t : WrittenTag)
  /-- A scalar that is plain or quoted. -/
  | scalar (text : List Char) (isPlain : Bool)
  /-- A literal or folded scalar. -/
  | block (text : List Char)
  deriving DecidableEq, Repr

structure Surroundings where
  /-- It stands between the brackets of a collection. -/
  inFlow : Bool
  column : Nat
  /-- The least column of text that belongs to the innermost block. -/
  margin : Nat

/-- The lexeme that begins with `c`, where `tail` follows, and the number of its characters after
the first. -/
def lexeme (s : Surroundings) (c : Char) (tail : List Char) : Except Fault (Lexeme × Nat) :=
  if c = '%' && s.column = 0 then
    orSyntactic ((directive? tail).map fun r => (.directive r.1, r.2))
  else if c = '-' && s.column = 0 && markFollows (c :: tail) then .ok (.documentStart, 2)
  else if c = '.' && s.column = 0 && markFollows (c :: tail) then .ok (.documentEnd, 2)
  else if c = '[' then .ok (.opener .square, 0)
  else if c = '\x7b' then .ok (.opener .curly, 0)
  else if c = ']' then .ok (.closer .square, 0)
  else if c = '\x7d' then .ok (.closer .curly, 0)
  else if c = ',' then .ok (.comma, 0)
  else if c = '-' && gapFollows tail then .ok (.dash, 0)
  else if c = '?' && (s.inFlow || gapFollows tail) then .ok (.question, 0)
  else if c = ':' && (s.inFlow || gapFollows tail) then .ok (.colon, 0)
  else if c = '*' then orSyntactic ((anchorName? tail).map fun n => (.alias n, n.length))
  else if c = '&' then orSyntactic ((anchorName? tail).map fun n => (.anchor n, n.length))
  else if c = '!' then orSyntactic ((writtenTag? tail).map fun r => (.tag r.1, r.2))
  else if (c = '|' || c = '>') && !s.inFlow then
    orSyntactic ((block? (c = '>') s.margin tail).map fun r => (.block r.1, r.2))
  else if c = '\'' then (singleQuoted tail).map fun r => (.scalar r.1 false, r.2)
  else if c = '"' then (doubleQuoted tail).map fun r => (.scalar r.1 false, r.2)
  else if startsPlain s.inFlow c tail then
    let r := plain s.inFlow s.margin (c :: tail)
    .ok (.scalar r.1 true, r.2 - 1)
  else .error .syntactic

end MdxLint.Yaml
