import MdxLint.Text.Blank
import MdxLint.Text.Line

/-! # Fenced code

A text is cut into chunks of prose and of fenced code. A fence is a line of at most three spaces
and at least three backticks or tildes; the code it opens runs through the first later line that
holds nothing but at least as many of the same character, or to the end of the text.
-/

namespace MdxLint.Mdx

/-- A run of the character that opens or closes fenced code. -/
structure Fence where
  mark : Char
  length : Nat
  deriving DecidableEq, Repr

/-- A part of a text. -/
structure Chunk where
  isCode : Bool
  text : List Char
  deriving DecidableEq, Repr

def runLength (c : Char) (cs : List Char) : Nat := (cs.takeWhile (· = c)).length

/-- The fence that a line begins with. -/
def fenceOf? (line : List Char) : Option Fence :=
  let indent := runLength ' ' line
  if 3 < indent then none
  else
    match line.drop indent with
    | c :: cs =>
      let n := runLength c (c :: cs)
      if (c = '\x60' || c = '~') && 3 ≤ n then some ⟨c, n⟩ else none
    | [] => none

/-- The line holds nothing but the given character, blanks at both ends apart. -/
def consistsOf (c : Char) (line : List Char) : Bool := (trim line).all (· = c)

def Fence.closedBy (f g : Fence) (line : List Char) : Bool :=
  g.mark = f.mark && f.length ≤ g.length && consistsOf f.mark line

def chunkOf (isCode : Bool) (text : List Char) : List Chunk :=
  if text.isEmpty then [] else [⟨isCode, text⟩]

/-- The chunks of the lines, where `held` is what the current chunk holds so far and `open?` the
fence that opened it, if it is code. -/
def chunksOf (open? : Option Fence) (held : List Char) : List (List Char) → List Chunk
  | [] => chunkOf open?.isSome held
  | line :: lines =>
    match open?, fenceOf? line with
    | none, some f => chunkOf false held ++ chunksOf (some f) line lines
    | some f, some g =>
      if f.closedBy g line then ⟨true, held ++ line⟩ :: chunksOf none [] lines
      else chunksOf (some f) (held ++ line) lines
    | o, none => chunksOf o (held ++ line) lines

/-- The chunks of a text. -/
def chunks (cs : List Char) : List Chunk := chunksOf none [] (splitLines cs)

end MdxLint.Mdx
