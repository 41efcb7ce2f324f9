import MdxLint.Glob.CharSet

/-! # Items of a pattern

A pattern without alternatives is a row of items. Matching is told by what an item can leave of a
text once it has taken its part off the front; a row matches a text if it can leave nothing.
-/

namespace MdxLint.Glob

inductive Item where
  /-- One character. -/
  | one (s : CharSet)
  /-- Any number of characters. -/
  | many (s : CharSet)
  /-- Nothing, or a text without line feed that ends with a slash. -/
  | folders
  /-- Nothing, or a slash and a text without line feed. -/
  | below
  deriving DecidableEq, Repr

def anyChar : CharSet := .except '\n'

/-- What is left of a text when any number of characters of a set are taken off its front. -/
def afterMany (s : CharSet) : List Char → List (List Char)
  | [] => [[]]
  | c :: cs => (c :: cs) :: if s.contains c then afterMany s cs else []

def afterSlashes : List Char → List (List Char)
  | [] => []
  | c :: cs =>
    (if c = '/' then [cs] else []) ++ if anyChar.contains c then afterSlashes cs else []

def Item.rests : Item → List Char → List (List Char)
  | one s, c :: cs => if s.contains c then [cs] else []
  | one _, [] => []
  | many s, cs => afterMany s cs
  | folders, cs => cs :: afterSlashes cs
  | below, '/' :: cs => ('/' :: cs) :: afterMany anyChar cs
  | below, cs => [cs]

def restsOf (items : List Item) (texts : List (List Char)) : List (List Char) :=
  items.foldl (fun ts i => (ts.flatMap i.rests).eraseDups) texts

def matchesAll (items : List Item) (cs : List Char) : Bool := (restsOf items [cs]).contains []

end MdxLint.Glob
