import MdxLint.Mdx.InlineCode
import MdxLint.Text.Word

/-! # Void elements

Elements that never have children need not be closed in Markdown. Here each of their tags that is
not closed gets a slash, in place of the blanks before its end.
-/

namespace MdxLint.Mdx

/-- The names of the elements that never have children. -/
def voidNames : List (List Char) :=
  ["area", "base", "br", "col", "embed", "hr", "img", "input", "link", "meta", "source", "track",
   "wbr"].map String.toList

/-- Letters of other scripts that are the same letter of ASCII in another case. -/
def foldedLetter? : Char → Option Char
  | '\u017f' => some 's'
  | '\u212a' => some 'k'
  | '\u0130' => some 'i'
  | '\u0131' => some 'i'
  | _ => none

/-- The characters are the same letter, in whatever case. -/
def sameLetter (letter c : Char) : Bool := c.toLower = letter || foldedLetter? c = some letter

/-- The name stands at the front, in whatever case, and no word goes on behind it. -/
def hasName (name cs : List Char) : Bool :=
  let found := cs.take name.length
  found.length = name.length
    && (name.zip found).all (fun p => sameLetter p.1 p.2)
    && !(cs.drop name.length).head?.any isWord

def voidName? (cs : List Char) : Option Nat :=
  (voidNames.find? fun name => hasName name cs).map List.length

/-- What stands before the end of a tag; no tag begins in it. -/
def tagBody? : List Char → Option (List Char)
  | [] => none
  | c :: cs =>
    if c = '>' then some []
    else if c = '<' then none
    else (tagBody? cs).map (c :: ·)

def voidTag? (cs : List Char) : Option (List Char) :=
  match voidName? cs with
  | none => none
  | some n => (tagBody? (cs.drop n)).map fun attributes => cs.take n ++ attributes

def closedTag (body : List Char) : List Char :=
  if body.getLast? = some '/' then '<' :: body ++ ['>']
  else '<' :: trimEnd body ++ [' ', '/', '>']

def closeVoidElements : List Char → List Char
  | [] => []
  | c :: cs =>
    if c = '<' then
      match voidTag? cs with
      | some body => closedTag body ++ closeVoidElements (cs.drop (body.length + 1))
      | none => c :: closeVoidElements cs
    else c :: closeVoidElements cs
  termination_by cs => cs.length
  decreasing_by all_goals simp only [List.length_drop, List.length_cons]; omega

end MdxLint.Mdx
