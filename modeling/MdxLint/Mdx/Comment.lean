import MdxLint.Mdx.InlineCode

/-! # Comments

A comment of HTML becomes a comment in braces. Its body cannot end that comment early, for the
two characters that would are parted by a space.
-/

namespace MdxLint.Mdx

/-- The body with a space between each asterisk and the slash behind it. -/
def guardBody : List Char → List Char
  | [] => []
  | '*' :: '/' :: cs => '*' :: ' ' :: '/' :: guardBody cs
  | c :: cs => c :: guardBody cs

def commentBody? : List Char → Option (List Char)
  | [] => none
  | c :: cs =>
    if ['-', '-', '>'].isPrefixOf (c :: cs) then some []
    else (commentBody? cs).map (c :: ·)

def commentTail : List Char := ['!', '-', '-']

def bracedComment (body : List Char) : List Char :=
  ['\x7b', '/', '*'] ++ guardBody body ++ ['*', '/', '\x7d']

/-- A piece of prose with its comments in braces. -/
def braceComments : List Char → List Char
  | [] => []
  | c :: cs =>
    if c = '\x60' then
      let n := quotedCodeLength (c :: cs) - 1
      c :: cs.take n ++ braceComments (cs.drop n)
    else if c = '<' && commentTail.isPrefixOf cs then
      match commentBody? (cs.drop 3) with
      | some body => bracedComment body ++ braceComments (cs.drop (body.length + 6))
      | none => c :: braceComments cs
    else c :: braceComments cs
  termination_by cs => cs.length
  decreasing_by all_goals simp only [List.length_drop, List.length_cons]; omega

end MdxLint.Mdx
