import MdxLint.Glob.Item
import MdxLint.Text.Split

/-! # Expressions

A pattern is first written out as a regular expression, and the expression is then read as rows of
items. A set in brackets may reach further in the expression than it did in the pattern: a `]` right
at its start, or one behind a backslash, does not close it, and it takes in what follows up to the
next bracket. Places in faults count the characters of the expression.
-/

namespace MdxLint.Glob

def specials : List Char :=
  ['\t', '\n', '\x0b', '\x0c', '\r', ' ', '#', '$', '&', '(', ')', '*', '+', '-', '.', '?', '[',
   '\\', ']', '^', '\x7b', '|', '\x7d', '~']

def literal (c : Char) : List Char := if c ∈ specials then ['\\', c] else [c]

def foldersText : List Char := "(?:.*/)?".toList

def belowText : List Char := "(?:/.*)?".toList

def anyText : List Char := ".*".toList

def segmentChar : List Char := "[^/]".toList

def setBody : List Char → List Char
  | '!' :: body => '^' :: body
  | body => body

def written (cs : List Char) : List Char :=
  match cs with
  | [] => []
  | '*' :: '*' :: '/' :: rest => foldersText ++ written rest
  | ['/', '*', '*'] => belowText
  | '*' :: '*' :: rest => anyText ++ written rest
  | '*' :: rest => segmentChar ++ '*' :: written rest
  | '?' :: rest => segmentChar ++ written rest
  | c :: rest =>
    if c = '[' then
      match cutAt? [']'] rest with
      | none => literal c ++ written rest
      | some (body, _) => '[' :: setBody body ++ ']' :: written (rest.drop (body.length + 1))
    else literal c ++ written rest
  termination_by cs.length
  decreasing_by all_goals simp <;> omega

def expression (patterns : List (List Char)) : List Char :=
  "(?:".toList ++ ['|'].intercalate (patterns.map written) ++ ")\\Z".toList

def consItem (i : Item) : List (List Item) → List (List Item)
  | [] => [[i]]
  | row :: rows => (i :: row) :: rows

/-- The rows of items of an expression, from behind the bracket that opens it. -/
def rows [CharNames] (cs : List Char) : Except SetFault (List (List Item)) :=
  match cs with
  | [] => .ok [[]]
  | c :: rest =>
    if c = ')' then .ok [[]]
    else if c = '|' then (rows rest).map ([] :: ·)
    else if c = '[' then
      match charSet rest with
      | .error f => .error f
      | .ok (s, ⟨r, _⟩) =>
        if r.head? = some '*' then (rows (r.drop 1)).map (consItem (.many s))
        else (rows r).map (consItem (.one s))
    else if foldersText.isPrefixOf (c :: rest) then (rows (rest.drop 7)).map (consItem .folders)
    else if belowText.isPrefixOf (c :: rest) then (rows (rest.drop 7)).map (consItem .below)
    else if c = '.' then (rows (rest.drop 1)).map (consItem (.many anyChar))
    else if c = '\\' then
      match rest with
      | [] => .ok [[]]
      | d :: rest => (rows rest).map (consItem (.one (.one d)))
    else (rows rest).map (consItem (.one (.one c)))
  termination_by cs.length
  decreasing_by all_goals simp only [List.length_drop, List.length_cons]; omega

/-- Where in a text a fault is, in words; lines are told apart if there are several. -/
def placeText (cs : List Char) (remaining : Nat) : String :=
  let offset := cs.length - remaining
  let before := cs.take offset
  let lines :=
    if '\n' ∈ cs then
      let column := offset - (before.length - (before.reverse.takeWhile (· ≠ '\n')).length) + 1
      let line := before.count '\n' + 1
      s!" (line {line}, column {column})"
    else ""
  s!"position {offset}" ++ lines

def SetFault.message (f : SetFault) (cs : List Char) : String :=
  f.kind.describe ++ " at " ++ placeText cs f.remaining

end MdxLint.Glob
