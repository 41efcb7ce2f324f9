import MdxLint.Glob.Alternatives
import MdxLint.Glob.Expression

/-! # Patterns for paths

In a pattern `*` and `?` stay inside one segment of a path, `**` may cross slashes, brackets hold
sets of characters and braces alternatives. A leading `./` of a pattern or a path counts for
nothing, and a backslash in a path counts as a slash.
-/

namespace MdxLint.Glob

/-- A pattern that has been read: any of its rows of items may match. -/
structure Pattern where
  rows : List (List Item)
  deriving DecidableEq, Repr

/-- What keeps a pattern from being read. -/
structure PatternFault where
  pattern : String
  reason : String
  deriving DecidableEq, Repr

def PatternFault.message (f : PatternFault) : String :=
  "invalid glob pattern \x60" ++ f.pattern ++ "\x60: " ++ f.reason

def withoutDot (cs : List Char) : List Char := withoutLead ['.', '/'] cs

/-- A path as patterns see it. -/
def canonicalPath (path : String) : List Char :=
  withoutDot (path.toList.map fun c => if c = '\\' then '/' else c)

/-- The pattern that a text is. -/
def Pattern.read [CharNames] (text : String) : Except PatternFault Pattern :=
  let body := withoutDot text.toList
  let e := expression (expand body)
  match Glob.rows (e.drop 3) with
  | .ok rs => .ok ⟨rs⟩
  | .error f => .error ⟨String.ofList body, f.message e⟩

def Pattern.matchesPath (p : Pattern) (path : String) : Bool :=
  p.rows.any fun row => matchesAll row (canonicalPath path)

/-- The path matches the pattern that a text is. -/
def isMatch [CharNames] (path pattern : String) : Except PatternFault Bool :=
  (Pattern.read pattern).map (·.matchesPath path)

/-- Whether some pattern matches the path; the patterns behind the first one that does are not
read. -/
def matchesAny [CharNames] (path : String) : List String → Except PatternFault Bool
  | [] => .ok false
  | p :: ps =>
    match isMatch path p with
    | .error f => .error f
    | .ok true => .ok true
    | .ok false => matchesAny path ps

end MdxLint.Glob
