import MdxLint.Disk.Tree
import MdxLint.Glob.Pattern

/-! # Files below a folder

A walk lists the files of a tree by their paths. Folders of version control systems and folders
that a pattern matches are not entered, so nothing below them is listed. There are no links in a
tree, and no folder in it keeps its entries to itself.
-/

namespace MdxLint

/-- Folders of version control systems. -/
def versionFolders : List String := [".git", ".hg", ".svn"]

/-- The path of a name below a folder. -/
def pathBelow (folder name : String) : String :=
  if folder = "" then name else folder ++ "/" ++ name

variable [Glob.CharNames]

def skipsFolder (patterns : List String) (name path : String) : Except Glob.PatternFault Bool :=
  if name ∈ versionFolders then .ok true else Glob.matchesAny path patterns

mutual

def Tree.filesAt (patterns : List String) (path : String) : Tree →
    Except Glob.PatternFault (List String)
  | .file _ => .ok [path]
  | .folder es => filesOfEntries patterns path es

def filesOfEntries (patterns : List String) (folder : String) : List (String × Tree) →
    Except Glob.PatternFault (List String)
  | [] => .ok []
  | (name, t) :: es =>
    let path := pathBelow folder name
    match if t.isFolder then skipsFolder patterns name path else .ok false with
    | .error f => .error f
    | .ok true => filesOfEntries patterns folder es
    | .ok false =>
      match t.filesAt patterns path, filesOfEntries patterns folder es with
      | .error f, _ => .error f
      | _, .error f => .error f
      | .ok here, .ok there => .ok (here ++ there)

end

def Tree.files (patterns : List String) (t : Tree) : Except Glob.PatternFault (List String) :=
  (filesOfEntries patterns "" t.entries).map sortTexts

end MdxLint
