import MdxLint.Text.Split

/-! # Paths

A path is a root and the names below it. Empty names and single dots are left out when a path is
read; a double dot stays until the path is resolved.
-/

namespace MdxLint

/-- A path. An empty root makes it relative. -/
structure DiskPath where
  root : String
  names : List String
  deriving DecidableEq, Repr, Inhabited

namespace DiskPath

def namesOf (text : List Char) : List String :=
  ((splitAtChar '/' text).map String.ofList).filter fun n => n ≠ "" && n ≠ "."

def read (home text : String) : DiskPath :=
  let cs := text.toList
  if home ≠ "" && (text = home || (home.toList ++ ['/']).isPrefixOf cs) then
    ⟨home, namesOf (cs.drop home.length)⟩
  else if ['/', '/'].isPrefixOf cs && (cs.drop 2).head? ≠ some '/' then ⟨"//", namesOf cs⟩
  else if cs.head? = some '/' then ⟨"/", namesOf cs⟩
  else ⟨"", namesOf cs⟩

/-- The text of a path; the empty path is a dot. -/
def text (p : DiskPath) : String :=
  let below := "/".intercalate p.names
  if p.root = "" then if p.names.isEmpty then "." else below
  else if p.names.isEmpty || p.root.toList.getLast? = some '/' then p.root ++ below
  else p.root ++ "/" ++ below

def isAbsolute (p : DiskPath) : Bool := p.root ≠ ""

/-- The path seen from a folder; an absolute path does not depend on it. -/
def under (p folder : DiskPath) : DiskPath :=
  if p.isAbsolute then p else ⟨folder.root, folder.names ++ p.names⟩

/-- The names without double dots: each takes the name before it away. -/
def resolveNames (names : List String) : List String :=
  names.foldl (fun done n => if n = ".." then done.dropLast else done ++ [n]) []

def resolve (p folder : DiskPath) : DiskPath :=
  let q := p.under folder
  ⟨q.root, resolveNames q.names⟩

def parent (p : DiskPath) : DiskPath := ⟨p.root, p.names.dropLast⟩

/-- The name ends in a point and `extension`, with something before the point. -/
def hasExtension (p : DiskPath) (extension : String) : Bool :=
  match p.names.getLast? with
  | none => false
  | some name =>
    let cs := name.toList.reverse
    let e := (extension.toList).reverse
    e.isPrefixOf cs && (cs.drop e.length).head? = some '.' && e.length + 1 < cs.length

end DiskPath

end MdxLint
