import MdxLint.Disk.Path
import MdxLint.Text.Utf8
import MdxLint.Text.Line
import MdxLint.Text.Quoted

/-! # Trees of files

A tree is a file with its bytes, or a folder with named trees; there are no links, and everything in
it may be read and written. Looking a path up, reading a file and writing one fail as they do on a
disk, and the failure names the path.
-/

namespace MdxLint

/-- A file or a folder. -/
inductive Tree where
  | file (bytes : List UInt8)
  | folder (entries : List (String × Tree))
  deriving Repr, Inhabited

/-- Why a path cannot be used. -/
inductive DiskReason where
  | notFound
  | exists
  | notFolder
  | isFolder
  deriving DecidableEq, Repr

/-- A path that cannot be used. -/
structure DiskFault where
  reason : DiskReason
  path : String
  deriving DecidableEq, Repr

def DiskReason.describe : DiskReason → String
  | notFound => "[Errno 2] No such file or directory"
  | .exists => "[Errno 17] File exists"
  | notFolder => "[Errno 20] Not a directory"
  | isFolder => "[Errno 21] Is a directory"

def DiskFault.message (f : DiskFault) : String := f.reason.describe ++ ": " ++ quoted f.path

namespace Tree

def empty : Tree := .folder []

def entries : Tree → List (String × Tree)
  | file _ => []
  | folder es => es

def isFolder : Tree → Bool
  | file _ => false
  | folder _ => true

def child? (t : Tree) (name : String) : Option Tree :=
  (t.entries.find? fun e => e.1 = name).map (·.2)

def setEntry (es : List (String × Tree)) (name : String) (t : Tree) : List (String × Tree) :=
  match es with
  | [] => [(name, t)]
  | e :: rest => if e.1 = name then (name, t) :: rest else e :: setEntry rest name t

/-- The tree with another one put at a place; the folders above it come into being. A folder that
is there already stays. -/
def insert (old : Tree) (names : List String) (new : Tree) : Tree :=
  match names with
  | [] => if new.isFolder && old.isFolder then old else new
  | name :: names =>
    .folder (setEntry old.entries name (((old.child? name).getD empty).insert names new))

/-- The tree at the end of a row of names, where `above` holds the folders above it, the nearest
first. -/
def walk (above : List Tree) (t : Tree) : List String → Except DiskReason Tree
  | [] => .ok t
  | name :: names =>
    if !t.isFolder then .error .notFolder
    else if name = ".." then
      match above with
      | [] => .error .notFound
      | p :: above => walk above p names
    else
      match t.child? name with
      | none => .error .notFound
      | some c => walk (t :: above) c names

end Tree

/-- What is on the disk: a tree whose top is at `home`. -/
structure Disk where
  home : String
  top : Tree
  deriving Repr, Inhabited

namespace Disk

/-- The folder that relative paths are seen from. -/
def base (d : Disk) : DiskPath := ⟨d.home, []⟩

/-- The path that a text is. -/
def path (d : Disk) (text : String) : DiskPath := .read d.home text

/-- What is at a path. There is nothing outside the tree. -/
def find (d : Disk) (p : DiskPath) : Except DiskReason Tree :=
  let p := p.under d.base
  if p.root = d.home then Tree.walk [] d.top p.names else .error .notFound

/-- There is a file at the path. -/
def isFile (d : Disk) (p : DiskPath) : Bool :=
  match d.find p with
  | .ok t => !t.isFolder
  | .error _ => false

/-- There is a folder at the path. -/
def isFolder (d : Disk) (p : DiskPath) : Bool :=
  match d.find p with
  | .ok t => t.isFolder
  | .error _ => false

/-- The bytes of a file. -/
def bytesAt (d : Disk) (p : DiskPath) : Except DiskFault (List UInt8) :=
  match d.find p with
  | .ok (.file bytes) => .ok bytes
  | .ok (.folder _) => .error ⟨.isFolder, p.text⟩
  | .error r => .error ⟨r, p.text⟩

def writable (p : DiskPath) : List String := DiskPath.resolveNames p.names

/-- The disk after a folder and the folders above it have been made. A folder that is there
already is no fault. -/
def makeFolders (d : Disk) (p : DiskPath) : Except DiskFault Disk :=
  match d.find p with
  | .ok (.folder _) => .ok d
  | .ok (.file _) => .error ⟨.exists, p.text⟩
  | .error .notFound =>
    match _h : p.names with
    | [] => .error ⟨.notFound, p.text⟩
    | _ :: _ =>
      match d.makeFolders p.parent with
      | .error f => .error f
      | .ok d => .ok { d with top := d.top.insert (writable p) .empty }
  | .error r => .error ⟨r, p.text⟩
  termination_by p.names.length
  decreasing_by simp [DiskPath.parent, _h]

def write (d : Disk) (p : DiskPath) (text : String) : Except DiskFault Disk :=
  match d.find p with
  | .ok (.folder _) => .error ⟨.isFolder, p.text⟩
  | .error .notFolder => .error ⟨.notFolder, p.text⟩
  | _ => .ok { d with top := d.top.insert (writable p) (.file (Utf8.encode text)) }

end Disk

end MdxLint
