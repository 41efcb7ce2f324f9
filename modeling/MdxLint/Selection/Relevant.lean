import MdxLint.Disk.Walk
import MdxLint.Session.World
import MdxLint.Settings.Basic
import MdxLint.Text.Line

/-! # Which documents are checked

The candidates are all files below the folder, or those that changed in a range of revisions. A
candidate is relevant if some pattern includes it and none excludes it, and a run without relevant
documents is a failure.
-/

namespace MdxLint

variable [Glob.CharNames]

def isRelevant (includes excludes : List String) (path : String) :
    Except Glob.PatternFault Bool :=
  match Glob.matchesAny path includes with
  | .error f => .error f
  | .ok false => .ok false
  | .ok true => (Glob.matchesAny path excludes).map (!·)

/-- The relevant ones of some paths, in their order. -/
def relevantOf (includes excludes : List String) : List String →
    Except Glob.PatternFault (List String)
  | [] => .ok []
  | p :: ps =>
    match isRelevant includes excludes p with
    | .error f => .error f
    | .ok yes => (relevantOf includes excludes ps).map fun rest => if yes then p :: rest else rest

def trimmedLines (s : String) : List String :=
  ((splitLines s.toList).map fun l => String.ofList (trim l)).filter (· ≠ "")

def diffCommand (r : Revisions) : List String :=
  let second := match r.second with
    | some b => if b = "" then [] else [b]
    | none => []
  ["git", "diff", "--name-only", "--relative", "--diff-filter=d", r.first] ++ second

def World.changedFiles (w : World) (j : Option Journal) (folder : String) (r : Revisions) :
    Run (List String) := do
  let f ← w.call j folder (diffCommand r) none 0
  if f.code ≠ 0 then
    let second := r.second.getD ""
    throw (.selection s!"git diff failed for range {r.first}..{second}: {f.combined}")
  return trimmedLines f.stdout

/-- The short name of the revision that is checked out, if it can be told. -/
def World.currentRevision (w : World) (folder : String) : Run String := do
  let f ← w.call none folder ["git", "rev-parse", "--short", "HEAD"] none 0
  let name := if f.code = 0 then String.ofList (trim f.stdout.toList) else ""
  return if name = "" then "unknown" else name

/-- The files below a folder that is on the disk. -/
def Disk.filesBelow (d : Disk) (folder : DiskPath) (excludes : List String) :
    Except Glob.PatternFault (List String) :=
  match d.find folder with
  | .ok t => t.files excludes
  | .error _ => .ok []

def World.candidates (w : World) (j : Option Journal) (s : Settings) : Run (List String) := do
  let folder := s.folder.text
  match s.revisions with
  | some r =>
    let found ← w.changedFiles j folder r
    Run.report j "discovery" "git-diff"
      [("range", .text s.source), ("modified", .nat found.length)]
    return found
  | none =>
    let found ← Run.ofExcept .ofPattern (w.disk.filesBelow s.folder s.excludes)
    Run.report j "discovery" "walk" [("cwd", .text folder), ("files", .nat found.length)]
    return found

/-- The documents to check; there is at least one. -/
def World.documents (w : World) (j : Option Journal) (s : Settings) : Run (List String) := do
  let found ← w.candidates j s
  let relevant ← Run.ofExcept .ofPattern (relevantOf s.includes s.excludes found)
  if relevant.isEmpty then
    throw (.selection (match s.revisions with
      | some _ => s!"No relevant modified MDX files found between {s.source}"
      | none => s!"No relevant MDX files found in {s.folder.text}"))
  Run.detail j "discovery" "relevant" [("files", .texts relevant)]
  return relevant

end MdxLint
