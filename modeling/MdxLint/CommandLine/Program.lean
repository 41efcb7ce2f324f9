import MdxLint.CommandLine.Arguments
import MdxLint.CommandLine.Display
import MdxLint.Settings.File
import MdxLint.Standard

/-! # The program

A run of the program from its command line to its exit: settings are gathered, the relevant
documents are checked, and the batch is shown and written to a file if that is asked for.
-/

namespace MdxLint

def versionText : String := "mdx-checker 0.1.0"

/-- How a run of the program ended, and what is on the disk then. -/
structure Ended where
  exit : Int
  stdout : String
  stderr : String
  disk : Disk
  deriving Repr, Inhabited

/-- The name of a run: given, or from the environment, or made from the time. -/
def World.runId (w : World) (given : Option String) : String :=
  let fromEnvironment := (w.environment "MDX_CHECKER_RUN_ID").getD ""
  match given.getD "" with
  | "" => if fromEnvironment = "" then "mdx-checker-" ++ w.now.stamp else fromEnvironment
  | name => name

/-- The folder of a run: given, or the one that relative paths are seen from. -/
def World.folder (w : World) (given : Option String) : DiskPath :=
  match given.getD "" with
  | "" => w.disk.base
  | name => (w.disk.path name).resolve w.disk.base

def Arguments.names? (a : Arguments) : Except Failure (Option NamePolicy) :=
  if a.isSet "no_globals" then .ok (some .unchecked)
  else
    match a.get "globals_list" with
    | .text s =>
      let names := (splitAtChar ',' s.toList).map fun n => String.ofList (trim n)
      .ok (some (.listed (names.filter (· ≠ "")) (a.isSet "extend_globals")))
    | .null =>
      if a.isSet "globals" then .ok (some .ambient)
      else if a.isSet "extend_globals" then
        .error (.settings "--extend-globals requires --globals-list")
      else .ok none
    | _ => .error (.wrongKind "'list' object has no attribute 'split'")

def Arguments.revisions? (a : Arguments) : Except Failure (Option Revisions) :=
  match a.text? "git_range" with
  | none => .ok none
  | some raw =>
    match Revisions.read raw with
    | .ok r => .ok (some r)
    | .error f => .error (.ofRevisions f)

def Arguments.overrides (a : Arguments) : Except Failure (List (String × Override)) := do
  let revisions := (← a.revisions?).map fun r => ("git_range", Override.revisions r)
  let names := (← a.names?).map fun p => ("globals_policy", Override.names p)
  let value (target : String) : String × Override := (target, .value (a.get target))
  return revisions.toList ++ [value "include", value "exclude", value "file_format"]
    ++ names.toList ++ [value "jobs", value "compile_timeout_seconds"]

/-- The settings file that the arguments name, or that the folder has. -/
def World.settingsPath? (w : World) (a : Arguments) (folder : DiskPath) : Option DiskPath :=
  match a.text? "config" with
  | some name => some ((w.disk.path name).under folder)
  | none => w.disk.settingsFile? folder

def keyTexts : Value → List String
  | .map es => sortTexts (es.map fun e => e.1.plain)
  | _ => []

/-- What the settings file and the arguments come to. -/
def World.gather [Toolkit] (w : World) (j : Option Journal) (a : Arguments) (folder : DiskPath) :
    Run Draft := do
  if !w.disk.isFolder folder then
    throw (.settings ("--cwd is not a directory: " ++ folder.text))
  let file ←
    match w.settingsPath? a folder with
    | none => pure (.map [])
    | some p => do
      let v ← Run.ofExcept id (w.disk.loadSettings p)
      Run.detail j "config" "loaded" [("path", .text p.text), ("keys", .texts (keyTexts v))]
      pure v
  Run.ofExcept id (do Draft.build file (← a.overrides))

/-- What a run shows on its standard output and its standard error, and the disk behind it. -/
structure Shown where
  passed : Bool
  stdout : String
  stderr : String
  disk : Disk

/-- The report of a batch; it has the form of a report. -/
def World.reportOf (w : World) (folder : DiskPath) (runId : String) (b : Batch) : Run Value := do
  let revision ← w.currentRevision folder.text
  let report := b.report runId revision
  match Schema.violation? report Schema.reportForm with
  | none => return report
  | some x => throw (.wrongValue x.message)

/-- The disk with a text written to a file. -/
def Disk.put (d : Disk) (name text : String) : Except DiskFault Disk := do
  let p := d.path name
  let d ← d.makeFolders p.parent
  d.write p text

def reportText (l : Json.Layout) (report : Value) : Except Failure String :=
  match l.write? 0 report with
  | some s => .ok (s ++ "\n")
  | none => .error (.wrongValue Json.Obstacle.longNumber.message)

/-- Shows a batch as the arguments ask for, and writes the report to a file if they name one. -/
def World.present (w : World) (a : Arguments) (asJson : Bool) (folder : DiskPath)
    (runId : String) (b : Batch) : Run Shown := do
  let file := a.text? "out_file"
  let report ← if asJson || file.isSome then w.reportOf folder runId b else pure .null
  let disk ←
    match file with
    | none => pure w.disk
    | some name => do
      let text ← Run.ofExcept id (reportText Json.pretty report)
      Run.ofExcept .disk (w.disk.put name text)
  if asJson then
    return ⟨b.passed, ← Run.ofExcept id (reportText Json.compactSorted report), "", disk⟩
  else if b.passed then return ⟨true, b.text ++ "\n", "", disk⟩
  else return ⟨false, "", b.text ++ "\n", disk⟩

def startNote (folder : DiskPath) (d : Draft) : Note :=
  ⟨.debug, "cli", "start",
    [("cwd", .text folder.text), ("source", .text d.source),
     ("globals_check", .text d.names.mode.name), ("jobs", d.jobs)]⟩

def Journal.admits (j : Journal) (n : Note) : Except Failure Unit :=
  match if j.takes n then n.fields.findSome? fun f => Json.obstacle? 1 f.2 else none with
  | some o => .error (.ofObstacle o)
  | none => .ok ()

variable [Toolkit]

def World.session (w : World) (j : Journal) (a : Arguments) (asJson : Bool) (folder : DiskPath) :
    Run Shown := do
  let d ← w.gather (some j) a folder
  Run.ofExcept id (j.admits (startNote folder d))
  Run.note (some j) (startNote folder d)
  let s ← Run.ofExcept id (Settings.ofDraft folder d)
  let b ← w.batch (some j) s
  w.present a asJson folder j.runId b

def Failure.report (f : Failure) : String :=
  if f.foreseen then f.message else "internal error: " ++ f.message

def World.runWith (w : World) (a : Arguments) : Ended :=
  let asJson :=
    formName (a.isSet "json") (a.text? "output") (w.environment "MDX_CHECKER_OUTPUT") = "json"
  let runId := w.runId (a.text? "run_id")
  let j : Journal := ⟨runId, a.isSet "verbose", a.isSet "quiet", a.isSet "log_json", w.now⟩
  match (w.session j a asJson (w.folder (a.text? "cwd"))).result with
  | (.ok shown, record) =>
    ⟨if shown.passed then 0 else 1, shown.stdout, record.log ++ shown.stderr, shown.disk⟩
  | (.error f, record) =>
    let text := failureText asJson f.report f.exitCode f.kind runId
    ⟨f.exitCode, "", record.log ++ text ++ "\n", w.disk⟩

def Stop.ended (d : Disk) : Stop → Ended
  | .fault f => ⟨2, "", "mdx-checker: error: " ++ f.message ++ "\n", d⟩
  | .version => ⟨0, versionText ++ "\n", "", d⟩
  | .help =>
    let line (s : Switch) : String := "  " ++ ", ".intercalate s.spellings ++ "\n"
    ⟨0, "usage: mdx-checker [options]\n\noptions:\n" ++ String.join (switches.map line), "", d⟩

/-- A run of the program. -/
def World.run (w : World) (line : List String) : Ended :=
  match Arguments.read line with
  | .error stop => stop.ended w.disk
  | .ok a => w.runWith a

end MdxLint
