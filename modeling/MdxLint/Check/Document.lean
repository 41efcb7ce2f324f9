import MdxLint.Check.Compiler
import MdxLint.Mdx.Source
import MdxLint.Script.Reference
import MdxLint.Verdict.Batch

/-! # Checking documents

A document is read, adapted if it is MDX, compiled, and the names it uses are looked up. Whatever
goes wrong with one document is an outcome of it and does not keep the others from being checked.
-/

namespace MdxLint

inductive Outcome where
  | passed
  | unreadable (reason : String)
  | rejected (message : List Point) (line column : Option Int)
  | noScript (message : String) (place : Place)
  | unknownNames (names : List String)
  deriving Repr

namespace Outcome

def ofFailure? : Failure → Option Outcome
  | .compilation m line column => some (.rejected m line column)
  | .script m place => some (.noScript m place)
  | f => if f.foreseen then some (.rejected (pointsOf f.message) none none) else none

def unknownText (names : List String) : String :=
  "These MDX global variables do not seem to be available in scope: " ++ " ".intercalate names

/-- The row of a report that tells the outcome, but for the time that it took. -/
def untimedRow (path : String) : Outcome → Row
  | passed => { path := .text path, status := .text "success" }
  | unreadable reason =>
    { path := .text path, status := .text "error", errorKind := .text "io",
      message := .text ("unable to read file: " ++ reason) }
  | rejected message line column =>
    { path := .text path, status := .text "error", errorKind := .text "compile",
      message := .ofPoints message, line := .ofOption (line.map .int),
      column := .ofOption (column.map .int) }
  | noScript m place =>
    { path := .text path, status := .text "error", errorKind := .text "parse",
      message := .text ("unable to analyse compiled output: " ++ m),
      line := .nat place.line, column := .nat place.column }
  | unknownNames names =>
    { path := .text path, status := .text "error", errorKind := .text "unknown_globals",
      message := .text (unknownText names), unknownNames := names.map .text }

/-- The row of a report that tells an outcome which took so many milliseconds. -/
def row (path : String) (duration : Nat) (o : Outcome) : Row :=
  { o.untimedRow path with duration := .nat duration }

end Outcome

/-- The text of a file, with every line ended by a line feed. -/
def Disk.readText (d : Disk) (p : DiskPath) : Except Failure String :=
  if p.names.any fun n => n.toList.contains '\x00' then .error (.wrongValue "embedded null byte")
  else
    match d.bytesAt p with
    | .error f => .error (.disk f)
    | .ok bytes =>
      match Utf8.decode bytes with
      | .error f => .error (.encoding f)
      | .ok cs => .ok (String.ofList (unifyLineEnds cs))

/-- The source that the compiler is given. -/
def compilerSource (format text : String) : String :=
  if format = "mdx" then Mdx.adapt text else text

/-- What is wrong with a script, in words. A lone half is a character that no script may have. -/
def scriptMessage (script : List Point) (e : ScanError) : String :=
  match e.fault, script[e.place.offset]? with
  | .unexpected _, some (.half n) =>
    "unexpected character " ++ quotedPoints [.half n] ++ " at " ++ e.place.describe
  | _, _ => e.message

variable [Toolkit]

def unknownIn (script : List Point) : Option (List String) → Except Failure (List String)
  | none => .ok []
  | some allowed =>
    match unknownNames (shownText script) allowed with
    | .error e => .error (.script (scriptMessage script e) e.place)
    | .ok names =>
      if Toolkit.bears script then .ok names
      else .error (.tooDeep "maximum recursion depth exceeded")

def World.examine (w : World) (j : Option Journal) (s : Settings) (turn : Nat)
    (format text : String) : Run Outcome := do
  let request : Request :=
    ⟨compilerSource format text, format, s.remarkPlugins, s.rehypePlugins⟩
  let compiled ← w.compile j s.folder.text s.compiler s.timeout request turn
  let unknown ← Run.ofExcept id (unknownIn compiled s.names.allowed?)
  return if unknown.isEmpty then .passed else .unknownNames unknown

def World.outcomeOf (w : World) (j : Option Journal) (s : Settings) (turn : Nat)
    (format text : String) : Run Outcome := do
  try w.examine j s turn format text
  catch f =>
    match Outcome.ofFailure? f with
    | some o => pure o
    | none => throw f

/-- Checks one document, that at a position of the batch. -/
def World.check (w : World) (j : Option Journal) (s : Settings) (turn : Nat) (path : String) :
    Run Row := do
  let format := documentFormat path s.format
  let outcome ←
    match w.disk.readText ((w.disk.path path).under s.folder) with
    | .ok text => w.outcomeOf j s turn format text
    | .error (.disk f) => pure (.unreadable f.message)
    | .error (.encoding f) => pure (.unreadable f.message)
    | .error f => throw f
  let row := outcome.row path (w.checkTime turn)
  Run.detail j "runner" "file"
    [("path", .text path), ("status", row.status), ("duration_ms", row.duration)]
  return row

/-- Checks some documents, one after the other, from a position of the batch on. -/
def World.checkAll (w : World) (j : Option Journal) (s : Settings) (turn : Nat) :
    List String → Run (List Row)
  | [] => return []
  | p :: ps => do
    let row ← w.check j s turn p
    let rows ← w.checkAll j s (turn + 1) ps
    return row :: rows

/-- The batch of some documents. -/
def World.batchOf (w : World) (j : Option Journal) (s : Settings) (paths : List String) :
    Run Batch := do
  let b : Batch := ⟨s.source, ← w.checkAll j s 0 paths⟩
  Run.report j "runner" "finish"
    [("total", .nat b.rows.length), ("failed", .nat b.failures.length),
     ("globals_check", .text s.names.mode.name)]
  return b

def World.batch (w : World) (j : Option Journal) (s : Settings) : Run Batch := do
  w.batchOf j s (← w.documents j s)

end MdxLint
