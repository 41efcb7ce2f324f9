import MdxLint.Failure
import MdxLint.Session.Journal

/-! # The world outside

A run sees the world as a value: what is on the disk, how programs answer, the time and the
environment. What it does to the world is the record it leaves: the programs called and the notes
written.
-/

namespace MdxLint

/-- What a program left behind: nothing, a text, or bytes. -/
inductive Output where
  | none
  | text (s : String)
  | bytes (bs : List UInt8)
  deriving DecidableEq, Repr

namespace Output

/-- The output as a text, with every line ended by a line feed if it had to be decoded. -/
def read : Output → Except Utf8.Fault String
  | none => .ok ""
  | text s => .ok s
  | bytes bs => (Utf8.decode bs).map fun cs => String.ofList (unifyLineEnds cs)

/-- The output of a program that was stopped: what is no text in it is replaced. -/
def salvage : Output → String
  | none => ""
  | text s => s
  | bytes bs => String.ofList (Utf8.decodeLossy bs)

end Output

/-- How a program answers. -/
inductive Answer where
  | ended (code : Int) (stdout stderr : Output)
  | timedOut (stdout stderr : Output)
  | missing (name : Option String)
  | refused (message : String) (code : Int) (kind : String)
  /-- The program cannot be started, or not be waited for, for another reason: it may not be run, its
  command is no command, or it is given more seconds than can be counted. -/
  | failed (message : String)
  deriving DecidableEq, Repr

/-- A program that a run wants to start, with its input and the seconds it may take. -/
structure Call where
  command : List String
  input : Option String
  timeout : Option Int
  /-- The position of the document that the program is started for. Programs need not answer the same
  request in the same way again. -/
  turn : Nat := 0
  deriving DecidableEq, Repr

/-- What a run sees of the world. -/
structure World where
  disk : Disk
  answer : Call → Answer
  now : Moment
  environment : String → Option String
  /-- The milliseconds that a call takes. -/
  callTime : Call → Nat := fun _ => 0
  /-- The milliseconds that it takes to check the document at a position. -/
  checkTime : Nat → Nat := fun _ => 0
  /-- The script that the compiler is made to run. -/
  script : String

/-- What a run leaves behind. -/
structure Record where
  calls : List Call
  log : String
  deriving Repr

/-- A step of a run: it adds to the record and may fail. -/
abbrev Run (α : Type) := ExceptT Failure (StateM Record) α

namespace Run

def start : Record := ⟨[], ""⟩

/-- The outcome of a run, and its record. -/
def result {α : Type} (r : Run α) : Except Failure α × Record := r.run.run start

def note (j : Option Journal) (n : Note) : Run Unit :=
  match j with
  | none => pure ()
  | some j => modify fun r => { r with log := r.log ++ j.lines n }

def detail (j : Option Journal) (component action : String) (fields : List (String × Value)) :
    Run Unit :=
  note j ⟨.debug, component, action, fields⟩

def report (j : Option Journal) (component action : String) (fields : List (String × Value)) :
    Run Unit :=
  note j ⟨.info, component, action, fields⟩

def ofExcept {ε α : Type} (f : ε → Failure) : Except ε α → Run α
  | .ok a => pure a
  | .error e => throw (f e)

end Run

structure Finished where
  code : Int
  stdout : String
  stderr : String
  deriving DecidableEq, Repr

namespace Finished

def combined (f : Finished) : String :=
  String.ofList (trim (f.stdout.toList ++ f.stderr.toList))

/-- The end of a program that answers so. What it wrote has to be text if it ended by itself. A
program that took too long ends with code 124, one that is not there with 127. -/
def ofAnswer (name : String) (seconds : Int) : Answer → Except Failure Finished
  | .ended code out err =>
    match out.read, err.read with
    | .ok out, .ok err => .ok ⟨code, out, err⟩
    | .error f, _ => .error (.encoding f)
    | .ok _, .error f => .error (.encoding f)
  | .timedOut out err =>
    let note := err.salvage ++ s!"\ncommand timed out after {seconds}s"
    .ok ⟨124, out.salvage, String.ofList (trim note.toList)⟩
  | .missing n =>
    let n := n.getD ""
    .ok ⟨127, "", "command not found: " ++ if n = "" then name else n⟩
  | .refused message code kind => .error (.refusal message code kind)
  | .failed message => .error (.notStarted message)

end Finished

/-- Calls a program in a folder. No number of seconds above zero means no limit. -/
def World.call (w : World) (j : Option Journal) (folder : String) (command : List String)
    (input : Option String) (seconds : Int) (turn : Nat := 0) : Run Finished := do
  let c : Call := ⟨command, input, if 0 < seconds then some seconds else none, turn⟩
  modify fun r => { r with calls := r.calls ++ [c] }
  let f ← Run.ofExcept id (Finished.ofAnswer (command.headD "") seconds (w.answer c))
  match command with
  | [] => throw (.tooShort "list index out of range")
  | name :: _ =>
    Run.detail j "process" "run-command"
      [("command", .text name), ("cwd", .text folder), ("code", .int f.code),
       ("duration_ms", .nat (w.callTime c))]
    return f

end MdxLint
