import MdxLint.Json.Reader
import MdxLint.Json.Writer
import MdxLint.Session.World

/-! # Scenes

A scene is a world written down as a value: the files on the disk, how the programs outside answer,
the time and the environment. What it does not mention is empty or missing.
-/

namespace MdxLint.Scene

def field (v : Value) (key : String) : Value := (v.get? key).getD .null

def text? : Value → Option String
  | .text s => some s
  | _ => none

def int? : Value → Option Int
  | .int n => some n
  | _ => none

def items : Value → List Value
  | .list vs => vs
  | _ => []

def texts (v : Value) : List String := (items v).filterMap text?

def hexBytes : List Char → List UInt8
  | a :: b :: cs => UInt8.ofNat (hexNumber [a, b]) :: hexBytes cs
  | _ => []

/-- What is at a place of the disk: a text, bytes in hexadecimal digits, or a folder. -/
def contentOf : Value → Tree
  | .text s => .file (Utf8.encode s)
  | .null => .empty
  | v => .file (hexBytes ((text? (field v "hex")).getD "").toList)

def treeOf : Value → Tree
  | .map es =>
    es.foldl (fun t e => t.insert (DiskPath.namesOf e.1.plain.toList) (contentOf e.2)) .empty
  | _ => .empty

def outputOf : Value → Output
  | .null => .none
  | .text s => .text s
  | v => .bytes (hexBytes ((text? (field v "hex")).getD "").toList)

def answerOf (v : Value) : Answer :=
  match v.get? "timeout", v.get? "missing", v.get? "raise" with
  | some _, _, _ => .timedOut (outputOf (field v "stdout")) (outputOf (field v "stderr"))
  | none, some name, _ => .missing (text? name)
  | none, none, some r =>
    .refused ((text? (field r "message")).getD "") ((int? (field r "code")).getD 1)
      ((text? (field r "kind")).getD "generic_error")
  | none, none, none =>
    .ended ((int? (field v "code")).getD 0) (outputOf (field v "stdout"))
      (outputOf (field v "stderr"))

/-- How the version control system answers: what it says about changes, and about the revision
that is checked out. -/
def revisionAnswer (git : Value) (command : List String) : Answer :=
  let entry := if command[1]? = some "diff" then git.get? "diff" else git.get? "head"
  match entry with
  | some v => answerOf v
  | none => .missing (some "git")

/-- How a compiler answers: as the first rule says whose text is in the source, and else with the
source itself. -/
def compilerAnswer (rules : Value) (input : String) : Answer :=
  let request := match Json.read input.toList with
    | .ok v => v
    | .error _ => .null
  let source := (text? (field request "source")).getD ""
  let applies (rule : Value) : Bool :=
    hasPart ((text? (field rule "contains")).getD "").toList source.toList
  match (items rules).find? applies with
  | some rule => answerOf (field rule "result")
  | none =>
    let echo := Value.object [("ok", .bool true), ("value", .text source)]
    .ended 0 (.text (Json.compact.write echo)) .none

def momentOf : Value → Moment
  | .list vs =>
    let part (i : Nat) : Nat := ((vs[i]?).bind int?).getD 0 |>.toNat
    ⟨part 0, part 1, part 2, part 3, part 4, part 5, part 6⟩
  | _ => ⟨2024, 1, 2, 3, 4, 5, 678901⟩

def worldOf (home script : String) (v : Value) : World where
  disk := ⟨home, treeOf (field v "files")⟩
  answer c :=
    if c.command.head? = some "git" then revisionAnswer (field v "git") c.command
    else compilerAnswer (field v "compiler") (c.input.getD "")
  now := momentOf (field v "now")
  environment name := text? (field (field v "env") name)
  script

end MdxLint.Scene
