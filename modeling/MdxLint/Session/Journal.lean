import MdxLint.Json.Writer
import MdxLint.Session.Moment
import MdxLint.Text.Split

/-! # Journal

A run writes notes about its steps, one on a line, as pairs of keys and values or as JSON. A quiet
run writes none, and notes about details are only for a verbose one.
-/

namespace MdxLint

inductive Level where
  | debug
  | info
  | other (name : String)
  deriving DecidableEq, Repr

def Level.name : Level → String
  | debug => "debug"
  | info => "info"
  | other name => name

structure Note where
  level : Level
  component : String
  action : String
  fields : List (String × Value)

/-- What a run writes about itself, and how. -/
structure Journal where
  runId : String
  verbose : Bool
  quiet : Bool
  asJson : Bool
  now : Moment
  deriving DecidableEq, Repr

namespace Journal

def takes (j : Journal) (n : Note) : Bool := !j.quiet && (j.verbose || n.level != .debug)

def sortFields (fields : List (String × Value)) : List (String × Value) :=
  fields.mergeSort fun a b => decide (¬ b.1 < a.1)

/-- The note as JSON. A field of the note may take the place of a common one. -/
def jsonLine (j : Journal) (n : Note) : String :=
  let common : List (String × Value) :=
    [("ts", .text j.now.iso), ("level", .text n.level.name), ("run_id", .text j.runId),
     ("component", .text n.component), ("action", .text n.action)]
  let all := (common ++ n.fields).map fun f => (Value.text f.1, f.2)
  Json.compactSorted.write (.map (Value.entriesOf all))

def textLine (j : Journal) (n : Note) : String :=
  let ts := ((n.fields.find? fun f => f.1 = "ts").map fun f => f.2.printed).getD j.now.iso
  let common :=
    ["ts=" ++ ts, "level=" ++ n.level.name, "run_id=" ++ j.runId, "component=" ++ n.component,
     "action=" ++ n.action]
  " ".intercalate (common ++ (sortFields n.fields).map fun f => f.1 ++ "=" ++ f.2.printed)

def lines (j : Journal) (n : Note) : String :=
  if j.takes n then (if j.asJson then j.jsonLine n else j.textLine n) ++ "\n" else ""

end Journal

end MdxLint
