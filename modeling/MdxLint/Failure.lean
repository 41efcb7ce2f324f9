import MdxLint.Disk.Tree
import MdxLint.Glob.Pattern
import MdxLint.Json.Reader
import MdxLint.Json.Writer
import MdxLint.Script.Tokens
import MdxLint.Selection.Revisions
import MdxLint.Yaml.Character

/-! # Failures

What can end a step of a run. The first five are told to the user as they are and have an exit code
of their own; the others are faults of data that nobody expected at that place.
-/

namespace MdxLint

/-- What ends a step of a run. -/
inductive Failure where
  /-- The settings cannot be used. -/
  | settings (message : String)
  /-- There is nothing to check. -/
  | selection (message : String)
  /-- A document does not compile; the place is known if the compiler told it. -/
  | compilation (message : List Point) (line column : Option Int)
  /-- A compiled document is no script. -/
  | script (message : String) (place : Place)
  /-- The world outside refused, with an exit code and a kind of its own. -/
  | refusal (message : String) (code : Int) (kind : String)
  /-- A text is not encoded as it should be. -/
  | encoding (f : Utf8.Fault)
  /-- A path cannot be used. -/
  | disk (f : DiskFault)
  /-- A value is of a kind that has no meaning here. -/
  | wrongKind (message : String)
  /-- A value is of the right kind but has no meaning here. -/
  | wrongValue (message : String)
  /-- A list or a text is too short. -/
  | tooShort (message : String)
  /-- A word is none of those that are known. -/
  | unknownName (message : String)
  /-- A text does not have the parts that it should. -/
  | missingPart (message : String)
  /-- A number is out of the range of machine words. -/
  | tooLarge (message : String)
  /-- The parts of a value stand in each other too deep. -/
  | tooDeep (message : String)
  /-- A program could not be started, or not be waited for. -/
  | notStarted (message : String)
  deriving Repr

namespace Failure

def message : Failure → String
  | settings m => m
  | selection m => m
  | compilation m _ _ => shownText m
  | script m _ => m
  | refusal m _ _ => m
  | encoding f => f.message
  | disk f => f.message
  | wrongKind m => m
  | wrongValue m => m
  | tooShort m => m
  | unknownName m => m
  | missingPart m => m
  | tooLarge m => m
  | tooDeep m => m
  | notStarted m => m

/-- The exit code of a run that the failure ends. -/
def exitCode : Failure → Int
  | settings _ => 2
  | selection _ => 3
  | compilation .. => 1
  | script .. => 1
  | refusal _ code _ => code
  | _ => 99

def kind : Failure → String
  | settings _ => "config_error"
  | selection _ => "discovery_error"
  | compilation .. => "compile_error"
  | script .. => "parse_error"
  | refusal _ _ kind => kind
  | _ => "generic_error"

def foreseen : Failure → Bool
  | settings _ => true
  | selection _ => true
  | compilation .. => true
  | script .. => true
  | refusal .. => true
  | _ => false

def ofPattern (f : Glob.PatternFault) : Failure := .settings f.message

def ofJson? (f : Json.Fault) : Option Failure :=
  match f.kind with
  | .longNumber _ => some (wrongValue f.kind.describe)
  | .tooDeep => some (tooDeep f.kind.describe)
  | _ => none

def ofObstacle (o : Json.Obstacle) : Failure :=
  match o with
  | .foreign m => wrongKind m
  | .longNumber => wrongValue o.message
  | .circular => wrongValue o.message
  | .tooDeep => tooDeep o.message

def ofYaml? : Yaml.Fault → Option Failure
  | .syntactic => none
  | .wrongValue m => some (wrongValue m)
  | .unknownName m => some (unknownName m)
  | .missingPart m => some (missingPart m)
  | .tooShort m => some (tooShort m)
  | .tooLarge m => some (tooLarge m)
  | .tooDeep => some (tooDeep "maximum recursion depth exceeded")

def ofRevisions (f : RevisionsFault) : Failure := .settings f.message

end Failure

end MdxLint
