import MdxLint.Json.Writer
import MdxLint.Verdict.Batch

/-! # What is shown

The result of a run is shown as text or as JSON, and so is the failure that ended one.
-/

namespace MdxLint

/-- The form that is asked for: by the switch for JSON, else by the switch for a form, else by the
environment if it names one. -/
def formName (asJson : Bool) (asked fromEnvironment : Option String) : String :=
  if asJson then "json"
  else
    match asked.getD "" with
    | "" =>
      match fromEnvironment with
      | some "json" => "json"
      | _ => "text"
    | name => name

def failureText (asJson : Bool) (message : String) (code : Int) (kind runId : String) : String :=
  if asJson then
    Json.compactSorted.write <| .object
      [("schema_version", .int 1), ("tool", .text "mdx-checker"), ("status", .text "error"),
       ("run_id", .text runId),
       ("errors", .list
        [.object [("code", .int code), ("kind", .text kind), ("message", .text message)]])]
  else message

end MdxLint
