import MdxLint.Data.Value

/-! # Rows of a report

A row tells what came of one document. Its fields are values, for a report may be made of rows
that somebody else wrote.
-/

namespace MdxLint

/-- What a report says about a document. -/
structure Row where
  path : Value
  status : Value
  errorKind : Value := .null
  message : Value := .text ""
  line : Value := .null
  column : Value := .null
  unknownNames : List Value := []
  duration : Value := .int 0

namespace Row

/-- The document passed. -/
def passed (r : Row) : Bool :=
  match r.status with
  | .text "success" => true
  | _ => false

/-- The row as a value. -/
def toValue (r : Row) : Value :=
  .object
    [("path", r.path), ("status", r.status), ("error_kind", r.errorKind), ("message", r.message),
     ("line", r.line), ("column", r.column), ("unknown_globals", .list r.unknownNames),
     ("duration_ms", r.duration)]

/-- A line and a column in words; what is zero or missing is left out. -/
def placeText (line column : Value) : String :=
  let part (name : String) (v : Value) : List String :=
    if v.truthy then [name ++ "=" ++ v.printed] else []
  let parts := part "Line" line ++ part "Column" column
  if parts.isEmpty then "" else " (" ++ " ".intercalate parts ++ ")"

/-- What went wrong with a document, in words. -/
def failureText (r : Row) : String :=
  "Error while compiling file " ++ r.path.printed ++ placeText r.line r.column ++ "\nDetails: "
    ++ r.message.printed

end Row

end MdxLint
