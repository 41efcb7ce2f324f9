import MdxLint.Verdict.Row

/-! # Batches

A batch is the rows of one run, with the changes that were looked at. It is reported as text or as
a value; the text parts the failures by a line of three dashes.
-/

namespace MdxLint

/-- The rows of a run. -/
structure Batch where
  source : String
  rows : List Row

namespace Batch

/-- The rows of the documents that did not pass. -/
def failures (b : Batch) : List Row := b.rows.filter (!·.passed)

def passed (b : Batch) : Bool := b.failures.isEmpty

/-- What stands between two parts of the text. -/
def separator : String := "\n---\n"

/-- What the documents of the batch are called. -/
def noun (b : Batch) : String :=
  if b.source = "all files" then "relevant MDX files" else "relevant modified MDX files"

/-- The batch in words. -/
def text (b : Batch) : String :=
  if b.passed then
    s!"[SUCCESS] All {b.rows.length} {b.noun} compiled successfully!"
  else
    s!"[ERROR] {b.failures.length}/{b.rows.length} {b.noun} couldn't compile!" ++ separator
      ++ separator.intercalate (b.failures.map Row.failureText) ++ separator

/-- The batch as a value, with the name of the run and the revision it was made at. -/
def report (b : Batch) (runId : String) (revision : String) : Value :=
  .object <|
    [("schema_version", .int 1), ("tool", .text "mdx-checker"),
     ("kind", .text "mdx-compile-report"), ("status", .text (if b.passed then "pass" else "fail")),
     ("run_id", .text runId), ("source", .text b.source), ("total_count", .nat b.rows.length),
     ("failed_count", .nat b.failures.length), ("files", .list (b.rows.map Row.toValue))]
    ++ if revision = "" then [] else [("git_sha", .text revision)]

end Batch

end MdxLint
