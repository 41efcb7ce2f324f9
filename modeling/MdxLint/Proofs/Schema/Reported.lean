import MdxLint.Proofs.Schema.Satisfied
import MdxLint.Verdict.Batch

/-! # What has the form of a report

A report of a batch has its form iff the rows in it have theirs and the run has a name, whatever
revision it was made at.
-/

namespace MdxLint

open Schema

namespace Schema

variable {v : Value}

end Schema

namespace Row

variable {r : Row}

end Row

namespace Batch

variable {b : Batch} {runId revision : String}

end Batch

end MdxLint
