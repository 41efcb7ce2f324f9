import MdxLint.Glob.CharName
import MdxLint.Schema.Violation
import MdxLint.Yaml.Character

/-! # What comes with the program

The program goes by code that is not its own: a reader of YAML, a validator for settings, the names
of characters, and a stack that lets JSON be read and written, and the names of a script be looked
for, to some depth only.
-/

namespace MdxLint

/-- The code that the program goes by. -/
class Toolkit extends Glob.CharNames where
  yaml : List Char → Except Yaml.Fault Value
  /-- The violation of a schema that is told of a value, or what the validator fails with. -/
  check : Value → List Schema.Rule → Except String (Option Schema.Violation)
  /-- The validator is content with no value that violates the schema. -/
  sound : ∀ {v form}, check v form = .ok none → Schema.violations v form = []
  /-- How deep JSON may be nested in a settings file. -/
  settingsRoom : Nat
  /-- How deep JSON may be nested in an answer of the compiler. -/
  answerRoom : Nat
  /-- How deep a request to the compiler may be nested. -/
  requestRoom : Nat
  /-- The patterns of a script are not nested deeper than the stack lets names be looked for. -/
  bears : List Point → Bool

end MdxLint
