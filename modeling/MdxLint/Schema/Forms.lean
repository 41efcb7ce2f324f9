import MdxLint.Schema.Violation

/-! # The forms of files

The schema of settings files and the schema of reports, and what is told about a value that does
not have its form.
-/

namespace MdxLint.Schema

def textList : List Rule := [.kinds [.array], .items [.kinds [.string], .minLength 1]]

/-- A list of plugins: names, and pairs of a name and options. -/
def pluginList : List Rule :=
  [.kinds [.array],
   .items
    [.oneOf
      [[.kinds [.string], .minLength 1],
       [.kinds [.array], .firstItems [[.kinds [.string], .minLength 1], [.kinds [.object]]],
        .minItems 2, .maxItems 2]]]]

def settingForms : List (String × List Rule) :=
  [("include", textList),
   ("exclude", textList),
   ("format", [.enum [.text "mdx", .text "md", .text "detect"]]),
   ("globals",
    [.oneOf
      [[.kinds [.boolean]],
       [.enum [.text "default", .text "disabled"]],
       [.kinds [.array], .items [.kinds [.string], .oneWord], .uniqueItems]]]),
   ("extend_default_globals", [.kinds [.boolean]]),
   ("remark_plugins", pluginList),
   ("rehype_plugins", pluginList),
   ("jobs", [.kinds [.integer], .minimum 1]),
   ("compiler_command",
    [.kinds [.array], .items [.kinds [.string], .minLength 1], .minItems 1]),
   ("compile_timeout_seconds", [.kinds [.integer], .minimum 0])]

/-- The form of a settings file. -/
def settingsForm : List Rule :=
  [.kinds [.object], .onlyKeys (settingForms.map (·.1)), .properties settingForms]

def rowForms : List (String × List Rule) :=
  [("path", [.kinds [.string]]),
   ("status", [.enum [.text "success", .text "error"]]),
   ("error_kind",
    [.enum [.null, .text "compile", .text "unknown_globals", .text "parse", .text "io"]]),
   ("message", [.kinds [.string]]),
   ("line", [.kinds [.integer, .null]]),
   ("column", [.kinds [.integer, .null]]),
   ("unknown_globals", [.kinds [.array], .items [.kinds [.string]]]),
   ("duration_ms", [.kinds [.integer], .minimum 0])]

def rowForm : List Rule :=
  [.kinds [.object], .required (rowForms.map (·.1)), .properties rowForms,
   .onlyKeys (rowForms.map (·.1))]

def reportForms : List (String × List Rule) :=
  [("schema_version", [.const (.int 1)]),
   ("tool", [.const (.text "mdx-checker")]),
   ("kind", [.const (.text "mdx-compile-report")]),
   ("status", [.enum [.text "pass", .text "fail"]]),
   ("run_id", [.kinds [.string], .minLength 1]),
   ("git_sha", [.kinds [.string]]),
   ("source", [.kinds [.string]]),
   ("total_count", [.kinds [.integer], .minimum 0]),
   ("failed_count", [.kinds [.integer], .minimum 0]),
   ("files", [.kinds [.array], .items rowForm])]

/-- The form of a report. -/
def reportForm : List Rule :=
  [.kinds [.object],
   .required ["schema_version", "tool", "kind", "status", "run_id", "source", "total_count",
     "failed_count", "files"],
   .properties reportForms, .onlyKeys (reportForms.map (·.1))]

/-- The violation to tell, if a value does not have a form. -/
def violation? (v : Value) (form : List Rule) : Option Violation :=
  (mostRelevant? (violations v form)).map (·.narrow)

/-- A path in words; the value itself has no steps to it. -/
def placeText (path : List Step) : String :=
  if path.isEmpty then "<root>" else "/".intercalate (path.map Step.text)

end MdxLint.Schema
