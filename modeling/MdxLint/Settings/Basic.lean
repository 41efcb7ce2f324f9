import MdxLint.Settings.Draft

/-! # Settings

Settings whose values have the kinds that a run needs.
-/

namespace MdxLint

/-- What a run goes by. -/
structure Settings where
  folder : DiskPath
  revisions : Option Revisions
  includes : List String
  excludes : List String
  format : String
  remarkPlugins : List Value
  rehypePlugins : List Value
  names : NamePolicy
  jobs : Int
  compiler : List String
  timeout : Int

namespace Settings

def textOf : Value → Except Failure String
  | .text s => .ok s
  | .torn ps => .ok (shownText ps)
  | v => .error (.wrongKind (v.display ++ " is no text"))

def numberOf : Value → Except Failure Int
  | .text s => .error (.wrongKind ((Value.text s).display ++ " is no number"))
  | .torn ps => .error (.wrongKind ((Value.torn ps).display ++ " is no number"))
  | v => v.toInt

/-- The settings that a draft comes to, for a run in a folder. -/
def ofDraft (folder : DiskPath) (d : Draft) : Except Failure Settings := do
  return {
    folder
    revisions := d.revisions
    includes := ← d.includes.mapM textOf
    excludes := ← d.excludes.mapM textOf
    format := ← textOf d.format
    remarkPlugins := d.remarkPlugins
    rehypePlugins := d.rehypePlugins
    names := d.names
    jobs := ← numberOf d.jobs
    compiler := ← d.compiler.mapM textOf
    timeout := ← numberOf d.timeout }

/-- The changes that are looked at, in words. -/
def source (s : Settings) : String := (s.revisions.map Revisions.label).getD "all files"

end Settings

end MdxLint
