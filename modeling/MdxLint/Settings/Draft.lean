import MdxLint.Data.Integer
import MdxLint.Settings.Names

/-! # Drafts of settings

A draft is what a settings file and the overrides of a command line come to, before anybody has
looked whether the values make sense. Lists are taken from anything that can be listed, and
numbers from anything that can be read as one; overrides are taken as they are.
-/

namespace MdxLint

/-- Settings whose values may be of any kind. -/
structure Draft where
  revisions : Option Revisions := none
  includes : List Value := [.text "**/*.\x7bmd,mdx\x7d"]
  excludes : List Value :=
    [.text "**/node_modules/**", .text "**/build/**", .text "**/.docusaurus/**"]
  format : Value := .text "mdx"
  remarkPlugins : List Value := []
  rehypePlugins : List Value := []
  names : NamePolicy := .ambient
  jobs : Value := .int 8
  compiler : List Value := [.text "node"]
  timeout : Value := .int 60

/-- A value that takes the place of a setting. -/
inductive Override where
  | value (v : Value)
  | revisions (r : Revisions)
  | names (p : NamePolicy)

namespace Value

/-- The items of a value that can be listed: the characters of a text, the keys of a map. -/
def listed : Value → Except Failure (List Value)
  | list vs => .ok vs
  | text s => .ok (s.toList.map fun c => text c.toString)
  | torn ps => .ok (ps.map fun p => ofPoints [p])
  | pair a b => .ok [a, b]
  | set vs => .ok vs
  | map es => .ok (es.map (·.1))
  | bytes bs => .ok (bs.map fun b => int b.toNat)
  | v => .error (.wrongKind (v.display ++ " cannot be listed"))

/-- The whole number that a value stands for; fractions are cut off. -/
def toInt : Value → Except Failure Int
  | int n => .ok n
  | bool b => .ok (if b then 1 else 0)
  | float x =>
    match floatTruncate? x with
    | some n => .ok n
    | none => .error (.wrongValue ("cannot convert " ++ floatText x ++ " to integer"))
  | text s =>
    match readInteger? s with
    | some n => .ok n
    | none =>
      .error (.wrongValue ("invalid literal for int() with base 10: " ++ (text s).display))
  | torn ps =>
    .error (.wrongValue ("invalid literal for int() with base 10: " ++ (torn ps).display))
  | v => .error (.wrongKind (v.display ++ " is no number"))

def canBeKey : Value → Bool
  | list _ => false
  | set _ => false
  | map _ => false
  | again => false
  | pair a b => a.canBeKey && b.canBeKey
  | _ => true

def entryOf (v : Value) : Except Failure (Value × Value) := do
  match ← v.listed with
  | [k, x] =>
    if k.canBeKey then return (k, x) else throw (.wrongKind (k.display ++ " cannot be a key"))
  | _ => throw (.wrongValue (v.display ++ " is no pair"))

/-- The map that a value stands for: itself, or one made from pairs. -/
def toMap : Value → Except Failure (List (Value × Value))
  | map es => .ok es
  | v => do
    let pairs ← (← v.listed).mapM entryOf
    return Value.entriesOf pairs

/-- The plugin that a value asks for: a name, or a name with options. -/
def plugin : Value → Except Failure Value
  | list [] => .error (.tooShort "list index out of range")
  | list [_] => .error (.tooShort "list index out of range")
  | list (name :: options :: _) => do return list [name.asText, map (← options.toMap)]
  | v => .ok v.asText

def belowOne : Value → Except Failure Bool
  | int n => .ok (n < 1)
  | bool b => .ok !b
  | float x => .ok (x < 1.0)
  | v => .error (.wrongKind (v.display ++ " cannot be compared with a number"))

end Value

namespace Draft

/-- Names that no override may have, for they stand for something else already. -/
def reserved : List String := ["cls", "cwd", "file_values"]

def take (file : Value) (key : String) (set : Draft → Value → Except Failure Draft) (d : Draft) :
    Except Failure Draft :=
  match file.get? key with
  | none => .ok d
  | some v => set d v

def takeNames (file : Value) (d : Draft) : Except Failure Draft :=
  let extend := file.get? "extend_default_globals"
  match file.get? "globals", extend with
  | none, none => .ok d
  | v, e => do
    return { d with names := ← NamePolicy.ofValue (v.getD .null) ((e.map Value.truthy).getD false) }

def ofFile (file : Value) : Except Failure Draft := do
  let d ← take file "include" (fun d v => do return { d with includes := ← v.listed }) {}
  let d ← take file "exclude" (fun d v => do return { d with excludes := ← v.listed }) d
  let d ← take file "format" (fun d v => .ok { d with format := v }) d
  let d ← takeNames file d
  let plugins (v : Value) : Except Failure (List Value) := do (← v.listed).mapM Value.plugin
  let d ← take file "remark_plugins"
    (fun d v => do return { d with remarkPlugins := ← plugins v }) d
  let d ← take file "rehype_plugins"
    (fun d v => do return { d with rehypePlugins := ← plugins v }) d
  let d ← take file "jobs" (fun d v => do return { d with jobs := .int (← v.toInt) }) d
  let d ← take file "compiler_command"
    (fun d v => do return { d with compiler := ← v.listed }) d
  take file "compile_timeout_seconds"
    (fun d v => do return { d with timeout := .int (← v.toInt) }) d

def override (d : Draft) (key : String) : Override → Except Failure Draft
  | .revisions r => .ok { d with revisions := some r }
  | .names p => .ok { d with names := p }
  | .value .null => .ok d
  | .value v =>
    match key with
    | "include" => do return { d with includes := ← v.listed }
    | "exclude" => do return { d with excludes := ← v.listed }
    | "file_format" => .ok { d with format := v }
    | "remark_plugins" => do return { d with remarkPlugins := ← v.listed }
    | "rehype_plugins" => do return { d with rehypePlugins := ← v.listed }
    | "jobs" => .ok { d with jobs := v }
    | "compiler_command" => do return { d with compiler := ← v.listed }
    | "compile_timeout_seconds" => .ok { d with timeout := v }
    | "git_range" => .error (.wrongKind (v.display ++ " is no range"))
    | "globals_policy" => .error (.wrongKind (v.display ++ " is no policy"))
    | key => .error (.settings ("unknown configuration key \x60" ++ key ++ "\x60"))

def overrideAll (d : Draft) : List (String × Override) → Except Failure Draft
  | [] => .ok d
  | (key, o) :: rest => do (← d.override key o).overrideAll rest

/-- What a settings file and overrides come to. At least one job is needed. -/
def build (file : Value) (overrides : List (String × Override)) : Except Failure Draft := do
  if overrides.any fun o => o.1 ∈ reserved then
    throw (.wrongKind "got multiple values for argument")
  let d ← (← ofFile file).overrideAll overrides
  if ← d.jobs.belowOne then throw (.settings "jobs must be >= 1")
  return d

def source (d : Draft) : String := (d.revisions.map Revisions.label).getD "all files"

end Draft

end MdxLint
