import MdxLint.Check.Document
import MdxLint.Schema.Forms

/-! # Settings files

A settings file is JSON if its name says so and YAML otherwise. An empty one counts as one without
settings. Whatever it holds has to have the form of a settings file.
-/

namespace MdxLint

def settingsFileNames : List String := ["mdx-checker.yaml", "mdx-checker.yml", "mdx-checker.json"]

def Disk.settingsFile? (d : Disk) (folder : DiskPath) : Option DiskPath :=
  (settingsFileNames.map fun n => (⟨folder.root, folder.names ++ [n]⟩ : DiskPath)).find? d.isFile

variable [Toolkit]

def readSettingsText (p : DiskPath) (text : String) : Except Failure Value :=
  let cs := text.toList
  let unreadable (reason : String) : Failure :=
    .settings (p.text ++ ": unable to parse config" ++ reason)
  if p.hasExtension "json" then
    match Json.readWithin Toolkit.settingsRoom cs with
    | .ok v => .ok v
    | .error f => .error ((Failure.ofJson? f).getD (unreadable (": " ++ f.message cs)))
  else
    match Toolkit.yaml cs with
    | .ok v => .ok v
    | .error f => .error ((Failure.ofYaml? f).getD (unreadable ""))

/-- A value that has the form of a settings file; null has it too. -/
def checkSettingsForm (p : DiskPath) (v : Value) : Except Failure Value :=
  match Toolkit.check v.orEmpty Schema.settingsForm with
  | .error message => .error (.wrongValue message)
  | .ok none => .ok v.orEmpty
  | .ok (some x) =>
    .error (.settings
      (p.text ++ ": invalid config at " ++ Schema.placeText x.path ++ ": " ++ x.message))

/-- The settings that a file holds. -/
def Disk.loadSettings (d : Disk) (p : DiskPath) : Except Failure Value :=
  if d.isFile p then
    match d.readText p with
    | .error f => .error f
    | .ok text =>
      match readSettingsText p text with
      | .error f => .error f
      | .ok v => checkSettingsForm p v
  else .error (.settings ("config file not found: " ++ p.text))

end MdxLint
