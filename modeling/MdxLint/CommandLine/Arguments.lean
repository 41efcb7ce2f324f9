import MdxLint.CommandLine.Switch
import MdxLint.Data.Integer

/-! # Arguments

A command line is read in two passes. The first tells switches from other words; a long switch may
be cut short as long as it is clear which one is meant, and a value may stand behind an equals sign
or directly behind a short switch. The second gives each switch its value.
-/

namespace MdxLint

inductive UsageFault where
  | ambiguous (word : String) (candidates : List String)
  | needsValue (s : Switch)
  | takesNoValue (s : Switch) (value : String)
  | noNumber (s : Switch) (value : String)
  | noChoice (s : Switch) (value : String) (options : List String)
  | excludes (s other : Switch)
  | unknown (words : List String)
  deriving Repr

def UsageFault.message : UsageFault → String
  | ambiguous word cs =>
    "ambiguous option: " ++ word ++ " could match " ++ ", ".intercalate cs
  | needsValue s => "argument " ++ s.title ++ ": expected one argument"
  | takesNoValue s v => "argument " ++ s.title ++ ": ignored explicit argument " ++ quoted v
  | noNumber s v => "argument " ++ s.title ++ ": invalid int value: " ++ quoted v
  | noChoice s v options =>
    "argument " ++ s.title ++ ": invalid choice: " ++ quoted v ++ " (choose from "
      ++ ", ".intercalate (options.map quoted) ++ ")"
  | excludes s other => "argument " ++ s.title ++ ": not allowed with argument " ++ other.title
  | unknown words => "unrecognized arguments: " ++ " ".intercalate words

inductive Word where
  /-- A word that may be the value of a switch. -/
  | operand (text : String)
  /-- The two dashes behind which there are no switches. -/
  | dashes
  /-- A switch as it is spelt, with the value that is attached to it. -/
  | switch (s : Switch) (spelling : String) (value : Option (List Char))
  /-- A word that looks like a switch and is none. -/
  | unknown (text : String)
  deriving Repr

def isNegativeNumber (cs : List Char) : Bool :=
  let cs := if cs.getLast? = some '\n' then cs.dropLast else cs
  match cs with
  | '-' :: ds =>
    match splitAtChar '.' ds with
    | [a] => !a.isEmpty && a.all isDecimal
    | [a, b] => a.all isDecimal && !b.isEmpty && b.all isDecimal
    | _ => false
  | _ => false

def assignment? (cs : List Char) : Option (List Char × List Char) := cutAt? ['='] cs

def candidates (cs : List Char) : List (Switch × String × Option (List Char)) :=
  match cs with
  | '-' :: '-' :: _ =>
    let (start, value) := match assignment? cs with
      | some (a, b) => (a, some b)
      | none => (cs, none)
    (spellings.filter fun s => start.isPrefixOf s.1.toList).map fun s => (s.2, s.1, value)
  | a :: b :: rest =>
    let short := String.ofList [a, b]
    spellings.filterMap fun s =>
      if s.1 = short then some (s.2, s.1, some rest)
      else if cs.isPrefixOf s.1.toList then some (s.2, s.1, none)
      else none
  | _ => []

def Word.ofCandidates (text : String) : Except UsageFault Word :=
  let cs := text.toList
  match candidates cs with
  | [(s, spelling, value)] => .ok (.switch s spelling value)
  | [] =>
    if isNegativeNumber cs || cs.contains ' ' then .ok (.operand text) else .ok (.unknown text)
  | several => .error (.ambiguous text (several.map fun c => c.2.1))

def Word.read (text : String) : Except UsageFault Word :=
  let cs := text.toList
  if cs.head? ≠ some '-' then .ok (.operand text)
  else
    match switchOf? text with
    | some s => .ok (.switch s text none)
    | none =>
      if cs.length = 1 then .ok (.operand text)
      else
        match assignment? cs with
        | some (a, b) =>
          match switchOf? (String.ofList a) with
          | some s => .ok (.switch s (String.ofList a) (some b))
          | none => ofCandidates text
        | none => ofCandidates text

def Word.readAll : List String → Except UsageFault (List Word)
  | [] => .ok []
  | w :: ws =>
    if w = "--" then .ok (.dashes :: ws.map .operand)
    else
      match Word.read w with
      | .error f => .error f
      | .ok word => (readAll ws).map (word :: ·)

/-- What reading a command line comes to, if it does not come to its end. -/
inductive Stop where
  | fault (f : UsageFault)
  | version
  | help
  deriving Repr

/-- The arguments so far: values by target, targets that were given, and words of no use. -/
structure Arguments where
  values : List (String × Value)
  given : List String
  unused : List String

namespace Arguments

def initial : Arguments where
  values := (switches.filter fun s => s.taking ≠ .version && s.taking ≠ .help).map fun s =>
    (s.target, if s.taking = .nothing then .bool false else .null)
  given := []
  unused := []

def get (a : Arguments) (target : String) : Value :=
  ((a.values.find? fun v => v.1 = target).map (·.2)).getD .null

/-- The text under a target; none if it is missing or empty. -/
def text? (a : Arguments) (target : String) : Option String :=
  match a.get target with
  | .text s => if s = "" then none else some s
  | _ => none

def isSet (a : Arguments) (target : String) : Bool := (a.get target).truthy

def set (a : Arguments) (target : String) (v : Value) : Arguments :=
  { a with values := a.values.map fun e => if e.1 = target then (target, v) else e }

def leave (a : Arguments) (word : String) : Arguments := { a with unused := a.unused ++ [word] }

/-- The value of a switch. Two dashes as its value count as no value at all. -/
def valueOf (s : Switch) (word : String) : Except UsageFault Value :=
  if word = "--" then .ok (.list [])
  else
    match s.taking with
    | .number =>
      match readInteger? word with
      | some n => .ok (.int n)
      | none => .error (.noNumber s word)
    | .choice options =>
      if word ∈ options then .ok (.text word) else .error (.noChoice s word options)
    | _ => .ok (.text word)

def mark (a : Arguments) (s : Switch) : Except UsageFault Arguments :=
  match s.excluded.find? fun t => t.target ∈ a.given with
  | some t => .error (.excludes s t)
  | none => .ok { a with given := s.target :: a.given }

def setAlone (a : Arguments) (s : Switch) : Except Stop Arguments :=
  match a.mark s with
  | .error f => .error (.fault f)
  | .ok a =>
    match s.taking with
    | .version => .error .version
    | .help => .error .help
    | _ => .ok (a.set s.target (.bool true))

def setValue (a : Arguments) (s : Switch) (word : String) : Except Stop Arguments :=
  match valueOf s word with
  | .error f => .error (.fault f)
  | .ok v =>
    match a.mark s with
    | .error f => .error (.fault f)
    | .ok a =>
      if s.taking = .more then
        let before := match a.get s.target with
          | .list vs => vs
          | _ => []
        .ok (a.set s.target (.list (before ++ [v])))
      else .ok (a.set s.target v)

def setAllAlone (a : Arguments) : List Switch → Except Stop Arguments
  | [] => .ok a
  | s :: ss =>
    match a.setAlone s with
    | .error e => .error e
    | .ok a => a.setAllAlone ss

end Arguments

/-- Short switches that are written together: those that stand alone, the last one, and the value
attached to it. -/
structure Cluster where
  alone : List Switch
  last : Switch
  value : Option (List Char)

/-- The switches in a word, from a switch with an attached value on. Behind a short switch that
stands alone, the value is read as further short switches. -/
def clusterOf (s : Switch) (isShort : Bool) : List Char → Except UsageFault Cluster
  | [] =>
    if s.standsAlone then .error (.takesNoValue s "") else .ok ⟨[], s, some []⟩
  | c :: cs =>
    if !s.standsAlone then .ok ⟨[], s, some (c :: cs)⟩
    else if !isShort then .error (.takesNoValue s (String.ofList (c :: cs)))
    else
      match switchOf? (String.ofList ['-', c]) with
      | none => .error (.takesNoValue s (String.ofList (c :: cs)))
      | some t =>
        if cs.isEmpty then .ok ⟨[s], t, none⟩
        else
          match clusterOf t true cs with
          | .error f => .error f
          | .ok k => .ok { k with alone := s :: k.alone }

def isShortSpelling (spelling : String) : Bool := (spelling.toList.drop 1).head? ≠ some '-'

def clusterOfWord (s : Switch) (spelling : String) (value : Option (List Char)) :
    Except UsageFault Cluster :=
  match value with
  | none => .ok ⟨[], s, none⟩
  | some v => clusterOf s (isShortSpelling spelling) v

def Arguments.readWords (a : Arguments) : List Word → Except Stop Arguments
  | [] => .ok a
  | .operand w :: ws => (a.leave w).readWords ws
  | .unknown w :: ws => (a.leave w).readWords ws
  | .dashes :: ws => (a.leave "--").readWords ws
  | .switch s spelling value :: ws =>
    match clusterOfWord s spelling value with
    | .error f => .error (.fault f)
    | .ok k =>
      match k.value, k.last.standsAlone, ws with
      | some v, _, ws =>
        match a.setAllAlone k.alone with
        | .error e => .error e
        | .ok a =>
          match a.setValue k.last (String.ofList v) with
          | .error e => .error e
          | .ok a => a.readWords ws
      | none, true, ws =>
        match a.setAllAlone (k.alone ++ [k.last]) with
        | .error e => .error e
        | .ok a => a.readWords ws
      | none, false, .operand w :: ws =>
        match a.setAllAlone k.alone with
        | .error e => .error e
        | .ok a =>
          match a.setValue k.last w with
          | .error e => .error e
          | .ok a => a.readWords ws
      | none, false, _ => .error (.fault (.needsValue k.last))

/-- The arguments that a command line comes to. -/
def Arguments.read (line : List String) : Except Stop Arguments :=
  match Word.readAll line with
  | .error f => .error (.fault f)
  | .ok words =>
    match Arguments.initial.readWords words with
    | .error e => .error e
    | .ok a => if a.unused.isEmpty then .ok a else .error (.fault (.unknown a.unused))

end MdxLint
