import MdxLint.Script.Declaration

/-! # Gathering declarations

The declarations of a script, gathered in a pass that goes from token to token and looks tokens and
partners up by their index. A look-up may find nothing there, and nothing here says that a loop
comes to its end: a pass ends well, or with a misstep, or not at all.
-/

namespace MdxLint

/-- A look-up that finds nothing. -/
inductive Misstep where
  | noToken (i : Nat)
  | noPartner (i : Nat)
  deriving DecidableEq, Repr

/-- What a pass has gathered: the declared names, the tokens that declare them, and the tokens that
are no uses. -/
structure Gathered where
  names : List String
  declared : List Nat
  silent : List Nat
  deriving DecidableEq, Repr

/-- A step of a pass. It may be a misstep, and it may never end. -/
abbrev Gather := StateT Gathered (ExceptT Misstep Option)

namespace Gather

def declare (i : Nat) (t : Token) : Gather Unit :=
  modify fun g => { g with names := g.names ++ [t.text], declared := g.declared ++ [i] }

def silence (i : Nat) : Gather Unit := modify fun g => { g with silent := g.silent ++ [i] }

end Gather

open Gather

namespace Script

def tokenAt (s : Script) (i : Nat) : Gather Token :=
  match s.tokens[i]? with
  | some t => pure t
  | none => throw (.noToken i)

def partnerOf (s : Script) (i : Nat) : Gather Nat :=
  match s.partner? i with
  | some j => pure j
  | none => throw (.noPartner i)

def beginsGroup (s : Script) (i : Nat) : Gather Bool := do
  if s.paired i then return (Bracket.ofOpener? (← s.tokenAt i).text).isSome else return false

/-- The ranges between the commas from `i` up to `stop` that stand in no inner group. -/
def gatherSpans (s : Script) (stop start i : Nat) : Gather (List Span) := do
  if i < stop then
    if ← s.beginsGroup i then s |>.gatherSpans stop start ((← s.partnerOf i) + 1)
    else if s.isPunct i "," then return ⟨start, i⟩ :: (← s |>.gatherSpans stop (i + 1) (i + 1))
    else s |>.gatherSpans stop start (i + 1)
  else return [⟨start, stop⟩]
partial_fixpoint

def gatherEntries (s : Script) (i : Nat) : Gather (List Span) := do
  let spans ← s.gatherSpans ((s.partner? i).getD i) (i + 1) (i + 1)
  return spans.filter fun e => e.start < e.stop

mutual

def gatherPattern (s : Script) (i : Nat) : Gather Nat := do
  if i < s.size then
    let t ← s.tokenAt i
    if t.kind = .name then
      declare i t
      return i + 1
    else if !(t.isPunct "\x7b" || t.isPunct "[") || !s.paired i then return i + 1
    else
      (← s.gatherEntries i).forM fun e =>
        if t.text = "\x7b" then s |>.gatherField e else s |>.gatherItem e
      return (← s.partnerOf i) + 1
  else return i
partial_fixpoint

def gatherField (s : Script) (e : Span) : Gather Unit := do
  if s.isPunct e.start "..." then
    let _ ← s |>.gatherPattern (e.start + 1)
  else if s.isPunct e.start "[" then
    let close := (s.partner? e.start).getD e.start
    if s.isPunct (close + 1) ":" then
      let _ ← s |>.gatherPattern (close + 2)
  else if s.isPunct (e.start + 1) ":" then
    silence e.start
    let _ ← s |>.gatherPattern (e.start + 2)
  else
    let t ← s.tokenAt e.start
    if t.kind = .name then declare e.start t
partial_fixpoint

def gatherItem (s : Script) (e : Span) : Gather Unit := do
  let i := if s.isPunct e.start "..." then e.start + 1 else e.start
  if i < e.stop then
    let _ ← s |>.gatherPattern i
partial_fixpoint

end

def gatherParameters (s : Script) (i : Nat) : Gather Unit := do
  (← s.gatherEntries i).forM s.gatherItem

def beginsStatement (s : Script) (i : Nat) : Gather Bool := do
  if i = 0 then return true
  let prev ← s.tokenAt (i - 1)
  let t ← s.tokenAt i
  if t.place.line ≤ prev.place.line then return false
  match prev.kind with
  | .punctuator => return prev.text ∈ valueEnds
  | .keyword => return prev.text ∈ valueKeywords
  | _ => return true

/-- The token at `i`, which begins no group, cannot belong to the value before it. -/
def stopsValue (s : Script) (i : Nat) (t : Token) : Gather Bool := do
  match t.kind with
  | .punctuator => return t.text == "," || t.text == ";" || t.closes
  | .keyword =>
    if t.text ∈ declarationKeywords
        && !(t.text == "import" && (s.text (i + 1) == "(" || s.text (i + 1) == ".")) then
      return true
    else if t.text ∈ statementKeywords then s.beginsStatement i
    else return false
  | _ => return false

def gatherValue (s : Script) (i : Nat) : Gather Nat := do
  if i < s.size then
    let t ← s.tokenAt i
    if t.opens && s.paired i then s |>.gatherValue ((← s.partnerOf i) + 1)
    else if ← s.stopsValue i t then return i
    else s |>.gatherValue (i + 1)
  else return i
partial_fixpoint

def gatherDeclarator (s : Script) (i : Nat) : Gather Nat := do
  let j ← s.gatherPattern i
  if s.isPunct j "=" then s.gatherValue (j + 1) else return j

def gatherDeclarators (s : Script) (i : Nat) : Gather Unit := do
  if i < s.size then
    let j ← s.gatherDeclarator i
    if s.isPunct j "," then s |>.gatherDeclarators (j + 1)
partial_fixpoint

def gatherName (s : Script) (i : Nat) : Gather Bool := do
  if i < s.size then
    let t ← s.tokenAt i
    if t.kind = .name then
      declare i t
      return true
    else return false
  else return false

def gatherFunction (s : Script) (i : Nat) : Gather Unit := do
  let j := if s.isPunct (i + 1) "*" then i + 2 else i + 1
  let k := if ← s.gatherName j then j + 1 else j
  if s.isPunct k "(" then s.gatherParameters k

def gatherBody (s : Script) (i : Nat) : Gather Nat := do
  if i < s.size then
    if s.isPunct i "\x7b" then return i
    else if ← s.beginsGroup i then s |>.gatherBody ((← s.partnerOf i) + 1)
    else s |>.gatherBody (i + 1)
  else return i
partial_fixpoint

/-- The token `t` at `i` is no use if it stands where the name of a class member stands. -/
def gatherMember (s : Script) (i : Nat) (t : Token) : Gather Unit :=
  if t.kind = .name && (s.textBefore i 1 ∈ memberLeads || (s.before? i).any (·.isPunct "#"))
      && s.text (i + 1) ∈ memberTrails then
    silence i
  else return

def gatherMembers (s : Script) (stop i : Nat) : Gather Unit := do
  if i < stop then
    let t ← s.tokenAt i
    if t.opens && s.paired i then s |>.gatherMembers stop ((← s.partnerOf i) + 1)
    else
      s.gatherMember i t
      s |>.gatherMembers stop (i + 1)
partial_fixpoint

def gatherClass (s : Script) (i : Nat) : Gather Unit := do
  let _ ← s.gatherName (i + 1)
  let body ← s.gatherBody (i + 1)
  if s.paired body then s.gatherMembers (← s.partnerOf body) (body + 1)

def gatherArrow (s : Script) (i : Nat) : Gather Unit := do
  if i = 0 then return
  let t ← s.tokenAt (i - 1)
  if t.kind = .name then declare (i - 1) t
  else if s.isPunct (i - 1) ")" && s.paired (i - 1) then
    s.gatherParameters (← s.partnerOf (i - 1))

def gatherMethod (s : Script) (i : Nat) : Gather Unit := do
  match s.partner? i with
  | none => return
  | some 0 => return
  | some (j + 1) =>
    let t ← s.tokenAt j
    if t.kind ∉ [TokenKind.name, .keyword, .string, .number] || t.text ∈ blockHeads then return
    else if s.textBefore (j + 1) 2 = "function"
        || s.textBefore (j + 1) 2 = "*" && s.textBefore (j + 1) 3 = "function" then return
    else if 2 ≤ j + 1 && s.textBefore (j + 1) 2 ∉ memberLeads then return
    else
      silence j
      s.gatherParameters (j + 1)

def gatherImported (s : Script) (e : Span) : Gather Unit := do
  if e.start + 3 ≤ e.stop && s.text (e.start + 1) = "as" then
    silence e.start
    declare (e.start + 2) (← s.tokenAt (e.start + 2))
  else
    let t ← s.tokenAt e.start
    if t.kind = .name then declare e.start t

def gatherAlias (s : Script) (i : Nat) : Gather Unit := do
  if i < s.size then declare i (← s.tokenAt i)

def gatherImportFrom (s : Script) (i : Nat) : Gather Unit := do
  if i < s.size then
    let t ← s.tokenAt i
    if t.kind = .name && t.text = "from" then return
    else if t.kind = .string || t.isPunct ";" then return
    else if t.kind = .name then
      declare i t
      s |>.gatherImportFrom (i + 1)
    else if t.isPunct "*" && s.text (i + 1) == "as" then
      s.gatherAlias (i + 2)
      s |>.gatherImportFrom (i + 3)
    else if t.isPunct "\x7b" && s.paired i then
      (← s.gatherEntries i).forM s.gatherImported
      s |>.gatherImportFrom ((← s.partnerOf i) + 1)
    else s |>.gatherImportFrom (i + 1)
partial_fixpoint

def gatherImport (s : Script) (i : Nat) : Gather Unit := do
  if s.isPunct (i + 1) "(" || s.isPunct (i + 1) "." then return
  else s.gatherImportFrom (i + 1)

/-- Goes over an entry of an export list: an outer name is no use. -/
def gatherExported (s : Script) (e : Span) : Gather Unit :=
  if e.start + 3 ≤ e.stop && s.text (e.start + 1) = "as" then silence (e.start + 2) else return

/-- Goes over an entry of an export list, of which no name is a use if another module provides
it. -/
def gatherEntry (s : Script) (provided : Bool) (e : Span) : Gather Unit := do
  s.gatherExported e
  if provided then silence e.start

def gatherExport (s : Script) (i : Nat) : Gather Unit := do
  if s.isPunct (i + 1) "*" then
    if s.text (i + 2) = "as" then silence (i + 3)
  else if s.isPunct (i + 1) "\x7b" && s.paired (i + 1) then
    let close ← s.partnerOf (i + 1)
    (← s.gatherEntries (i + 1)).forM (s.gatherEntry (s.text (close + 1) = "from"))

def gatherAt (s : Script) (i : Nat) : Gather Unit := do
  let t ← s.tokenAt i
  match t.kind with
  | .keyword =>
    if t.text ∈ ["var", "let", "const"] then s.gatherDeclarators (i + 1)
    else if t.text = "function" then s.gatherFunction i
    else if t.text = "class" then s.gatherClass i
    else if t.text = "catch" && s.isPunct (i + 1) "(" then s.gatherParameters (i + 1)
    else if t.text = "import" then s.gatherImport i
    else if t.text = "export" then s.gatherExport i
    else return
  | .punctuator =>
    if t.text = "=>" then s.gatherArrow i
    else if t.text = ")" && s.isPunct (i + 1) "\x7b" then s.gatherMethod i
    else return
  | _ => return

def gather (s : Script) : Gather Unit := (List.range s.size).forM s.gatherAt

/-- How a pass over a script ends, if it does. -/
def gathered (s : Script) : Option (Except Misstep Gathered) :=
  ((s.gather.run ⟨[], [], []⟩).run).map fun r => r.map (·.2)

end Script

end MdxLint
