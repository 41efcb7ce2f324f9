import MdxLint.Yaml.Node
import MdxLint.Yaml.Scalar

/-! # Documents

The value of a document. First each alias is replaced by the node that it names, which has to be
complete before it, so that no node is a part of itself; then the nodes are given their values. A mapping takes over the entries of the
mappings under its merge keys, in front of its own; of two entries with one key the later counts.

Values are made level by level from the root on, so a fault near the root comes before one further
down; `Trouble.rank` says how early a fault is met.
-/

namespace MdxLint.Yaml

inductive Tree where
  | scalar (k : Kind) (text : List Char)
  | list (k : Kind) (items : List Tree)
  | map (k : Kind) (entries : List (Tree × Tree))
  deriving Repr

def Tree.kind : Tree → Kind
  | .scalar k _ => k
  | .list k _ => k
  | .map k _ => k

/-- The kind that a tag asks for; an empty one asks for none. -/
def Properties.kind (p : Properties) (otherwise : Kind) : Kind :=
  match p.tag with
  | none => otherwise
  | some t => if t = ['!'] then otherwise else Kind.ofTag t

def Properties.scalarKind (p : Properties) (text : List Char) (isPlain : Bool) : Kind :=
  p.kind (if isPlain || p.tag.isSome then Kind.ofPlain text else .text)

/-- The nodes that have names; nothing as long as a node is incomplete. -/
abbrev Anchors := List (List Char × Option Tree)

/-- A name is given to a node that begins here. No name is given twice. -/
def Anchors.begin (as : Anchors) (p : Properties) : Except Fault Anchors :=
  match p.anchor with
  | none => .ok as
  | some a => if as.any (·.1 = a) then .error .syntactic else .ok ((a, none) :: as)

def Anchors.complete (as : Anchors) (p : Properties) (t : Tree) : Anchors :=
  match p.anchor with
  | none => as
  | some a => (a, some t) :: as

mutual

def Node.tree (as : Anchors) : Node → Except Fault (Tree × Anchors)
  | .alias a =>
    match as.lookup a with
    | some (some t) => .ok (t, as)
    | _ => .error .syntactic
  | .scalar p text isPlain => do
    let as ← as.begin p
    let t := Tree.scalar (p.scalarKind text isPlain) text
    return (t, as.complete p t)
  | .sequence p items => do
    let as ← as.begin p
    let (ts, as) ← Node.trees as items
    let t := Tree.list (p.kind .list) ts
    return (t, as.complete p t)
  | .mapping p entries => do
    let as ← as.begin p
    let (es, as) ← Node.entryTrees as entries
    let t := Tree.map (p.kind .map) es
    return (t, as.complete p t)

def Node.trees (as : Anchors) : List Node → Except Fault (List Tree × Anchors)
  | [] => .ok ([], as)
  | n :: ns => do
    let (t, as) ← n.tree as
    let (ts, as) ← Node.trees as ns
    return (t :: ts, as)

def Node.entryTrees (as : Anchors) :
    List (Node × Node) → Except Fault (List (Tree × Tree) × Anchors)
  | [] => .ok ([], as)
  | (k, v) :: es => do
    let (k, as) ← k.tree as
    let (v, as) ← v.tree as
    let (es, as) ← Node.entryTrees as es
    return ((k, v) :: es, as)

end

mutual

def Tree.scalarText? : Tree → Option (List Char)
  | .scalar _ s => some s
  | .list .. => none
  | .map _ es => standInText? es

def standInText? : List (Tree × Tree) → Option (List Char)
  | [] => none
  | (k, v) :: es => if k.kind = .standIn then v.scalarText? else standInText? es

end

structure Trouble where
  rank : Nat
  fault : Fault
  deriving DecidableEq, Repr

def Trouble.at (depth : Nat) (f : Fault) : Trouble := ⟨2 * depth + 1, f⟩

def Trouble.before (depth : Nat) (f : Fault) : Trouble := ⟨2 * depth, f⟩

def both {α β : Type} (a : Except Trouble α) (b : Except Trouble β) : Except Trouble (α × β) :=
  match a, b with
  | .ok a, .ok b => .ok (a, b)
  | .error s, .error t => .error (if t.rank < s.rank then t else s)
  | .error s, .ok _ => .error s
  | .ok _, .error t => .error t

def Kind.isComposite (k : Kind) : Bool := k ∈ [.list, .pairs, .map, .set]

def textValue (depth : Nat) (k : Kind) (text : Option (List Char)) : Except Trouble Value :=
  ((orSyntactic text).bind k.scalarValue).mapError (Trouble.at depth)

mutual

def Tree.value (depth : Nat) : Tree → Except Trouble Value
  | .scalar k s => textValue depth k (some s)
  | .list k ts =>
    if k = .list then (itemValues (depth + 1) ts).map .list
    else if k = .pairs then (pairValues (depth + 1) ts).map .list
    else .error (Trouble.at depth .syntactic)
  | .map k es =>
    if k = .map then
      (entryValues (depth + 1) es).map fun r => .map (Value.entriesOf (r.1 ++ r.2))
    else if k = .set then
      (entryValues (depth + 1) es).map fun r => .set ((Value.entriesOf (r.1 ++ r.2)).map (·.1))
    else textValue depth k (standInText? es)

def itemValues (depth : Nat) : List Tree → Except Trouble (List Value)
  | [] => .ok []
  | t :: ts => (both (t.value depth) (itemValues depth ts)).map fun r => r.1 :: r.2

def pairValues (depth : Nat) : List Tree → Except Trouble (List Value)
  | [] => .ok []
  | .map _ [(k, v)] :: ts =>
    (both (both (k.value depth) (v.value depth)) (pairValues depth ts)).map fun r =>
      .pair r.1.1 r.1.2 :: r.2
  | _ :: _ => .error (Trouble.before depth .syntactic)

/-- The entries that a mapping takes over, and its own ones, at a depth. A key has no parts. -/
def entryValues (depth : Nat) :
    List (Tree × Tree) → Except Trouble (List (Value × Value) × List (Value × Value))
  | [] => .ok ([], [])
  | (k, v) :: es =>
    let others := entryValues depth es
    if k.kind = .merge then
      (both (mergedEntries depth v) others).map fun (m, ms, own) => (m ++ ms, own)
    else
      let key : Except Trouble Value :=
        if k.kind.isComposite then .error (Trouble.at depth .syntactic)
        else if k.kind = .standIn then textValue depth .text k.scalarText?
        else k.value depth
      (both (both key (v.value depth)) others).map fun (e, ms, own) => (ms, e :: own)

/-- The entries of a mapping that another one takes over, or of several such mappings, of which the
first one counts most. -/
def mergedEntries (depth : Nat) : Tree → Except Trouble (List (Value × Value))
  | .map _ es => (entryValues depth es).map fun r => r.1 ++ r.2
  | .list _ ts => (mergedItems depth ts).map fun r => r.reverse.flatten
  | .scalar .. => .error (Trouble.before depth .syntactic)

def mergedItems (depth : Nat) : List Tree → Except Trouble (List (List (Value × Value)))
  | [] => .ok []
  | .map _ es :: ts =>
    (both (entryValues depth es) (mergedItems depth ts)).map fun r => (r.1.1 ++ r.1.2) :: r.2
  | _ :: _ => .error (Trouble.before depth .syntactic)

end

def read (cs : List Char) : Except Fault Value := do
  if !cs.all isAllowed then throw .syntactic
  match ← root? (tokens cs) with
  | none => return .null
  | some n =>
    let (t, _) ← n.tree []
    (t.value 0).mapError (·.fault)

end MdxLint.Yaml
