import MdxLint.Yaml.Character

/-! # Block scalars

A block scalar is a header and the lines below it that are indented at least as far as its first
line. A literal one keeps its line breaks; in a folded one a break between two lines that begin
with a word is a blank. The header may give the indentation and say what happens to the line breaks
at the end.
-/

namespace MdxLint.Yaml

inductive Chomping where
  /-- None is kept. -/
  | strip
  /-- The first one is kept. -/
  | clip
  /-- All are kept. -/
  | keep
  deriving DecidableEq, Repr

structure BlockHeader where
  chomping : Chomping := .clip
  /-- How much deeper than their surroundings the lines are. -/
  indentation : Option Nat := none
  deriving DecidableEq, Repr

def chomping? (c : Char) : Option Chomping :=
  if c = '+' then some .keep else if c = '-' then some .strip else none

/-- The header behind its first character, and the number of its characters. A digit zero counts as
none and is met again as a character that does not belong there. -/
def blockHeader (cs : List Char) : BlockHeader × Nat :=
  let digit (c : Char) : Option Nat :=
    if c.isDigit && c ≠ '0' then some (c.toNat - '0'.toNat) else none
  match cs with
  | [] => (⟨.clip, none⟩, 0)
  | c :: cs =>
    let next := cs.head?
    match chomping? c, digit c with
    | some k, _ =>
      match next.bind digit with
      | some d => (⟨k, some d⟩, 2)
      | none => (⟨k, none⟩, 1)
    | none, some d =>
      match next.bind chomping? with
      | some k => (⟨k, some d⟩, 2)
      | none => (⟨.clip, some d⟩, 1)
    | none, none => (⟨.clip, none⟩, 0)

/-- The number of characters of the rest of a line that holds nothing but a comment. -/
def idleLine? (cs : List Char) : Option Nat :=
  let blanks := (cs.takeWhile (· = ' ')).length
  let rest := cs.drop blanks
  let comment := if rest.head? = some '#' then (rest.takeWhile (!isBreak ·)).length else 0
  if lineEnded (rest.drop comment) then some (blanks + comment) else none

structure EmptyLines where
  /-- Their line breaks. -/
  breaks : List Char
  /-- The number of their characters and of the blanks in front of the line behind them. -/
  length : Nat
  /-- The number of these blanks. -/
  column : Nat
  deriving DecidableEq, Repr

/-- Reads empty lines. A line is empty if it has no more than `indent` blanks and nothing else; of
the line behind them no more than `indent` blanks are taken. -/
def emptyLines (indent : Nat) (cs : List Char) : EmptyLines :=
  let pad := ((cs.take indent).takeWhile (· = ' ')).length
  match h : cs.drop pad with
  | [] => ⟨[], pad, pad⟩
  | c :: rest =>
    if isBreak c then
      let r := emptyLines indent rest
      ⟨keptBreak c :: r.breaks, pad + 1 + r.length, r.column⟩
    else ⟨[], pad, pad⟩
  termination_by cs.length
  decreasing_by
    have := congrArg List.length h
    simp at this
    omega

/-- A line of a block scalar in the column `indent` follows the empty lines at the front of a
text. -/
def EmptyLines.leadOn (r : EmptyLines) (indent : Nat) (cs : List Char) : Bool :=
  r.column = indent && r.length < cs.length

/-- The lines of a block scalar, from the first character of its first line on: the text without
the line breaks at its end, these breaks, and the number of characters. -/
def blockLines (isFolded : Bool) (indent : Nat) (cs : List Char) :
    List Char × List Char × Nat :=
  match cs with
  | [] => ([], [], 0)
  | c :: tail =>
    let more := tail.takeWhile (!isBreak ·)
    match h : tail.drop more.length with
    | [] => (c :: more, [], more.length + 1)
    | b :: below =>
      let gap := emptyLines indent below
      if gap.leadOn indent below then
        let rest := below.drop gap.length
        let (text, ends, m) := blockLines isFolded indent rest
        let deeper (d : Char) : Bool := d = ' ' || d = '\t'
        let joined := if isFolded && keptBreak b = '\n' && !deeper c && !rest.head?.any deeper then
            if gap.breaks.isEmpty then [' '] else gap.breaks
          else keptBreak b :: gap.breaks
        (c :: more ++ joined ++ text, ends, more.length + 2 + gap.length + m)
      else (c :: more, keptBreak b :: gap.breaks, more.length + 2 + gap.length)
  termination_by cs.length
  decreasing_by
    have := congrArg List.length h
    simp at this
    simp
    omega

/-- The indentation of the deepest of the empty lines at the front of a text and of the line behind
them. -/
def deepestLine (cs : List Char) : Nat :=
  let run := cs.takeWhile fun c => c = ' ' || isBreak c
  let widths (r : Nat × Nat) (c : Char) : Nat × Nat :=
    if c = ' ' then (max r.1 (r.2 + 1), r.2 + 1) else (r.1, 0)
  (run.foldl widths (0, 0)).1

def Chomping.apply (k : Chomping) (ends : List Char) : List Char :=
  match k with
  | .strip => []
  | .clip => ends.take 1
  | .keep => ends

/-- A block scalar behind its first character: its text and the number of its characters. The lines
stand at least in the column `margin`. -/
def block? (isFolded : Bool) (margin : Nat) (cs : List Char) : Option (List Char × Nat) :=
  let (header, n) := blockHeader cs
  let afterHeader := cs.drop n
  if !spaceFollows afterHeader then none
  else
    (idleLine? afterHeader).map fun m =>
      let below := afterHeader.drop (m + 1)
      let margin := max margin 1
      let indent := match header.indentation with
        | none => max margin (deepestLine below)
        | some d => margin + d - 1
      let gap := emptyLines indent below
      let atBreak := n + m + if afterHeader.length = m then 0 else 1
      if gap.leadOn indent below then
        let (text, ends, k) := blockLines isFolded indent (below.drop gap.length)
        (gap.breaks ++ text ++ header.chomping.apply ends, atBreak + gap.length + k)
      else (if header.chomping = .keep then gap.breaks else [], atBreak + gap.length)

end MdxLint.Yaml
