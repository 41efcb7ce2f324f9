import MdxLint.Yaml.Lexeme

/-! # Tokens of YAML

The lexemes of a document together with the structure that its indentation gives it. A block begins
where a dash, a question mark or a key stands farther right than the innermost open block, and ends
before the first lexeme that stands farther left.

A key is known only by the colon behind it. Each node that could be one is kept as a candidate, at
most one for each open bracket, as long as the colon may still come: on the same line and no more
than 1024 characters later. When the colon comes the candidate is marked, and all marks are written
out at the end, so that tokens are only ever added behind the others.
-/

namespace MdxLint.Yaml

inductive Token where
  | directive (d : Directive)
  | documentStart
  | documentEnd
  /-- A block of items behind dashes begins. -/
  | itemBlock
  /-- A block of keys and values begins. -/
  | entryBlock
  | blockEnd
  | opener (e : Enclosure)
  | closer (e : Enclosure)
  | comma
  | dash
  | key
  | value
  | alias (name : List Char)
  | anchor (name : List Char)
  | tag (t : WrittenTag)
  | scalar (text : List Char) (isPlain : Bool)
  /-- The text cannot be read from here on. -/
  | fault (f : Fault)
  deriving DecidableEq, Repr

structure Candidate where
  /-- The number of tokens before it. -/
  number : Nat
  /-- Nothing but a key may stand here. -/
  isRequired : Bool
  spot : Spot
  deriving DecidableEq, Repr

structure KeyMark where
  /-- The number of tokens before it. -/
  number : Nat
  /-- It is the first key of a block. -/
  opensBlock : Bool
  deriving DecidableEq, Repr

structure Outline where
  spot : Spot
  /-- The tokens so far, the last one first. -/
  emitted : List Token
  marks : List KeyMark
  /-- The columns of the open blocks, the innermost first. -/
  blocks : List Nat
  /-- The candidate between the innermost open brackets. -/
  candidate : Option Candidate
  /-- The candidates around each open bracket, the innermost first. -/
  outer : List (Option Candidate)
  /-- A key may begin here. -/
  keyAllowed : Bool
  deriving DecidableEq, Repr

namespace Outline

def initial : Outline := ⟨⟨0, 0, 0⟩, [], [], [], none, [], true⟩

def inFlow (o : Outline) : Bool := !o.outer.isEmpty

def margin (o : Outline) : Nat :=
  match o.blocks with
  | [] => 0
  | b :: _ => b + 1

def isDeeper (o : Outline) (column : Nat) : Bool := o.blocks.head?.all (· < column)

def emit (o : Outline) (t : Token) : Outline := { o with emitted := t :: o.emitted }

def allowKey (o : Outline) (b : Bool) : Outline := { o with keyAllowed := b }

/-- Ends blocks from the innermost one on, as long as `ends` holds of their columns. Brackets keep
all blocks around them open. -/
def endBlocks (o : Outline) (ends : Nat → Bool) : Outline :=
  if o.inFlow then o
  else
    let ended := o.blocks.takeWhile ends
    { o with
      blocks := o.blocks.drop ended.length
      emitted := List.replicate ended.length .blockEnd ++ o.emitted }

def isOverdue (o : Outline) (c : Candidate) : Bool :=
  c.spot.line ≠ o.spot.line || c.spot.index + 1024 < o.spot.index

def giveUp (o : Outline) : Except Fault Outline :=
  let overdue (c : Option Candidate) : Bool := c.any fun c => c.isRequired && o.isOverdue c
  if (o.candidate :: o.outer).any overdue then .error .syntactic
  else
    let kept (c : Option Candidate) : Option Candidate := c.filter (!o.isOverdue ·)
    .ok { o with candidate := kept o.candidate, outer := o.outer.map kept }

def withoutCandidate (o : Outline) : Except Fault Outline :=
  if o.candidate.any (·.isRequired) then .error .syntactic else .ok { o with candidate := none }

def withCandidate (o : Outline) : Except Fault Outline :=
  if o.keyAllowed then
    let isRequired := !o.inFlow && o.blocks.head? = some o.spot.column
    o.withoutCandidate.map fun o =>
      { o with candidate := some ⟨o.emitted.length, isRequired, o.spot⟩ }
  else .ok o

def pushNode (o : Outline) (t : Token) : Except Fault Outline :=
  o.withCandidate.map fun o => (o.emit t).allowKey false

/-- A lexeme that stands for the beginning of a line of a block, which is opened if need be. -/
def pushLead (o : Outline) (opening t : Token) : Except Fault Outline :=
  if o.inFlow then .ok (o.emit t)
  else if !o.keyAllowed then .error .syntactic
  else if o.isDeeper o.spot.column then
    .ok ({ o with blocks := o.spot.column :: o.blocks }.emit opening |>.emit t)
  else .ok (o.emit t)

def pushBoundary (o : Outline) (t : Token) : Except Fault Outline :=
  (o.endBlocks fun _ => true).withoutCandidate.map fun o => (o.emit t).allowKey false

def pushColon (o : Outline) : Except Fault Outline :=
  match o.candidate with
  | some c =>
    let opens := !o.inFlow && o.isDeeper c.spot.column
    let blocks := if opens then c.spot.column :: o.blocks else o.blocks
    .ok ({ o with candidate := none, blocks, marks := ⟨c.number, opens⟩ :: o.marks }.emit .value
      |>.allowKey false)
  | none => (o.pushLead .entryBlock .value).map fun o => o.allowKey (!o.inFlow)

def push (o : Outline) : Lexeme → Except Fault Outline
  | .directive d => o.pushBoundary (.directive d)
  | .documentStart => o.pushBoundary .documentStart
  | .documentEnd => o.pushBoundary .documentEnd
  | .opener e =>
    o.withCandidate.map fun o =>
      { o with candidate := none, outer := o.candidate :: o.outer }.emit (.opener e)
        |>.allowKey true
  | .closer e =>
    o.withoutCandidate.bind fun o =>
      match o.outer with
      | [] => .error .syntactic
      | c :: outer => .ok ({ o with candidate := c, outer }.emit (.closer e) |>.allowKey false)
  | .comma => o.withoutCandidate.map fun o => (o.emit .comma).allowKey true
  | .dash =>
    (o.pushLead .itemBlock .dash).bind fun o => o.withoutCandidate.map (·.allowKey true)
  | .question =>
    (o.pushLead .entryBlock .key).bind fun o =>
      o.withoutCandidate.map fun o => o.allowKey (!o.inFlow)
  | .colon => o.pushColon
  | .alias n => o.pushNode (.alias n)
  | .anchor n => o.pushNode (.anchor n)
  | .tag t => o.pushNode (.tag t)
  | .scalar text isPlain => o.pushNode (.scalar text isPlain)
  | .block text => o.withoutCandidate.map fun o => (o.emit (.scalar text false)).allowKey true

/-- Behind blanks, line breaks and comments. A key may begin on a new line. -/
def across (o : Outline) (gap : List Char) : Outline :=
  { o with
    spot := o.spot.after gap
    keyAllowed := o.keyAllowed || (!o.inFlow && gap.any isBreak) }

/-- The outline behind the lexeme that begins with `c`, where `tail` follows, and the number of its
characters after the first. That a key lacks its colon is met before a fault inside a scalar. -/
def step (o : Outline) (c : Char) (tail : List Char) : Except Fault (Outline × Nat) := do
  let o ← o.giveUp
  let o := o.endBlocks (o.spot.column < ·)
  match lexeme ⟨o.inFlow, o.spot.column, o.margin⟩ c tail with
  | .error f => o.withCandidate.bind fun _ => .error f
  | .ok (l, n) =>
    let o ← o.push l
    return ({ o with spot := o.spot.after (c :: tail.take n) }, n)

def written (o : Outline) : List Token :=
  o.emitted.reverse.zipIdx.flatMap fun (t, i) =>
    match o.marks.find? (·.number = i) with
    | some m => if m.opensBlock then [.entryBlock, .key, t] else [.key, t]
    | none => [t]

/-- The tokens of a text that cannot be read from the next lexeme on. As long as it is not known
whether a candidate begins a key, the tokens from it on are not passed on. -/
def stop (o : Outline) (f : Fault) : List Token :=
  let o := match o.giveUp with
    | .ok o => o
    | .error _ => o
  let candidates := (o.candidate :: o.outer).filterMap id
  let known := (candidates.map (·.number)).foldl min o.emitted.length
  ({ o with emitted := o.emitted.drop (o.emitted.length - known) }.emit (.fault f)).written

def finish (o : Outline) : List Token :=
  match (o.endBlocks fun _ => true).withoutCandidate with
  | .ok o => o.written
  | .error f => o.stop f

def tokens (o : Outline) (cs : List Char) : List Token :=
  let gap := cs.take (gapLength false cs)
  match h : cs.drop (gapLength false cs) with
  | [] => (o.across gap).finish
  | c :: tail =>
    have : tail.length < cs.length := by
      have := congrArg List.length h
      simp at this
      omega
    match (o.across gap).step c tail with
    | .error f => (o.across gap).stop f
    | .ok (o, n) => tokens o (tail.drop n)
  termination_by cs.length
  decreasing_by
    simp
    omega

end Outline

/-- The tokens up to the first alias whose name is none of `names` and that of no node before it. -/
def withKnownNames (names : List (List Char)) : List Token → List Token
  | [] => []
  | .alias a :: ts =>
    if a ∈ names then .alias a :: withKnownNames names ts else [.fault .syntactic]
  | .anchor a :: ts => .anchor a :: withKnownNames (a :: names) ts
  | t :: ts => t :: withKnownNames names ts

/-- The tokens of a text; a byte order mark in front of it does not count. -/
def tokens (cs : List Char) : List Token :=
  withKnownNames []
    (Outline.initial.tokens (if cs.head? = some '\ufeff' then cs.drop 1 else cs))

end MdxLint.Yaml
