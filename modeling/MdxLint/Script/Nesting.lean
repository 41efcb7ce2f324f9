import MdxLint.Script.Token

/-! # Bracket groups

A closing bracket is paired with the innermost opening one that is still open, of whatever kind;
one that finds none open stays alone. A `Script` is a list of tokens with these partners looked
up once, and `Script.extent` is the number of tokens of the group that begins at a token.
-/

namespace MdxLint

/-- Pairs of an opening and a closing index, in the order of the closing ones. The first token has
index `i`, and `stack` holds the open brackets, innermost first. -/
def bracketPairs (i : Nat) (stack : List Nat) : List Token → List (Nat × Nat)
  | [] => []
  | t :: ts =>
    if t.opens then bracketPairs (i + 1) (i :: stack) ts
    else if t.closes then
      match stack with
      | [] => bracketPairs (i + 1) [] ts
      | o :: rest => (o, i) :: bracketPairs (i + 1) rest ts
    else bracketPairs (i + 1) stack ts

/-- The tokens of a script and the partner of each bracket. -/
structure Script where
  tokens : Array Token
  partners : Array (Option Nat)

/-- A range of tokens, from `start` up to but without `stop`. -/
structure Span where
  start : Nat
  stop : Nat
  deriving DecidableEq, Repr

namespace Script

def partnersOf (n : Nat) (pairs : List (Nat × Nat)) : Array (Option Nat) :=
  pairs.foldl (fun a p => (a.setIfInBounds p.1 (some p.2)).setIfInBounds p.2 (some p.1))
    (Array.replicate n none)

/-- The script made of these tokens. -/
def ofTokens (ts : List Token) : Script :=
  ⟨ts.toArray, partnersOf ts.length (bracketPairs 0 [] ts)⟩

def size (s : Script) : Nat := s.tokens.size

/-- The text of a token, empty beyond the end. -/
def text (s : Script) (i : Nat) : String := (s.tokens[i]?.map Token.text).getD ""

def kind? (s : Script) (i : Nat) : Option TokenKind := s.tokens[i]?.map Token.kind

/-- The token at `i` is the punctuator `text`. -/
def isPunct (s : Script) (i : Nat) (text : String) : Bool := s.tokens[i]?.any (·.isPunct text)

def isName (s : Script) (i : Nat) : Bool := s.kind? i == some .name

def before? (s : Script) (i : Nat) : Option Token :=
  match i with
  | 0 => none
  | j + 1 => s.tokens[j]?

/-- The text of the token `k` places before `i`, empty before the first token. -/
def textBefore (s : Script) (i k : Nat) : String := if k ≤ i then s.text (i - k) else ""

/-- The other bracket of the pair that a token belongs to. -/
def partner? (s : Script) (i : Nat) : Option Nat := s.partners[i]?.join

def paired (s : Script) (i : Nat) : Bool := (s.partner? i).isSome

/-- The number of tokens from an opening bracket up to and with its partner, one for any other
token. -/
def extent (s : Script) (i : Nat) : Nat :=
  match s.partner? i with
  | some j => j - i + 1
  | none => 1

theorem extent_pos (s : Script) (i : Nat) : 0 < s.extent i := by
  unfold extent; split <;> omega

def lastOf (s : Script) (i : Nat) : Nat := i + s.extent i - 1

theorem le_lastOf (s : Script) (i : Nat) : i ≤ s.lastOf i := by
  have := s.extent_pos i
  unfold lastOf; omega

/-- The ranges between the commas from `i` up to `stop` that stand in no inner group; the first
one begins at `start`. -/
def spansFrom (s : Script) (stop start i : Nat) : List Span :=
  if i < stop then
    if s.isPunct i "," then ⟨start, i⟩ :: s.spansFrom stop (i + 1) (i + 1)
    else s.spansFrom stop start (i + s.extent i)
  else [⟨start, stop⟩]
  termination_by stop - i
  decreasing_by
  · omega
  · have := s.extent_pos i; omega

/-- The non-empty ranges between the commas directly inside the group that opens at `i`. -/
def entriesOf (s : Script) (i : Nat) : List Span :=
  (s.spansFrom (s.lastOf i) (i + 1) (i + 1)).filter fun e => e.start < e.stop

theorem le_start_of_mem_spansFrom {s : Script} {stop start i : Nat} {e : Span}
    (hi : start ≤ i) (h : e ∈ s.spansFrom stop start i) : start ≤ e.start := by
  fun_induction spansFrom s stop start i with
  | case1 start i _ _ ih =>
    rcases List.mem_cons.1 h with rfl | h
    · exact Nat.le_refl _
    · exact Nat.le_trans (by omega) (ih (Nat.le_refl _) h)
  | case2 start i _ _ ih => exact ih (by omega) h
  | case3 start i _ =>
    rw [List.mem_singleton] at h
    subst h
    exact Nat.le_refl _

theorem lt_start_of_mem_entriesOf {s : Script} {i : Nat} {e : Span} (h : e ∈ s.entriesOf i) :
    i < e.start :=
  le_start_of_mem_spansFrom (Nat.le_refl _) (List.mem_filter.1 h).1

end Script

end MdxLint
