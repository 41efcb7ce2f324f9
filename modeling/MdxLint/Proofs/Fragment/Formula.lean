import MdxLint.Proofs.Fragment.Exact

/-! # Initializers of class fields

What the free names of a class with fields are. The name of a field is told by its neighbours alone,
and a star and a semicolon may stand around a name in an initializer as well: such a name is taken for
the name of a member, and its use is overlooked.
-/

namespace MdxLint

/-! The signs of these programs are signs of the fragment. -/

theorem point_mem_signs : "." ∈ signs := by decide

theorem plus_mem_signs : "+" ∈ signs := by decide

theorem star_mem_signs : "*" ∈ signs := by decide

theorem equals_mem_signs : "=" ∈ signs := by decide

theorem semicolon_mem_signs : ";" ∈ signs := by decide

theorem openParen_mem_signs : "(" ∈ signs := by decide

theorem closeParen_mem_signs : ")" ∈ signs := by decide

theorem openBrace_mem_signs : "\x7b" ∈ signs := by decide

theorem closeBrace_mem_signs : "\x7d" ∈ signs := by decide

theorem class_mem_keywords : "class" ∈ keywords := by decide

/-- Expressions of names, numbers, members, calls, parentheses, sums and products, and lists of
arguments. -/
inductive Formula : Cat → Type where
  | name (x : Name) : Formula .expr
  | number (d : Digits) : Formula .expr
  | member (e : Formula .expr) (x : Name) : Formula .expr
  | call (f : Formula .expr) (es : Formula (.args true)) : Formula .expr
  | group (e : Formula .expr) : Formula .expr
  | add (a b : Formula .expr) : Formula .expr
  | mul (a b : Formula .expr) : Formula .expr
  | noArgs {b : Bool} : Formula (.args b)
  | arg {b : Bool} (e : Formula .expr) (es : Formula (.args false)) : Formula (.args b)

structure Spot where
  /-- In an initializer of a class, outside of all parentheses. -/
  bare : Bool
  /-- Directly behind a star. -/
  star : Bool
  /-- Directly before a semicolon or a list of arguments. -/
  stop : Bool

namespace Spot

def inner : Spot := ⟨false, false, false⟩

def initializer : Spot := ⟨true, false, true⟩

def hides (s : Spot) : Bool := s.bare && s.star && s.stop

def left (s : Spot) : Spot := { s with stop := false }

def right (s : Spot) (star : Bool) : Spot := { s with star }

def callee (s : Spot) : Spot := { s with stop := true }

end Spot

namespace Formula

def pieces : {c : Cat} → Formula c → Spot → List Piece
  | _, name x, s => [.word x.toIdentifier (if s.hides then .outer else .uses)]
  | _, number d, _ => [.number d]
  | _, member e x, s => e.pieces s.left ++ [.sign "." point_mem_signs, .plain x]
  | _, call f es, s => f.pieces s.callee ++ [.sign "(" openParen_mem_signs] ++ es.pieces .inner ++
    [.sign ")" closeParen_mem_signs]
  | _, group e, _ =>
    [.sign "(" openParen_mem_signs] ++ e.pieces .inner ++ [.sign ")" closeParen_mem_signs]
  | _, add a b, s => a.pieces s.left ++ [.sign "+" plus_mem_signs] ++ b.pieces (s.right false)
  | _, mul a b, s => a.pieces s.left ++ [.sign "*" star_mem_signs] ++ b.pieces (s.right true)
  | _, noArgs, _ => []
  | .args first, arg e es, _ => comma first ++ e.pieces .inner ++ es.pieces .inner

def words : {c : Cat} → Formula c → Spot → List (String × Bool)
  | _, name x, s => [(x.text, s.hides)]
  | _, number _, _ => []
  | _, member e _, s => e.words s.left
  | _, call f es, s => f.words s.callee ++ es.words .inner
  | _, group e, _ => e.words .inner
  | _, add a b, s => a.words s.left ++ b.words (s.right false)
  | _, mul a b, s => a.words s.left ++ b.words (s.right true)
  | _, noArgs, _ => []
  | _, arg e es, _ => e.words .inner ++ es.words .inner

def size {c : Cat} (t : Formula c) : Nat := (t.pieces .inner).length

@[simp] theorem length_pieces {c : Cat} (t : Formula c) (s : Spot) :
    (t.pieces s).length = t.size := by
  suffices h : ∀ s s', (t.pieces s).length = (t.pieces s').length from h s .inner
  induction t with
  | name | number | group | noArgs | arg => exact fun _ _ => rfl
  | member e x ih => intro s s'; simp [pieces, ih s.left s'.left]
  | call f es ih _ => intro s s'; simp [pieces, ih s.callee s'.callee]
  | add a b iha ihb =>
    intro s s'
    simp [pieces, iha s.left s'.left, ihb (s.right false) (s'.right false)]
  | mul a b iha ihb =>
    intro s s'
    simp [pieces, iha s.left s'.left, ihb (s.right true) (s'.right true)]

theorem nested {c : Cat} (t : Formula c) (s : Spot) : Nested (t.pieces s) := by
  induction t generalizing s <;>
    simp only [pieces, List.cons_append, List.nil_append, List.append_assoc]
  case name | number => exact .cons rfl .nil
  case member ih => exact (ih _).append (.cons rfl (.cons rfl .nil))
  case call ih ihes => exact (ih _).append (.wrap .round (ihes _) .nil)
  case group ih => exact .wrap .round (ih _) .nil
  case add iha ihb => exact (iha _).append (.cons rfl (ihb _))
  case mul iha ihb => exact (iha _).append (.cons rfl (ihb _))
  case noArgs => exact .nil
  case arg ih ihes => exact ((ih _).append (ihes _)).comma_append _

theorem ends_headD (t : Formula (.args false)) (s : Spot) {next : Piece} (h : next.ends = true) :
    ((t.pieces s).head?.getD next).ends = true := by
  cases t with
  | noArgs => exact h
  | arg => rfl

theorem fit {c : Cat} (t : Formula c) (s : Spot) {prev next : Piece} (h : c.Between prev next) :
    Piece.Fit prev next (t.pieces s) := by
  -- an expression that something else than a colon or a brace follows
  have expr {prev next : Piece} (hp : prev.admits = true) (hn : next.ends = true) :
      Cat.expr.Between prev next :=
    ⟨hp, (Piece.ne_of_ends hn).2, fun h => ((Piece.ne_of_ends hn).1 h).elim⟩
  induction t generalizing s prev next <;>
    simp only [pieces, List.cons_append, List.nil_append, List.append_assoc]
  case name x =>
    cases s.hides with
    | true => exact ⟨trivial, trivial⟩
    | false => exact ⟨Piece.fits_uses.2 ⟨h.1, h.2.2⟩, trivial⟩
  case number => exact ⟨trivial, trivial⟩
  case member ih => simpa using ih _ ⟨h.1, by simp, by simp⟩
  case call ih ihes =>
    simpa using ⟨ih _ ⟨h.1, by simp, by simp⟩, ihes _ ⟨by simp [Piece.lead], by simp⟩, h.2.1⟩
  case group ih => simpa using ⟨ih _ (expr (by simp) (by simp)), h.2.1⟩
  case add iha ihb =>
    simpa using ⟨iha _ ⟨h.1, by simp, by simp⟩, ihb _ ⟨by simp, h.2.1, by simp⟩⟩
  case mul iha ihb =>
    simpa using ⟨iha _ ⟨h.1, by simp, by simp⟩, ihb _ ⟨by simp, h.2.1, by simp⟩⟩
  case noArgs => trivial
  case arg es ih ihes =>
    refine .comma ?_
    simpa using ⟨ih _ (expr h.1 (es.ends_headD _ h.2)), ihes _ ⟨rfl, h.2⟩⟩

/-! ## Names -/

theorem namesOf_uses {c : Cat} (t : Formula c) (s : Spot) :
    namesOf [.uses, .lost] (t.pieces s) = ((t.words s).filter (!·.2)).map Prod.fst := by
  induction t generalizing s <;>
    simp only [pieces, words, namesOf_nil, namesOf_append, namesOf_word, namesOf_plain, namesOf_sign,
      namesOf_number, namesOf_comma, List.filter_append, List.map_append, List.append_nil,
      List.nil_append, *]
  case name x => cases s.hides <;> simp
  case number => rfl
  case member => simp
  case noArgs => rfl

theorem namesOf_binds {c : Cat} (t : Formula c) (s : Spot) : namesOf [.binds] (t.pieces s) = [] := by
  induction t generalizing s <;>
    simp only [pieces, namesOf_nil, namesOf_append, namesOf_word, namesOf_plain, namesOf_sign,
      namesOf_number, namesOf_comma, List.append_nil, *]
  case name x => cases s.hides <;> simp
  case member => simp

theorem map_words {c : Cat} (t : Formula c) (s s' : Spot) :
    (t.words s).map Prod.fst = (t.words s').map Prod.fst := by
  induction t generalizing s s' with
  | name | number | group | noArgs | arg => rfl
  | member e x ih => exact ih _ _
  | call f es ih _ => simp only [words, List.map_append, ih s.callee s'.callee]
  | add a b iha ihb =>
    simp only [words, List.map_append, iha s.left s'.left, ihb (s.right false) (s'.right false)]
  | mul a b iha ihb =>
    simp only [words, List.map_append, iha s.left s'.left, ihb (s.right true) (s'.right true)]

theorem words_seen {c : Cat} (t : Formula c) {s : Spot} (hs : s.bare = false) :
    ∀ w ∈ t.words s, w.2 = false := by
  induction t generalizing s with
  | name x => exact List.forall_mem_singleton.2 (by simp [Spot.hides, hs])
  | number | noArgs => exact List.forall_mem_nil _
  | member e x ih => exact ih (s := s.left) hs
  | call f es ih ihes => exact List.forall_mem_append.2 ⟨ih (s := s.callee) hs, ihes rfl⟩
  | group e ih => exact ih rfl
  | add a b iha ihb =>
    exact List.forall_mem_append.2 ⟨iha (s := s.left) hs, ihb (s := s.right false) hs⟩
  | mul a b iha ihb =>
    exact List.forall_mem_append.2 ⟨iha (s := s.left) hs, ihb (s := s.right true) hs⟩
  | arg e es ih ihes => exact List.forall_mem_append.2 ⟨ih rfl, ihes rfl⟩

end Formula

/-- A class whose fields have these names and initializers. -/
abbrev Fields := List (Name × Formula .expr)

def fieldPieces (f : Name × Formula .expr) : List Piece :=
  [.word f.1.toIdentifier .outer, .sign "=" equals_mem_signs] ++ f.2.pieces .initializer ++
    [.sign ";" semicolon_mem_signs]

/-- The pieces of a class with fields. -/
def classPieces (x : Name) (fs : Fields) : List Piece :=
  [.keyword "class" class_mem_keywords, .binder true x, .sign "\x7b" openBrace_mem_signs] ++
    fs.flatMap fieldPieces ++ [.sign "\x7d" closeBrace_mem_signs]

/-- The pieces of a statement in parentheses. -/
def groupPieces (f : Name × Formula .expr) : List Piece :=
  [.sign "(" openParen_mem_signs] ++ f.2.pieces .inner ++
    [.sign ")" closeParen_mem_signs, .sign ";" semicolon_mem_signs]

/-- The names that the initializers use, and whether each use is overlooked. -/
def Fields.words (fs : Fields) : List (String × Bool) :=
  fs.flatMap fun f => f.2.words .initializer

end MdxLint
