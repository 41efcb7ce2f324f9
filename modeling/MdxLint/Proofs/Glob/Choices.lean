import MdxLint.Proofs.Glob.Branching
import Mathlib.Algebra.Ring.Nat
import Mathlib.Data.List.Forall2

/-! # Choices in order

If no group is nested in another, a pattern has one text for each way to choose an alternative in
every group, and it is expanded to them in the lexicographic order of the choices.
-/

namespace MdxLint.Glob

/-- The groups of a pattern that are nested in no other. -/
def Branching.groups : Branching → List Options
  | .stop => []
  | .char _ _ rest => rest.groups
  | .group ps rest => ps :: rest.groups

/-- No group is nested in another. -/
def Branching.Flat (p : Branching) : Prop :=
  ∀ ps ∈ p.groups, ∀ q ∈ ps.toList, q.groups = []

/-- How many alternatives each of the groups has. -/
def Branching.sizes (p : Branching) : List Nat := p.groups.map fun ps => ps.toList.length

/-- The pattern with one alternative in place of each group, told by its number. -/
def Branching.pick : Branching → List Nat → List Char
  | .stop, _ => []
  | .char c _ rest, choice => c :: rest.pick choice
  | .group _ _, [] => []
  | .group ps rest, i :: choice => (ps.toList[i]?.elim [] Branching.text) ++ rest.pick choice

/-- The ways to choose a number below each bound, the first number changing last. -/
def choices : List Nat → List (List Nat)
  | [] => [[]]
  | n :: ns => (List.range n).flatMap fun i => (choices ns).map (i :: ·)

theorem mem_choices_iff {choice ns : List Nat} :
    choice ∈ choices ns ↔ List.Forall₂ (· < ·) choice ns := by
  induction ns generalizing choice with
  | nil => exact List.mem_singleton.trans List.forall₂_nil_right_iff.symm
  | cons n ns ih =>
    simp only [choices, List.mem_flatMap, List.mem_range, List.mem_map]
    constructor
    · rintro ⟨i, hi, rest, hrest, rfl⟩
      exact .cons hi (ih.1 hrest)
    · rintro (_ | ⟨hi, hrest⟩)
      exact ⟨_, hi, _, ih.2 hrest, rfl⟩

theorem pairwise_choices (ns : List Nat) : (choices ns).Pairwise (· < ·) := by
  induction ns with
  | nil => exact List.pairwise_singleton _ _
  | cons n ns ih =>
    rw [choices, List.pairwise_flatMap]
    constructor
    · intro i _
      rw [List.pairwise_map]
      exact ih.imp fun h => List.cons_lt_cons_iff.2 (.inr ⟨rfl, h⟩)
    · apply List.pairwise_lt_range.imp
      intro i j hij x hx y hy
      obtain ⟨x, -, rfl⟩ := List.mem_map.1 hx
      obtain ⟨y, -, rfl⟩ := List.mem_map.1 hy
      exact List.cons_lt_cons_iff.2 (.inl hij)

theorem length_choices (ns : List Nat) : (choices ns).length = ns.prod := by
  induction ns with
  | nil => rfl
  | cons n ns ih => simp [choices, List.length_flatMap, ih]

theorem flatMap_range {α β : Type} {xs : List α} {f : α → List β} {g : Nat → List β}
    (h : ∀ i (hi : i < xs.length), g i = f xs[i]) :
    (List.range xs.length).flatMap g = xs.flatMap f := by
  induction xs generalizing g with
  | nil => rfl
  | cons x xs ih =>
    have htail := ih (g := fun i => g (i + 1)) fun i hi => h (i + 1) (Nat.succ_lt_succ hi)
    rw [List.length_cons, List.range_succ_eq_map, List.flatMap_cons, List.flatMap_cons,
      List.flatMap_map, h 0 (Nat.succ_pos _), htail]
    rfl

theorem Branching.words_of_groups_eq_nil (p : Branching) (h : p.groups = []) :
    p.words = [p.text] := by
  cases p with
  | stop => rfl
  | char c hc rest => rw [words, rest.words_of_groups_eq_nil h]; rfl
  | group ps rest => cases h

theorem Options.rows_of_flat (ps : Options) (h : ∀ q ∈ ps.toList, q.groups = []) :
    ps.rows = [ps.toList.map Branching.text] := by
  cases ps with
  | pair p q =>
    have hp := p.words_of_groups_eq_nil (h p List.mem_cons_self)
    have hq := q.words_of_groups_eq_nil (h q (by simp [Options.toList]))
    rw [Options.rows, hp, hq]
    rfl
  | cons p ps =>
    obtain ⟨hp, hps⟩ := List.forall_mem_cons.1 h
    rw [Options.rows, p.words_of_groups_eq_nil hp, ps.rows_of_flat hps]
    rfl

theorem Branching.words_of_flat (p : Branching) (h : p.Flat) :
    p.words = (choices p.sizes).map p.pick := by
  cases p with
  | stop => rfl
  | char c hc rest =>
    rw [words, rest.words_of_flat h, List.map_map]
    rfl
  | group ps rest =>
    obtain ⟨hps, hrest⟩ := List.forall_mem_cons.1 h
    calc (Branching.group ps rest).words
      _ = ps.toList.flatMap fun q => rest.words.map (q.text ++ ·) := by
        simp [words, ps.rows_of_flat hps, List.flatMap_map]
      _ = ps.toList.flatMap fun q => (choices rest.sizes).map fun choice =>
            q.text ++ rest.pick choice := by
        simp [rest.words_of_flat hrest, Function.comp_def]
      _ = (List.range ps.toList.length).flatMap fun i => (choices rest.sizes).map fun choice =>
            (Branching.group ps rest).pick (i :: choice) :=
        (flatMap_range fun i hi => by simp [pick, hi]).symm
      _ = (choices (Branching.group ps rest).sizes).map (Branching.group ps rest).pick := by
        simp [choices, sizes, groups, List.map_flatMap, Function.comp_def]

/-- The expansion of a pattern gives the texts that come from it by choosing one alternative in each
group met. If no group is nested in another, these are in the lexicographic order of the choices,
one for each choice. -/
theorem expand_branching (p : Branching) :
    (∀ w, w ∈ expand p.text ↔ p.Denotes w) ∧
      (p.Flat →
        (∃ order : List (List Nat), order.Pairwise (· < ·) ∧
          (∀ choice, choice ∈ order ↔ List.Forall₂ (· < ·) choice p.sizes) ∧
          expand p.text = order.map p.pick) ∧
        (expand p.text).length = p.sizes.prod) := by
  rw [p.expand_text]
  refine ⟨fun w => Branching.mem_words_iff, fun hflat => ?_⟩
  have hwords := p.words_of_flat hflat
  constructor
  · exact ⟨choices p.sizes, pairwise_choices _, fun choice => mem_choices_iff, hwords⟩
  · rw [hwords, List.length_map, length_choices]

def twoGroups : Branching :=
  .group (.pair (.char 'a' (by decide) .stop) (.char 'b' (by decide) .stop)) <|
    .char 'x' (by decide) <|
      .group (.cons (.char 'c' (by decide) .stop)
        (.pair (.char 'd' (by decide) .stop) (.char 'e' (by decide) .stop))) .stop

theorem expand_twoGroups :
    twoGroups.text = "\x7ba,b\x7dx\x7bc,d,e\x7d".toList ∧ twoGroups.Flat ∧
      (∃ order : List (List Nat), order.Pairwise (· < ·) ∧
        (∀ choice, choice ∈ order ↔ List.Forall₂ (· < ·) choice [2, 3]) ∧
        expand twoGroups.text = order.map twoGroups.pick) ∧
      (expand twoGroups.text).length = 6 := by
  have hflat : twoGroups.Flat := by
    simp [twoGroups, Branching.Flat, Branching.groups, Options.toList]
  exact ⟨by decide, hflat, (expand_branching twoGroups).2 hflat⟩

end MdxLint.Glob
