import MdxLint.Proofs.Script.Swap

/-! # What a keyword does that a name would not

Where nothing else takes notice of the exchange, a keyword declares the names that its own
construct announces, and hides the uses that this construct declares or silences and the one
that it makes the label of a jump. Everything else is the same with a name in its place.
-/

namespace MdxLint

namespace Swap

variable (w : Swap)

/-- The names that the construct of the keyword declares. -/
def announced : List String :=
  (Declarations.ofMarks (w.before.marksAt w.index)).declared.map w.before.text

/-- The keyword keeps the token at `j` from being a free use. -/
def hides (j : Nat) : Bool :=
  w.before.text j ∈ w.announced
    || (Declarations.ofMarks (w.before.marksAt w.index)).silent.contains j
    || (j == w.index + 1 && w.before.isJumpLabel j)

variable {w}

theorem mem_announced {x : String} :
    x ∈ w.announced ↔ ∃ j, Mark.declares j ∈ w.before.marksAt w.index ∧ w.before.text j = x := by
  simp [announced]

theorem hides_iff {j : Nat} :
    w.hides j = true ↔ w.before.text j ∈ w.announced ∨
      Mark.silences j ∈ w.before.marksAt w.index ∨
      (j = w.index + 1 ∧ w.before.isJumpLabel j = true) := by
  simp [hides, or_assoc]

theorem text_before_ne_fresh (j : Nat) : w.before.text j ≠ w.fresh := by
  unfold Script.text
  rw [w.tokens_before]
  cases ht : w.tokens[j]? with
  | none =>
    rintro h
    have hs := w.isName
    rw [← h] at hs
    exact absurd hs (by decide +kernel)
  | some t => exact w.unused t (List.mem_of_getElem? ht)

theorem Harmless.not_declares_index (h : w.Harmless) : Mark.declares w.index ∉ w.before.marks := by
  intro hm
  rcases Script.declarable_of_mem_marks hm with hn | has
  · simp at hn
  · obtain ⟨j, hj, p, hp, hpj⟩ := h.lead
    rw [hj, Script.textBefore, if_pos (by omega), Nat.add_sub_cancel,
      (Script.isPunct_iff.1 hpj).2] at has
    exact absurd (has ▸ hp) (by decide)

/-- The declared names are those that the script with the name declares, the name apart, and those
that the keyword announces. -/
theorem Harmless.mem_declaredNames_iff (h : w.Harmless) {x : String} :
    x ∈ w.before.declaredNames ↔
      (x ∈ w.after.declaredNames ∧ x ≠ w.fresh) ∨ x ∈ w.announced := by
  simp only [Script.mem_declaredNames, mem_announced]
  constructor
  · rintro ⟨j, hm, rfl⟩
    have hj : j ≠ w.index := fun he => h.not_declares_index (he ▸ hm)
    rcases (h.mem_marks_iff (m := .declares j) hj).1 hm with hm | hm
    · exact .inl ⟨⟨j, hm, w.text_after hj⟩, text_before_ne_fresh j⟩
    · exact .inr ⟨j, hm, rfl⟩
  · rintro (⟨⟨j, hm, rfl⟩, hx⟩ | ⟨j, hm, rfl⟩)
    · have hj : j ≠ w.index := fun he => hx (by rw [he, w.text_after_self])
      exact ⟨j, (h.mem_marks_iff (m := .declares j) hj).2 (.inl hm), (w.text_after hj).symm⟩
    · exact ⟨j, List.mem_flatMap.2 ⟨_, List.mem_range.2 w.index_lt_size, hm⟩, rfl⟩

/-- What a test of the token before sees, unless it accepts names or keywords. -/
theorem any_before?_congr {f : Token → Bool} (hf : ∀ t : Token, t.kind ≠ .punctuator → f t = false)
    (j : Nat) : (w.after.before? j).any f = (w.before.before? j).any f := by
  by_cases hj : j = w.index + 1
  · subst hj
    simp only [Script.before?, w.tokens_after_self, w.tokens_before, w.found, Option.any_some]
    rw [hf _ w.name_ne_punctuator, hf _ w.keyword_ne_punctuator]
  · rw [w.before?_after hj]

theorem isProperty_after (j : Nat) : w.after.isProperty j = w.before.isProperty j :=
  any_before?_congr (fun t ht => by simp [ht]) j

theorem isKeyOrLabel_after (j : Nat) : w.after.isKeyOrLabel j = w.before.isKeyOrLabel j := by
  unfold Script.isKeyOrLabel
  rw [isPunct_after]
  congr 1
  by_cases hj : j = w.index + 1
  · subst hj
    simp [Script.before?, w.tokens_after_self, w.found, beq_false_of_ne w.name_ne_punctuator,
      beq_false_of_ne w.keyword_ne_punctuator]
  · rw [w.before?_after hj]

theorem isJumpLabel_after (j : Nat) :
    w.after.isJumpLabel j = (w.before.isJumpLabel j && j != w.index + 1) := by
  unfold Script.isJumpLabel
  by_cases hj : j = w.index + 1
  · subst hj
    simp [Script.before?, w.tokens_after_self, name]
  · rw [w.before?_after hj]
    simp [hj]

theorem Harmless.excludes_iff (h : w.Harmless) {j : Nat} (hj : j ≠ w.index) :
    w.before.declarations.excludes j = true ↔
      w.after.declarations.excludes j = true ∨ Mark.declares j ∈ w.before.marksAt w.index ∨
        Mark.silences j ∈ w.before.marksAt w.index := by
  rw [Script.declarations, Script.declarations, Declarations.excludes_ofMarks,
    Declarations.excludes_ofMarks, h.mem_marks_iff (m := .declares j) hj,
    h.mem_marks_iff (m := .silences j) hj]
  tauto

/-- The free uses are those of the script with the name that the keyword does not hide. -/
theorem Harmless.freeUses_before (h : w.Harmless) :
    w.before.freeUses = w.after.freeUses.filter fun j => !w.hides j := by
  unfold Script.freeUses
  dsimp only
  rw [List.filter_filter, size_after]
  refine List.filter_congr fun j _ => ?_
  by_cases hj : j = w.index
  · subst hj
    simp [h.no_use]
  · have names : w.before.text j ∈ w.before.declaredNames ↔
        w.after.text j ∈ w.after.declaredNames ∨ w.before.text j ∈ w.announced := by
      rw [h.mem_declaredNames_iff, w.text_after hj]
      simp [text_before_ne_fresh]
    have declared : Mark.declares j ∈ w.before.marksAt w.index → w.before.text j ∈ w.announced :=
      fun hm => mem_announced.2 ⟨j, hm, rfl⟩
    have excluded := h.excludes_iff hj
    have not_iff {b : Bool} : (!b) = true ↔ ¬b = true := by cases b <;> simp
    have hne {a b : Nat} : (a != b) = true ↔ a ≠ b := bne_iff_ne
    simp only [Script.declaredNames] at names
    rw [Bool.eq_iff_iff]
    simp only [Script.isUse, isProperty_after, isKeyOrLabel_after, isJumpLabel_after,
      w.isName_after hj, w.text_after hj, Bool.and_eq_true, not_iff, decide_eq_true_eq, hides_iff,
      names, excluded, hne]
    grind

theorem Harmless.freeNames_eq (h : w.Harmless) (hh : ∀ j ∈ w.after.freeUses, w.hides j = false) :
    w.after.freeNames = w.before.freeNames := by
  have huses : w.before.freeUses = w.after.freeUses := by
    rw [h.freeUses_before, List.filter_eq_self]
    intro j hj
    rw [hh j hj, Bool.not_false]
  unfold Script.freeNames
  rw [huses]
  congr 1
  refine List.map_congr_left fun j hj => w.text_after ?_
  rintro rfl
  rw [← huses] at hj
  have := (List.mem_filter.1 hj).2
  simp at this

end Swap

end MdxLint
