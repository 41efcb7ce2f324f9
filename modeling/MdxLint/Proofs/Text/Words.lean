import Mathlib.Data.List.DropRight
import Mathlib.Data.List.TakeWhile
import MdxLint.Text.Blank
import MdxLint.Text.Split

/-! # Blanks and words

A text has no blanks at its ends exactly if it stays as it is when they are taken away. The words
of such a text are parted by gaps, which are blanks between one word and the next.
-/

namespace MdxLint

variable {cs a b w gap rest : List Char} {c d : Char}

/-! ## Ends without blanks -/

theorem eq_false_of_head?_dropWhile {p : Char → Bool} (h : (cs.dropWhile p).head? = some c) :
    p c = false := by
  have hnot := List.head?_dropWhile_not p cs
  rwa [h] at hnot

theorem getLast?_trimEnd (cs : List Char) : ∀ c ∈ (trimEnd cs).getLast?, isBlank c = false := by
  intro c hc
  have hne : trimEnd cs ≠ [] := fun h => by simp [h] at hc
  have hlast := List.rdropWhile_last_not isBlank cs hne
  rw [List.getLast?_eq_some_getLast hne, Option.mem_some_iff] at hc
  exact hc ▸ Bool.eq_false_iff.2 hlast

theorem getLast?_trim (cs : List Char) : ∀ c ∈ (trim cs).getLast?, isBlank c = false :=
  getLast?_trimEnd (trimStart cs)

theorem head?_trim (cs : List Char) : ∀ c ∈ (trim cs).head?, isBlank c = false := by
  intro c hc
  obtain ⟨rest, hrest⟩ : trim cs <+: trimStart cs := List.rdropWhile_prefix isBlank (trimStart cs)
  have hstart : (cs.dropWhile isBlank).head? = some c := by
    rw [← trimStart, ← hrest, List.head?_append, Option.mem_def.1 hc, Option.some_or]
  exact eq_false_of_head?_dropWhile hstart

/-- A text stays as it is when the blanks at its ends are taken away exactly if there are none. -/
theorem trim_eq_self_iff : trim cs = cs ↔
    (∀ c ∈ cs.head?, isBlank c = false) ∧ ∀ c ∈ cs.getLast?, isBlank c = false := by
  constructor
  · intro h
    rw [← h]
    exact ⟨head?_trim cs, getLast?_trim cs⟩
  · rintro ⟨hhead, hlast⟩
    have hstart : trimStart cs = cs := by
      refine List.dropWhile_eq_self_iff.2 fun hpos => Bool.eq_false_iff.1 (hhead _ ?_)
      rw [List.head?_eq_getElem?, List.getElem?_eq_getElem hpos, Option.mem_def]
    rw [trim, hstart]
    refine List.rdropWhile_eq_self_iff.2 fun hne => Bool.eq_false_iff.1 (hlast _ ?_)
    rw [List.getLast?_eq_some_getLast hne, Option.mem_def]

theorem trim_append_eq_self_iff (ha : a ≠ []) (hb : b ≠ []) (s : List Char) :
    trim (a ++ (s ++ b)) = a ++ (s ++ b) ↔
      (∀ c ∈ a.head?, isBlank c = false) ∧ ∀ c ∈ b.getLast?, isBlank c = false := by
  rw [trim_eq_self_iff, List.head?_append_of_ne_nil a ha,
    List.getLast?_append_of_ne_nil a (List.append_ne_nil_of_right_ne_nil s hb),
    List.getLast?_append_of_ne_nil s hb]

theorem trim_trim (cs : List Char) : trim (trim cs) = trim cs :=
  trim_eq_self_iff.2 ⟨head?_trim cs, getLast?_trim cs⟩

/-! ## Words and gaps -/

structure IsWord (w : List Char) : Prop where
  ne_nil : w ≠ []
  not_blank : ∀ c ∈ w, isBlank c = false

structure IsGap (gap : List Char) : Prop where
  ne_nil : gap ≠ []
  blank : ∀ c ∈ gap, isBlank c = true

theorem IsWord.trim_eq (h : IsWord w) : trim w = w :=
  trim_eq_self_iff.2 ⟨fun c hc => h.not_blank c (List.mem_of_mem_head? hc),
    fun c hc => h.not_blank c (List.mem_of_mem_getLast? hc)⟩

section Fold

variable {isSpace : Char → Bool}

theorem wordsBy_cons_of_gap (hc : isSpace c = true) :
    wordsBy isSpace (c :: cs) = wordsBy isSpace cs := by
  simp [wordsBy, hc]

theorem wordsBy_cons_of_head? (hc : isSpace c = false) (h : ∀ d ∈ cs.head?, isSpace d = true) :
    wordsBy isSpace (c :: cs) = [c] :: wordsBy isSpace cs := by
  cases cs with
  | nil => simp [wordsBy, hc]
  | cons d cs => simp [wordsBy, hc, h d rfl]

theorem wordsBy_cons_cons (hc : isSpace c = false) (hd : isSpace d = false) :
    wordsBy isSpace (c :: d :: cs) = (wordsBy isSpace (d :: cs)).modifyHead (c :: ·) := by
  simp [wordsBy, hc, hd]

end Fold

theorem IsGap.wordsBy_append (h : IsGap gap) (cs : List Char) :
    wordsBy isBlank (gap ++ cs) = wordsBy isBlank cs := by
  have hblank := h.blank
  clear h
  induction gap with
  | nil => rfl
  | cons c gap ih =>
    rw [List.forall_mem_cons] at hblank
    rw [List.cons_append, wordsBy_cons_of_gap hblank.1, ih hblank.2]

theorem IsWord.wordsBy_append (h : IsWord w) (hrest : ∀ c ∈ rest.head?, isBlank c = true) :
    wordsBy isBlank (w ++ rest) = w :: wordsBy isBlank rest := by
  obtain ⟨hne, hword⟩ := h
  induction w with
  | nil => exact absurd rfl hne
  | cons c w ih =>
    rw [List.forall_mem_cons] at hword
    cases w with
    | nil => exact wordsBy_cons_of_head? hword.1 hrest
    | cons d w =>
      have hd := hword.2 d List.mem_cons_self
      rw [List.cons_append, List.cons_append, wordsBy_cons_cons hword.1 hd, ← List.cons_append,
        ih (List.cons_ne_nil d w) hword.2, List.modifyHead_cons]

theorem IsWord.wordsBy_eq (h : IsWord w) : wordsBy isBlank w = [w] := by
  have hwords : wordsBy isBlank (w ++ []) = [w] := h.wordsBy_append (by simp)
  rwa [List.append_nil] at hwords

theorem IsGap.head?_append (h : IsGap gap) (cs : List Char) :
    ∀ c ∈ (gap ++ cs).head?, isBlank c = true := by
  intro c hc
  rw [List.head?_append_of_ne_nil gap h.ne_nil] at hc
  exact h.blank c (List.mem_of_mem_head? hc)

theorem isWord_takeWhile (hne : cs ≠ []) (h : ∀ c ∈ cs.head?, isBlank c = false) :
    IsWord (cs.takeWhile (!isBlank ·)) where
  ne_nil := by
    obtain ⟨c, rest, rfl⟩ := List.exists_cons_of_ne_nil hne
    rw [List.takeWhile_cons_of_pos (by rw [h c rfl, Bool.not_false])]
    exact List.cons_ne_nil _ _
  not_blank c hc := by simpa using List.mem_takeWhile_imp hc

theorem isGap_takeWhile (hne : cs ≠ []) (h : ∀ c ∈ cs.head?, isBlank c = true) :
    IsGap (cs.takeWhile isBlank) where
  ne_nil := by
    obtain ⟨c, rest, rfl⟩ := List.exists_cons_of_ne_nil hne
    rw [List.takeWhile_cons_of_pos (h c rfl)]
    exact List.cons_ne_nil _ _
  blank c hc := List.mem_takeWhile_imp hc

/-- A text without blanks at its ends is one word, or begins with a word and a gap behind which
such a text stands again. -/
theorem isWord_or_exists_gap (h : trim cs = cs) (hne : cs ≠ []) :
    IsWord cs ∨ ∃ w gap rest, IsWord w ∧ IsGap gap ∧ rest ≠ [] ∧ trim rest = rest ∧
      cs = w ++ (gap ++ rest) := by
  obtain ⟨hhead, hlast⟩ := trim_eq_self_iff.1 h
  have hword := isWord_takeWhile hne hhead
  have hparts : cs.takeWhile (!isBlank ·) ++ cs.dropWhile (!isBlank ·) = cs :=
    List.takeWhile_append_dropWhile
  generalize cs.takeWhile (!isBlank ·) = w at hword hparts
  cases htail : cs.dropWhile (!isBlank ·) with
  | nil =>
    rw [htail, List.append_nil] at hparts
    exact .inl (hparts ▸ hword)
  | cons d ds =>
    have hd : ∀ c ∈ (d :: ds).head?, isBlank c = true := fun c hc =>
      Bool.not_eq_eq_eq_not.1 (eq_false_of_head?_dropWhile (htail ▸ hc))
    have hgap := isGap_takeWhile (List.cons_ne_nil d ds) hd
    have hgaps : (d :: ds).takeWhile isBlank ++ (d :: ds).dropWhile isBlank = d :: ds :=
      List.takeWhile_append_dropWhile
    rw [htail, ← hgaps] at hparts
    have hrest : (d :: ds).dropWhile isBlank ≠ [] := by
      intro hnil
      rw [hnil, List.append_nil] at hparts
      have hblank := hgap.blank _ (List.getLast_mem hgap.ne_nil)
      rw [hlast _ (by rw [← hparts, List.getLast?_append_of_ne_nil _ hgap.ne_nil,
        List.getLast?_eq_some_getLast hgap.ne_nil, Option.mem_def])] at hblank
      cases hblank
    refine .inr ⟨w, _, _, hword, hgap, hrest, trim_eq_self_iff.2 ⟨?_, ?_⟩, hparts.symm⟩
    · exact fun c hc => eq_false_of_head?_dropWhile hc
    · rw [← hparts, List.getLast?_append_of_ne_nil _ (List.append_ne_nil_of_right_ne_nil _ hrest),
        List.getLast?_append_of_ne_nil _ hrest] at hlast
      exact hlast

theorem wordsBy_ne_nil (h : trim cs = cs) (hne : cs ≠ []) : wordsBy isBlank cs ≠ [] := by
  rcases isWord_or_exists_gap h hne with hword | ⟨w, gap, rest, hw, hgap, -, -, rfl⟩
  · rw [hword.wordsBy_eq]
    exact List.cons_ne_nil _ _
  · rw [hw.wordsBy_append (hgap.head?_append rest)]
    exact List.cons_ne_nil _ _

theorem wordsBy_eq_singleton_iff (h : trim cs = cs) :
    wordsBy isBlank cs = [a] ↔ cs = a ∧ IsWord a := by
  constructor
  · intro hwords
    have hne : cs ≠ [] := by
      rintro rfl
      cases hwords
    rcases isWord_or_exists_gap h hne with hword | ⟨w, gap, rest, hw, hgap, hrest, htrim, rfl⟩
    · rw [hword.wordsBy_eq, List.singleton_inj] at hwords
      exact ⟨hwords, hwords ▸ hword⟩
    · rw [hw.wordsBy_append (hgap.head?_append rest), hgap.wordsBy_append] at hwords
      exact absurd (List.cons.inj hwords).2 (wordsBy_ne_nil htrim hrest)
  · rintro ⟨rfl, hword⟩
    exact hword.wordsBy_eq

theorem wordsBy_eq_pair_iff (h : trim cs = cs) :
    wordsBy isBlank cs = [a, b] ↔
      ∃ gap, IsWord a ∧ IsGap gap ∧ IsWord b ∧ cs = a ++ (gap ++ b) := by
  constructor
  · intro hwords
    have hne : cs ≠ [] := by
      rintro rfl
      cases hwords
    rcases isWord_or_exists_gap h hne with hword | ⟨w, gap, rest, hw, hgap, hrest, htrim, rfl⟩
    · rw [hword.wordsBy_eq] at hwords
      cases hwords
    · rw [hw.wordsBy_append (hgap.head?_append rest), hgap.wordsBy_append] at hwords
      obtain ⟨rfl, hsecond⟩ := List.cons.inj hwords
      obtain ⟨rfl, hb⟩ := (wordsBy_eq_singleton_iff htrim).1 hsecond
      exact ⟨gap, hw, hgap, hb, rfl⟩
  · rintro ⟨gap, ha, hgap, hb, rfl⟩
    rw [ha.wordsBy_append (hgap.head?_append b), hgap.wordsBy_append, hb.wordsBy_eq]

end MdxLint
