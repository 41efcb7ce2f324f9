import MdxLint.Proofs.Mdx.Attribute

/-! # Lines of texts put together

If a line ends where two texts meet, their lines are the lines of both texts together. So the lines
of a text can be told from any place where one of them begins.
-/

namespace MdxLint.Mdx

def BreakBetween (x y : List Char) : Prop :=
  y ≠ [] → ∀ c ∈ x.getLast?, isLineBreak c = true ∧ (c = '\r' → y.head? ≠ some '\n')

def IsLines (ls : List (List Char)) : Prop := splitLines ls.flatten = ls

section Meeting

variable {x y z : List Char} {c : Char}

theorem breakBetween_nil_left (y : List Char) : BreakBetween [] y := by
  rintro - c ⟨⟩

theorem breakBetween_nil_right (x : List Char) : BreakBetween x [] := fun h => (h rfl).elim

theorem BreakBetween.of_suffix (h : BreakBetween (z ++ x) y) : BreakBetween x y := by
  intro hy c hc
  apply h hy
  rw [List.getLast?_append, Option.mem_def.1 hc]
  rfl

theorem BreakBetween.append (h : BreakBetween x y) (hx : x ≠ []) : BreakBetween (z ++ x) y := by
  intro hy c hc
  apply h hy
  rwa [List.getLast?_append_of_ne_nil _ hx] at hc

theorem BreakBetween.of_prefix (h : BreakBetween x (y ++ z)) : BreakBetween x y := by
  intro hy c hc
  rw [← List.head?_append_of_ne_nil y hy]
  exact h (List.append_ne_nil_of_left_ne_nil hy z) c hc

theorem splitLines_ne_nil (h : x ≠ []) : splitLines x ≠ [] := by
  intro hnil
  have hflat := flatten_splitLines x
  rw [hnil] at hflat
  exact h hflat.symm

theorem splitLines_append (h : BreakBetween x y) :
    splitLines (x ++ y) = splitLines x ++ splitLines y := by
  fun_induction splitLines x with
  | case1 => rfl
  | case2 cs ih =>
    rw [List.cons_append, List.cons_append, splitLines, ih (h.of_suffix (z := ['\r', '\n']))]
    rfl
  | case3 c cs hcr hbreak ih =>
    have hnext : c = '\r' → (cs ++ y).head? ≠ some '\n' := by
      rintro rfl
      cases cs with
      | nil =>
        cases y with
        | nil => exact fun hd => by cases hd
        | cons d y => exact (h (List.cons_ne_nil _ _) '\r' rfl).2 rfl
      | cons d cs =>
        intro hd
        exact hcr cs rfl (by rw [Option.some.inj hd])
    rw [List.cons_append, splitLines_cons hnext, if_pos hbreak, ih (h.of_suffix (z := [c]))]
    rfl
  | case4 c cs hcr hbreak ih =>
    cases cs with
    | nil =>
      cases y with
      | nil =>
        rw [List.append_nil, splitLines_cons (by simp), if_neg hbreak, splitLines, List.append_nil]
      | cons d y => exact absurd (h (List.cons_ne_nil _ _) c rfl).1 hbreak
    | cons d cs =>
      have hnext : c = '\r' → (d :: cs ++ y).head? ≠ some '\n' := by
        rintro rfl hd
        exact hcr cs rfl (by rw [Option.some.inj hd])
      obtain ⟨l, ls, hls⟩ := List.exists_cons_of_ne_nil (splitLines_ne_nil (List.cons_ne_nil d cs))
      rw [List.cons_append, splitLines_cons hnext, if_neg hbreak, ih (h.of_suffix (z := [c])), hls]
      rfl

theorem splitLines_eq_cons {cs l : List Char} {ls : List (List Char)}
    (h : splitLines cs = l :: ls) :
    cs = l ++ ls.flatten ∧ splitLines l = [l] ∧ IsLines ls ∧ BreakBetween l ls.flatten := by
  have hcs : cs = l ++ ls.flatten := by rw [← flatten_splitLines cs, h, List.flatten_cons]
  refine ⟨hcs, ?_⟩
  unfold IsLines
  fun_induction splitLines cs generalizing l ls with
  | case1 => cases h
  | case2 cs ih =>
    cases h
    rw [flatten_splitLines]
    refine ⟨rfl, rfl, fun _ c hc => ?_⟩
    cases hc
    exact ⟨by decide, fun h => absurd h (by decide)⟩
  | case3 c cs hcr hbreak ih =>
    cases h
    rw [flatten_splitLines]
    refine ⟨?_, rfl, fun _ d hd => ?_⟩
    · rw [splitLines_cons (by simp), if_pos hbreak, splitLines]
    · cases hd
      refine ⟨hbreak, ?_⟩
      rintro rfl hd
      obtain ⟨cs, rfl⟩ := List.head?_eq_some_iff.1 hd
      exact hcr cs rfl rfl
  | case4 c cs hcr hbreak ih =>
    cases hls : splitLines cs with
    | nil =>
      rw [hls] at h
      cases h
      refine ⟨?_, rfl, breakBetween_nil_right _⟩
      rw [splitLines_cons (by simp), if_neg hbreak, splitLines]
      rfl
    | cons l' ls' =>
      rw [hls] at h
      cases h
      obtain ⟨hl, hrest, hmeet⟩ := ih hls (List.cons.inj hcs).2
      have hne : l' ≠ [] := by
        rintro rfl
        cases hl
      refine ⟨?_, hrest, hmeet.append (z := [c]) hne⟩
      rw [splitLines_cons, if_neg hbreak, hl]
      · rfl
      · rintro rfl hd
        obtain ⟨l', rfl⟩ := List.head?_eq_some_iff.1 hd
        exact hcr _ rfl (List.cons.inj hcs).2

theorem isLines_splitLines (cs : List Char) : IsLines (splitLines cs) := by
  rw [IsLines, flatten_splitLines]

theorem isLines_append_iff {a b : List (List Char)} :
    IsLines (a ++ b) ↔ IsLines a ∧ IsLines b ∧ BreakBetween a.flatten b.flatten := by
  constructor
  · intro h
    induction a with
    | nil => exact ⟨rfl, h, breakBetween_nil_left _⟩
    | cons l a ih =>
      obtain ⟨-, hl, hrest, hmeet⟩ := splitLines_eq_cons h
      change IsLines (a ++ b) at hrest
      change BreakBetween l (a ++ b).flatten at hmeet
      obtain ⟨ha, hb, hab⟩ := ih hrest
      rw [List.flatten_append] at hmeet
      rw [List.flatten_cons]
      refine ⟨?_, hb, ?_⟩
      · rw [IsLines, List.flatten_cons, splitLines_append hmeet.of_prefix, ha, hl]
        rfl
      · by_cases hne : a.flatten = []
        · rwa [hne, List.append_nil, ← List.nil_append b.flatten, ← hne]
        · exact hab.append hne
  · rintro ⟨ha, hb, hab⟩
    rw [IsLines, List.flatten_append, splitLines_append hab, ha, hb]

theorem IsLines.ne_nil_of_mem {ls : List (List Char)} {l : List Char} (h : IsLines ls)
    (hl : l ∈ ls) : l ≠ [] := by
  obtain ⟨a, b, rfl⟩ := List.append_of_mem hl
  obtain ⟨-, hb, -⟩ := isLines_append_iff.1 h
  obtain ⟨-, hsingle, -, -⟩ := splitLines_eq_cons hb
  rintro rfl
  cases hsingle

theorem exists_of_mem_splitLines {cs l : List Char} (h : l ∈ splitLines cs) :
    ∃ pre post, cs = pre ++ (l ++ post) ∧ BreakBetween pre (l ++ post) := by
  obtain ⟨a, b, hab⟩ := List.append_of_mem h
  have hlines := isLines_splitLines cs
  rw [hab, isLines_append_iff] at hlines
  refine ⟨a.flatten, b.flatten, ?_, hlines.2.2⟩
  rw [← flatten_splitLines cs, hab, List.flatten_append, List.flatten_cons]

end Meeting

end MdxLint.Mdx
