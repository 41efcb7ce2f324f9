import Mathlib.Data.List.Infix
import MdxLint.Text.Split

/-! # Parting texts at a separator

A text is cut at the first place where a separator stands, and what is left behind the place is cut
again. When every part of a text has the separator behind it, the cuts give the parts back if and
only if no part begins the separator early: neither inside the part nor where the part meets the
separator behind it.
-/

namespace MdxLint

variable {part sep cs a b : List Char}

/-! ## The first place -/

theorem cutAt?_eq_some_iff_le : cutAt? part cs = some (a, b) ↔
    cs = a ++ (part ++ b) ∧ ∀ x, x ++ part <+: cs → a.length ≤ x.length := by
  induction cs generalizing a with
  | nil =>
    by_cases hp : part = []
    · simp +contextual [cutAt?, hp, eq_comm]
    · simp [cutAt?, hp]
  | cons c cs ih =>
    rw [cutAt?]
    by_cases hp : part <+: c :: cs
    · rw [if_pos (List.isPrefixOf_iff_prefix.2 hp), Option.some_inj, Prod.mk.injEq]
      constructor
      · rintro ⟨rfl, rfl⟩
        exact ⟨List.prefix_iff_eq_append.1 hp |>.symm, fun _ _ => Nat.zero_le _⟩
      · rintro ⟨hcs, hfirst⟩
        obtain rfl : a = [] := List.length_eq_zero_iff.1 (Nat.le_zero.1 (hfirst [] hp))
        rw [hcs]
        exact ⟨rfl, List.drop_left⟩
    · rw [if_neg (mt List.isPrefixOf_iff_prefix.1 hp), Option.map_eq_some_iff]
      constructor
      · rintro ⟨⟨a', b'⟩, hcut, heq⟩
        obtain ⟨rfl, rfl⟩ := Prod.mk.inj heq
        obtain ⟨hcs, hfirst⟩ := ih.1 hcut
        refine ⟨congrArg (c :: ·) hcs, fun x hx => ?_⟩
        cases x with
        | nil => exact absurd hx hp
        | cons d x => exact Nat.succ_le_succ (hfirst x (List.cons_prefix_cons.1 hx).2)
      · rintro ⟨hcs, hfirst⟩
        cases a with
        | nil => exact absurd (hcs ▸ List.prefix_append part b) hp
        | cons d a =>
          obtain ⟨rfl, htail⟩ := List.cons.inj hcs
          refine ⟨(a, b), ih.2 ⟨htail, fun x hx => ?_⟩, rfl⟩
          exact Nat.le_of_succ_le_succ (hfirst (c :: x) (List.cons_prefix_cons.2 ⟨rfl, hx⟩))

/-- The place is the first one exactly if the separator does not stand before its own last
character. -/
theorem cutAt?_eq_some_iff (hpart : part ≠ []) : cutAt? part cs = some (a, b) ↔
    cs = a ++ (part ++ b) ∧ ¬ part <:+: a ++ part.dropLast := by
  rw [cutAt?_eq_some_iff_le]
  have hlength : part.dropLast.length + 1 = part.length := by
    rw [List.length_dropLast]
    exact Nat.sub_add_cancel (List.length_pos_iff.2 hpart)
  refine and_congr_right fun hcs => ?_
  have hbefore : a ++ part.dropLast <+: cs := by
    rw [hcs, List.prefix_append_right_inj]
    exact (List.dropLast_prefix part).trans (List.prefix_append part b)
  constructor
  · rintro hfirst ⟨x, y, hxy⟩
    have hle := hfirst x ((hxy ▸ List.prefix_append _ y).trans hbefore)
    have := congrArg List.length hxy
    simp only [List.length_append] at this
    omega
  · intro hnot x hx
    by_contra hlt
    refine hnot ((List.suffix_append x part).isInfix.trans
      (List.prefix_of_prefix_length_le hx hbefore ?_).isInfix)
    simp only [List.length_append]
    omega

theorem append_inj_of_first {a' b' : List Char} (hpart : part ≠ [])
    (h : a ++ (part ++ b) = a' ++ (part ++ b')) (ha : ¬ part <:+: a ++ part.dropLast)
    (ha' : ¬ part <:+: a' ++ part.dropLast) : a = a' ∧ b = b' := by
  have hcut : cutAt? part (a ++ (part ++ b)) = some (a, b) :=
    (cutAt?_eq_some_iff hpart).2 ⟨rfl, ha⟩
  rw [(cutAt?_eq_some_iff hpart).2 ⟨h, ha'⟩, Option.some_inj, Prod.mk.injEq] at hcut
  exact ⟨hcut.1.symm, hcut.2.symm⟩

theorem cutAt?_eq_none_iff : cutAt? part cs = none ↔ ¬ part <:+: cs := by
  induction cs with
  | nil => simp [cutAt?]
  | cons c cs ih =>
    rw [cutAt?, List.infix_cons_iff, ← List.isPrefixOf_iff_prefix]
    by_cases hp : part.isPrefixOf (c :: cs) = true
    · simp [hp]
    · simp [hp, ih]

/-! ## All places -/

/-- The parts of a text between the places of the separator, looked for from the left; an empty
separator parts nothing. -/
def partsAt (sep cs : List Char) : List (List Char) :=
  match cutAt? sep cs with
  | none => [cs]
  | some (a, b) => if b.length < cs.length then a :: partsAt sep b else [cs]
termination_by cs.length

theorem partsAt_ne_nil (sep cs : List Char) : partsAt sep cs ≠ [] := by
  rw [partsAt]
  split
  · exact List.cons_ne_nil _ _
  · split <;> exact List.cons_ne_nil _ _

/-- The parts put together at the separator give the text. -/
theorem intercalate_partsAt (sep cs : List Char) : sep.intercalate (partsAt sep cs) = cs := by
  fun_induction partsAt sep cs with
  | case1 cs => rw [List.intercalate_singleton]
  | case2 cs a b hcut _ ih =>
    obtain ⟨p, ps, hps⟩ := List.exists_cons_of_ne_nil (partsAt_ne_nil sep b)
    rw [(cutAt?_eq_some_iff_le.1 hcut).1, hps, List.intercalate_cons_cons, ← hps, ih,
      List.append_assoc]
  | case3 cs => rw [List.intercalate_singleton]

theorem partsAt_of_infix_free (h : ¬ sep <:+: cs) : partsAt sep cs = [cs] := by
  rw [partsAt, cutAt?_eq_none_iff.2 h]

theorem partsAt_of_cutAt? (hsep : sep ≠ []) (h : cutAt? sep cs = some (a, b)) :
    partsAt sep cs = a :: partsAt sep b := by
  have hpos := List.length_pos_iff.2 hsep
  have hlt : b.length < cs.length := by
    rw [((cutAt?_eq_some_iff hsep).1 h).1]
    simp only [List.length_append]
    omega
  rw [partsAt, h]
  exact if_pos hlt

/-- Parts that have the separator behind them are found again exactly if none begins it early. -/
theorem partsAt_flatMap_iff (hsep : sep ≠ []) (ps : List (List Char)) :
    partsAt sep (ps.flatMap (· ++ sep)) = ps ++ [[]] ↔
      ∀ p ∈ ps, ¬ sep <:+: p ++ sep.dropLast := by
  induction ps with
  | nil => simpa using partsAt_of_infix_free (mt List.infix_nil.1 hsep)
  | cons p ps ih =>
    rw [List.flatMap_cons, List.append_assoc, List.forall_mem_cons, ← ih, List.cons_append]
    cases hcut : cutAt? sep (p ++ (sep ++ ps.flatMap (· ++ sep))) with
    | none =>
      refine absurd ⟨p, ps.flatMap (· ++ sep), ?_⟩ (cutAt?_eq_none_iff.1 hcut)
      rw [List.append_assoc]
    | some r =>
      obtain ⟨a, b⟩ := r
      rw [partsAt_of_cutAt? hsep hcut, List.cons.injEq]
      obtain ⟨hab, hfirst⟩ := (cutAt?_eq_some_iff hsep).1 hcut
      constructor
      · rintro ⟨rfl, hb⟩
        obtain rfl := List.append_cancel_left (List.append_cancel_left hab)
        exact ⟨hfirst, hb⟩
      · rintro ⟨hp, hps⟩
        obtain ⟨rfl, rfl⟩ := append_inj_of_first hsep hab hp hfirst
        exact ⟨rfl, hps⟩

/-! ## Lines between two marks -/

section Lines

variable {mark : Char} {line s : List Char}

theorem infix_append_iff_of_not_mem (h : mark ∉ line) :
    s ++ [mark] <:+: cs ++ line ↔ s ++ [mark] <:+: cs := by
  induction line using List.reverseRecOn with
  | nil => rw [List.append_nil]
  | append_singleton line c ih =>
    rw [List.mem_append, not_or, List.mem_singleton] at h
    have hlast : ¬ s ++ [mark] <:+ cs ++ line ++ [c] := by
      rintro ⟨t, ht⟩
      rw [← List.append_assoc] at ht
      exact h.2 (List.singleton_inj.1 (List.append_inj_right' ht rfl))
    rw [← List.append_assoc, List.infix_concat_iff, or_iff_right hlast, ih h.1]

theorem head?_splitOn_eq_some_iff (h : mark ∉ line) :
    (cs.splitOn mark).head? = some line ↔ line ++ [mark] <+: cs ++ [mark] := by
  induction cs generalizing line with
  | nil =>
    cases line with
    | nil => simp
    | cons d line => simp [List.ne_of_not_mem_cons h |>.symm]
  | cons c cs ih =>
    rw [List.splitOn_cons_eq_if_modifyHead, List.cons_append]
    by_cases hc : c = mark
    · subst hc
      cases line with
      | nil => simp
      | cons d line => simp [List.ne_of_not_mem_cons h |>.symm]
    · rw [if_neg (mt beq_iff_eq.1 hc), List.head?_modifyHead, Option.map_eq_some_iff]
      cases line with
      | nil => simp [Ne.symm hc]
      | cons d line =>
        rw [List.cons_append, List.cons_prefix_cons, ← ih (List.not_mem_of_not_mem_cons h)]
        constructor
        · rintro ⟨line', hhead, heq⟩
          obtain ⟨rfl, rfl⟩ := List.cons.inj heq
          exact ⟨rfl, hhead⟩
        · rintro ⟨rfl, hhead⟩
          exact ⟨line, hhead, rfl⟩

/-- A line that is not the first one has a mark before it and one behind it, if only that which
ends the text. -/
theorem mem_tail_splitOn_iff (h : mark ∉ line) :
    line ∈ (cs.splitOn mark).tail ↔ mark :: (line ++ [mark]) <:+: cs ++ [mark] := by
  induction cs with
  | nil => simp [List.infix_cons_iff]
  | cons c cs ih =>
    rw [List.splitOn_cons_eq_if_modifyHead, List.cons_append, List.infix_cons_iff, ← ih,
      List.cons_prefix_cons]
    by_cases hc : c = mark
    · subst hc
      rw [if_pos BEq.rfl, List.tail_cons, and_iff_right rfl, ← head?_splitOn_eq_some_iff h]
      cases hlines : cs.splitOn c with
      | nil => exact absurd hlines (List.splitOn_ne_nil c cs)
      | cons first lines => simp [eq_comm]
    · rw [if_neg (mt beq_iff_eq.1 hc), List.tail_modifyHead,
        or_iff_right fun hmark => hc hmark.1.symm]

/-- Parts that have a line of its own behind them are found again exactly if none has such a line,
unless as its first one. -/
theorem partsAt_line_iff (h : mark ∉ line) (ps : List (List Char)) :
    partsAt (mark :: (line ++ [mark])) (ps.flatMap (· ++ mark :: (line ++ [mark]))) = ps ++ [[]] ↔
      ∀ p ∈ ps, line ∉ (p.splitOn mark).tail := by
  rw [partsAt_flatMap_iff (List.cons_ne_nil _ _)]
  refine forall₂_congr fun p _ => not_congr ?_
  rw [mem_tail_splitOn_iff h, ← List.cons_append, List.dropLast_concat,
    List.append_cons p, infix_append_iff_of_not_mem h]

end Lines

end MdxLint
