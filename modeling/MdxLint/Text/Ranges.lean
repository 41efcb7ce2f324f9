/-! # Sets of code points

A character class is a list of closed code point ranges in increasing order, so a lookup stops
at the first range that begins beyond the point sought.
-/

namespace MdxLint

abbrev CodeRanges := List (Nat × Nat)

/-- Membership; the ranges after the first one that begins beyond `n` are not looked at. -/
def CodeRanges.contains : CodeRanges → Nat → Bool
  | [], _ => false
  | (lo, hi) :: rest, n => if n < lo then false else n ≤ hi || contains rest n

def CodeRanges.Ordered (rs : CodeRanges) : Prop :=
  rs.Pairwise (fun a b => a.2 < b.1) ∧ ∀ r ∈ rs, r.1 ≤ r.2

theorem CodeRanges.exists_of_contains {rs : CodeRanges} {n : Nat} (h : rs.contains n = true) :
    ∃ r ∈ rs, r.1 ≤ n ∧ n ≤ r.2 := by
  induction rs with
  | nil => simp [contains] at h
  | cons r rest ih =>
    obtain ⟨lo, hi⟩ := r
    simp only [contains] at h
    split at h
    · simp at h
    · rename_i hlo
      simp only [Bool.or_eq_true, decide_eq_true_eq] at h
      rcases h with h | h
      · exact ⟨(lo, hi), List.mem_cons_self, Nat.le_of_not_lt hlo, h⟩
      · obtain ⟨r, hr, hb⟩ := ih h
        exact ⟨r, List.mem_cons_of_mem _ hr, hb⟩

theorem CodeRanges.contains_iff {rs : CodeRanges} {n : Nat} (h : rs.Ordered) :
    rs.contains n = true ↔ ∃ r ∈ rs, r.1 ≤ n ∧ n ≤ r.2 := by
  refine ⟨exists_of_contains, ?_⟩
  rintro ⟨r, hr, hlo, hhi⟩
  induction rs with
  | nil => simp at hr
  | cons q rest ih =>
    have hrest : CodeRanges.Ordered rest :=
      ⟨(List.pairwise_cons.1 h.1).2, fun r hr => h.2 r (List.mem_cons_of_mem _ hr)⟩
    have hq : q.1 ≤ n := by
      rcases List.mem_cons.1 hr with rfl | hr
      · exact hlo
      · have := (List.pairwise_cons.1 h.1).1 r hr
        have := h.2 q List.mem_cons_self
        omega
    simp only [contains, Nat.not_lt.2 hq, if_false, Bool.or_eq_true, decide_eq_true_eq]
    rcases List.mem_cons.1 hr with rfl | hr
    · exact .inl hhi
    · exact .inr (ih hrest hr)

theorem CodeRanges.contains_eq_false_of_apart {rs qs : CodeRanges} {n : Nat}
    (hapart : ∀ r ∈ rs, ∀ q ∈ qs, r.2 < q.1 ∨ q.2 < r.1) (h : rs.contains n = true) :
    qs.contains n = false := by
  cases hq : qs.contains n with
  | false => rfl
  | true =>
    obtain ⟨r, hr, hlo, hhi⟩ := exists_of_contains h
    obtain ⟨q, hq, hlo', hhi'⟩ := exists_of_contains hq
    rcases hapart r hr q hq with h | h
    · omega
    · omega

end MdxLint
