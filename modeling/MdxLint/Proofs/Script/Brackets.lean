import MdxLint.Script.Nesting
import Mathlib.Data.List.Nodup

/-! # Partners of brackets

The pairs that `bracketPairs` finds name every bracket at most once, so that looking up partners
gives back exactly the pairs. A balanced run of tokens leaves the brackets open that were open
before it, wherever it stands, and the two ends of a group around such a run are partners.
-/

namespace MdxLint

theorem Token.isPunct_of_kind_ne {t : Token} (h : t.kind ≠ .punctuator) (p : String) :
    t.isPunct p = false := by simp [isPunct, h]

theorem Token.opens_of_kind_ne {t : Token} (h : t.kind ≠ .punctuator) : t.opens = false := by
  simp [opens, h]

theorem Token.closes_of_kind_ne {t : Token} (h : t.kind ≠ .punctuator) : t.closes = false := by
  simp [closes, h]

namespace Token

/-- The token is a bracket. -/
def isBracket (t : Token) : Bool := t.opens || t.closes

theorem isBracket_of_kind_ne {t : Token} (h : t.kind ≠ .punctuator) : t.isBracket = false := by
  rw [isBracket, opens_of_kind_ne h, closes_of_kind_ne h, Bool.or_false]

theorem kind_ne_of_isPunct {t : Token} {p : String} (h : t.isPunct p = true) :
    t.kind ≠ .template := by
  intro hk
  simp [isPunct, hk] at h

theorem isPunct_opener {t : Token} {b : Bracket} (ht : t.kind = .punctuator)
    (h : Bracket.ofOpener? t.text = some b) : t.isPunct b.opener = true := by
  unfold Bracket.ofOpener? at h
  split at h
  case h_4 => cases h
  all_goals
    cases h
    simp [isPunct, Bracket.opener, *]

theorem isPunct_closer {t : Token} {b : Bracket} (ht : t.kind = .punctuator)
    (h : Bracket.ofCloser? t.text = some b) : t.isPunct b.closer = true := by
  unfold Bracket.ofCloser? at h
  split at h
  case h_4 => cases h
  all_goals
    cases h
    simp [isPunct, Bracket.closer, *]

theorem opens_of_isPunct {t : Token} {b : Bracket} (hb : b ≠ .substitution)
    (h : t.isPunct b.opener = true) : t.opens = true ∧ t.closes = false := by
  simp only [isPunct, Bool.and_eq_true, beq_iff_eq] at h
  cases b with
  | substitution => exact (hb rfl).elim
  | _ => simp [opens, closes, h, Bracket.opener, Bracket.ofOpener?, Bracket.ofCloser?]

theorem closes_eq_false_of_opens {t : Token} (h : t.opens = true) : t.closes = false := by
  obtain ⟨hk, ho⟩ := Bool.and_eq_true_iff.1 h
  unfold Bracket.ofOpener? at ho
  split at ho
  case h_4 => cases ho
  all_goals simp [closes, Bracket.ofCloser?, *]

theorem closes_of_isPunct {t : Token} {b : Bracket} (hb : b ≠ .substitution)
    (h : t.isPunct b.closer = true) : t.opens = false ∧ t.closes = true := by
  simp only [isPunct, Bool.and_eq_true, beq_iff_eq] at h
  cases b with
  | substitution => exact (hb rfl).elim
  | _ => simp [opens, closes, h, Bracket.closer, Bracket.ofOpener?, Bracket.ofCloser?]

end Token

def endsOf (ps : List (Nat × Nat)) : List Nat := ps.flatMap fun p => [p.1, p.2]

@[simp] theorem endsOf_nil : endsOf [] = [] := rfl

@[simp] theorem endsOf_cons (p : Nat × Nat) (ps : List (Nat × Nat)) :
    endsOf (p :: ps) = p.1 :: p.2 :: endsOf ps := rfl

theorem endsOf_append (ps qs : List (Nat × Nat)) : endsOf (ps ++ qs) = endsOf ps ++ endsOf qs :=
  List.flatMap_append

theorem mem_endsOf {ps : List (Nat × Nat)} {k : Nat} :
    k ∈ endsOf ps ↔ ∃ j, (k, j) ∈ ps ∨ (j, k) ∈ ps := by
  induction ps with
  | nil => simp
  | cons p ps ih =>
    obtain ⟨a, b⟩ := p
    simp only [endsOf_cons, List.mem_cons, ih, Prod.mk.injEq]
    constructor
    · rintro (rfl | rfl | ⟨j, h | h⟩)
      · exact ⟨b, .inl (.inl ⟨rfl, rfl⟩)⟩
      · exact ⟨a, .inr (.inl ⟨rfl, rfl⟩)⟩
      · exact ⟨j, .inl (.inr h)⟩
      · exact ⟨j, .inr (.inr h)⟩
    · rintro ⟨j, (⟨rfl, -⟩ | h) | (⟨-, rfl⟩ | h)⟩
      · exact .inl rfl
      · exact .inr (.inr ⟨j, .inl h⟩)
      · exact .inr (.inl rfl)
      · exact .inr (.inr ⟨j, .inr h⟩)

section Pairs

variable {i o c : Nat} {stack : List Nat} {ts : List Token}

/-- A pair ends at a closing bracket, and begins at one that was open or at an opening one. -/
theorem mem_bracketPairs (h : (o, c) ∈ bracketPairs i stack ts) :
    (i ≤ c ∧ (ts[c - i]?).any Token.closes) ∧
      (o ∈ stack ∨ (i ≤ o ∧ o < c ∧ (ts[o - i]?).any Token.opens)) := by
  induction ts generalizing i stack with
  | nil => simp [bracketPairs] at h
  | cons t ts ih =>
    -- what the rest of the tokens says of a pair, seen from the token before them
    have shift {stack' : List Nat} (h : (o, c) ∈ bracketPairs (i + 1) stack' ts) :
        (i ≤ c ∧ ((t :: ts)[c - i]?).any Token.closes) ∧
          (o ∈ stack' ∨ (i ≤ o ∧ i < o ∧ o < c ∧ ((t :: ts)[o - i]?).any Token.opens)) := by
      obtain ⟨⟨hc, hcl⟩, ho⟩ := ih h
      refine ⟨⟨by omega, ?_⟩, ho.imp_right ?_⟩
      · rw [show c - i = c - (i + 1) + 1 by omega]
        exact hcl
      · rintro ⟨h₁, h₂, h₃⟩
        refine ⟨by omega, by omega, h₂, ?_⟩
        rw [show o - i = o - (i + 1) + 1 by omega]
        exact h₃
    unfold bracketPairs at h
    split at h
    case isTrue hop =>
      obtain ⟨hc, ho⟩ := shift h
      refine ⟨hc, ?_⟩
      rcases ho with ho | ⟨h₁, -, h₂, h₃⟩
      · rcases List.mem_cons.1 ho with rfl | ho
        · have := (ih h).1.1
          exact .inr ⟨Nat.le_refl _, by omega, by simpa using hop⟩
        · exact .inl ho
      · exact .inr ⟨h₁, h₂, h₃⟩
    case isFalse =>
      split at h
      case isTrue hcl =>
        cases stack with
        | nil =>
          obtain ⟨hc, ho⟩ := shift h
          exact ⟨hc, ho.imp_right fun ⟨h₁, _, h₂, h₃⟩ => ⟨h₁, h₂, h₃⟩⟩
        | cons s rest =>
          rcases List.mem_cons.1 h with h | h
          · cases h
            exact ⟨⟨Nat.le_refl _, by simpa using hcl⟩, .inl (List.mem_cons_self ..)⟩
          · obtain ⟨hc, ho⟩ := shift h
            refine ⟨hc, ?_⟩
            rcases ho with ho | ⟨h₁, _, h₂, h₃⟩
            · exact .inl (List.mem_cons_of_mem _ ho)
            · exact .inr ⟨h₁, h₂, h₃⟩
      case isFalse =>
        obtain ⟨hc, ho⟩ := shift h
        exact ⟨hc, ho.imp_right fun ⟨h₁, _, h₂, h₃⟩ => ⟨h₁, h₂, h₃⟩⟩

theorem mem_endsOf_bracketPairs {k : Nat} (h : k ∈ endsOf (bracketPairs i stack ts)) :
    k ∈ stack ∨ i ≤ k := by
  obtain ⟨j, h | h⟩ := mem_endsOf.1 h
  · exact (mem_bracketPairs h).2.imp_right And.left
  · exact .inr (mem_bracketPairs h).1.1

theorem nodup_endsOf_bracketPairs (hs : stack.Nodup) (hlt : ∀ k ∈ stack, k < i) :
    (endsOf (bracketPairs i stack ts)).Nodup := by
  induction ts generalizing i stack with
  | nil => simp [bracketPairs]
  | cons t ts ih =>
    have up {stack' : List Nat} (h : stack' ⊆ stack) : ∀ k ∈ stack', k < i + 1 :=
      fun k hk => Nat.lt_succ_of_lt (hlt k (h hk))
    unfold bracketPairs
    split
    · refine ih (List.nodup_cons.2 ⟨fun h => Nat.lt_irrefl _ (hlt i h), hs⟩) ?_
      intro k hk
      rcases List.mem_cons.1 hk with rfl | hk
      · exact Nat.lt_succ_self _
      · exact up (List.Subset.refl _) k hk
    · split
      · cases stack with
        | nil => exact ih hs (up (List.Subset.refl _))
        | cons s rest =>
          obtain ⟨hsr, hr⟩ := List.nodup_cons.1 hs
          have hsi : s < i := hlt s (List.mem_cons_self ..)
          have hir : i ∉ rest := fun h => Nat.lt_irrefl _ (hlt i (List.mem_cons_of_mem _ h))
          have hrest := ih hr (up (List.subset_cons_self ..))
          rw [endsOf_cons, List.nodup_cons, List.nodup_cons, List.mem_cons]
          refine ⟨?_, ?_, hrest⟩
          · rintro (h | h)
            · exact Nat.ne_of_lt hsi h
            · exact (mem_endsOf_bracketPairs h).elim hsr fun h => by omega
          · intro h
            exact (mem_endsOf_bracketPairs h).elim hir fun h => by omega
      · exact ih hs (up (List.Subset.refl _))

theorem bracketPairs_congr {ts' : List Token}
    (h : ts.map (fun t => (t.opens, t.closes)) = ts'.map fun t => (t.opens, t.closes)) :
    bracketPairs i stack ts = bracketPairs i stack ts' := by
  induction ts generalizing i stack ts' with
  | nil =>
    cases ts' with
    | nil => rfl
    | cons => simp at h
  | cons t ts ih =>
    cases ts' with
    | nil => simp at h
    | cons t' ts' =>
      simp only [List.map_cons, List.cons.injEq, Prod.mk.injEq] at h
      obtain ⟨⟨ho, hc⟩, h⟩ := h
      simp only [bracketPairs, ho, hc, ih h]

theorem bracketPairs_cons (i : Nat) (stack : List Nat) (t : Token) (ts : List Token) :
    bracketPairs i stack (t :: ts) =
      if t.opens then bracketPairs (i + 1) (i :: stack) ts
      else if t.closes then
        match stack with
        | [] => bracketPairs (i + 1) [] ts
        | o :: rest => (o, i) :: bracketPairs (i + 1) rest ts
      else bracketPairs (i + 1) stack ts := by
  cases stack <;> simp only [bracketPairs]

/-- Some tokens in front of the others pair up brackets, and leave some of them open. -/
theorem exists_bracketPairs_append (i : Nat) (stack : List Nat) (pre ts : List Token) :
    ∃ ps stack', bracketPairs i stack (pre ++ ts) =
      ps ++ bracketPairs (i + pre.length) stack' ts := by
  induction pre generalizing i stack with
  | nil => exact ⟨[], stack, rfl⟩
  | cons t pre ih =>
    rw [List.cons_append, List.length_cons, show i + (pre.length + 1) = i + 1 + pre.length by omega,
      bracketPairs_cons]
    split
    · exact ih ..
    · split
      · cases stack with
        | nil => exact ih ..
        | cons o rest =>
          obtain ⟨ps, stack', h⟩ := ih (i + 1) rest
          exact ⟨(o, i) :: ps, stack', congrArg ((o, i) :: ·) h⟩
      · exact ih ..

end Pairs

/-- The tokens leave the same brackets open that were open before them, wherever they stand. -/
def Balanced (ts : List Token) : Prop :=
  ∀ i stack rest, ∃ ps, bracketPairs i stack (ts ++ rest) =
    ps ++ bracketPairs (i + ts.length) stack rest

namespace Balanced

theorem nil : Balanced [] := fun _ _ _ => ⟨[], rfl⟩

theorem cons {t : Token} {ts : List Token} (ho : t.opens = false) (hc : t.closes = false)
    (h : Balanced ts) : Balanced (t :: ts) := by
  intro i stack rest
  obtain ⟨ps, hps⟩ := h (i + 1) stack rest
  refine ⟨ps, ?_⟩
  rw [List.cons_append, bracketPairs_cons, if_neg (by simp [ho]), if_neg (by simp [hc]), hps,
    List.length_cons, show i + (ts.length + 1) = i + 1 + ts.length by omega]

theorem append {ts us : List Token} (ht : Balanced ts) (hu : Balanced us) :
    Balanced (ts ++ us) := by
  intro i stack rest
  obtain ⟨ps, hps⟩ := ht i stack (us ++ rest)
  obtain ⟨qs, hqs⟩ := hu (i + ts.length) stack rest
  refine ⟨ps ++ qs, ?_⟩
  rw [List.append_assoc, hps, hqs, List.append_assoc, List.length_append, Nat.add_assoc]

/-- What a group in front of other tokens contributes: its own pair and those inside it. -/
theorem bracketPairs_group {o c : Token} {ts : List Token} (ho : o.opens = true)
    (hc : c.opens = false ∧ c.closes = true) (h : Balanced ts) (i : Nat) (stack : List Nat)
    (rest : List Token) :
    ∃ ps, bracketPairs i stack (o :: (ts ++ c :: rest)) =
      ps ++ (i, i + 1 + ts.length) :: bracketPairs (i + ts.length + 2) stack rest := by
  obtain ⟨ps, hps⟩ := h (i + 1) (i :: stack) (c :: rest)
  refine ⟨ps, ?_⟩
  rw [bracketPairs_cons, if_pos ho, hps, bracketPairs_cons, if_neg (by simp [hc.1]), if_pos hc.2]
  rw [show i + 1 + ts.length + 1 = i + ts.length + 2 by omega]

theorem wrap {o c : Token} {ts us : List Token} (ho : o.opens = true)
    (hc : c.opens = false ∧ c.closes = true) (ht : Balanced ts) (hu : Balanced us) :
    Balanced (o :: (ts ++ c :: us)) := by
  intro i stack rest
  obtain ⟨ps, hps⟩ := bracketPairs_group ho hc ht i stack (us ++ rest)
  obtain ⟨qs, hqs⟩ := hu (i + ts.length + 2) stack rest
  refine ⟨ps ++ (i, i + 1 + ts.length) :: qs, ?_⟩
  rw [List.cons_append, List.append_assoc, List.cons_append, hps, hqs]
  simp only [List.append_assoc, List.cons_append, List.length_cons, List.length_append]
  rw [show i + ts.length + 2 + us.length = i + (ts.length + (us.length + 1) + 1) by omega]

end Balanced

namespace Script

theorem join_foldl_setIfInBounds {ps : List (Nat × Nat)} (hps : (endsOf ps).Nodup)
    (a : Array (Option Nat)) (hin : ∀ k ∈ endsOf ps, k < a.size) (k j : Nat) :
    (ps.foldl (fun a p => (a.setIfInBounds p.1 (some p.2)).setIfInBounds p.2 (some p.1)) a)[k]?.join
        = some j ↔
      ((k, j) ∈ ps ∨ (j, k) ∈ ps) ∨ (k ∉ endsOf ps ∧ a[k]?.join = some j) := by
  induction ps generalizing a with
  | nil => simp
  | cons p ps ih =>
    obtain ⟨x, y⟩ := p
    simp only [endsOf_cons, List.nodup_cons, List.mem_cons, not_or] at hps hin
    obtain ⟨⟨hxy, hx⟩, hy, hps⟩ := hps
    rw [List.foldl_cons, ih hps _ (by simpa using fun k hk => hin k (.inr (.inr hk)))]
    have hxa := hin x (.inl rfl)
    have hya := hin y (.inr (.inl rfl))
    have hne {k j : Nat} (h : (k, j) ∈ ps ∨ (j, k) ∈ ps) : k ∈ endsOf ps := mem_endsOf.2 ⟨j, h⟩
    simp only [Array.getElem?_setIfInBounds, Array.size_setIfInBounds, List.mem_cons,
      Prod.mk.injEq, endsOf_cons, not_or]
    by_cases hky : k = y
    · subst hky
      have hkj : ¬((k, j) ∈ ps ∨ (j, k) ∈ ps) := fun h => hy (hne h)
      simp_all [eq_comm]
    · by_cases hkx : k = x
      · subst hkx
        have hkj : ¬((k, j) ∈ ps ∨ (j, k) ∈ ps) := fun h => hx (hne h)
        simp_all [eq_comm]
      · simp_all [eq_comm]

variable {ts : List Token} {k j : Nat}

theorem tokens_ofTokens : (ofTokens ts).tokens[k]? = ts[k]? := by simp [ofTokens]

theorem partner?_ofTokens :
    (ofTokens ts).partner? k = some j ↔
      (k, j) ∈ bracketPairs 0 [] ts ∨ (j, k) ∈ bracketPairs 0 [] ts := by
  unfold partner? ofTokens partnersOf
  rw [join_foldl_setIfInBounds (nodup_endsOf_bracketPairs List.nodup_nil (by simp))]
  · simp [Array.getElem?_replicate]
    split <;> simp
  · intro k hk
    have size_lt {o c : Nat} (h : (o, c) ∈ bracketPairs 0 [] ts) : o < c ∧ c < ts.length := by
      obtain ⟨⟨-, hc⟩, ho⟩ := mem_bracketPairs h
      refine ⟨by simpa using ho.elim (by simp) fun h => h.2.1, ?_⟩
      by_contra hlt
      rw [Nat.sub_zero, List.getElem?_eq_none (Nat.le_of_not_lt hlt)] at hc
      simp at hc
    rw [Array.size_replicate]
    obtain ⟨j, h | h⟩ := mem_endsOf.1 hk
    · exact Nat.lt_trans (size_lt h).1 (size_lt h).2
    · exact (size_lt h).2

theorem partner?_comm : (ofTokens ts).partner? k = some j ↔ (ofTokens ts).partner? j = some k := by
  rw [partner?_ofTokens, partner?_ofTokens, or_comm]

theorem partner?_cases (h : (ofTokens ts).partner? k = some j) :
    (k < j ∧ (ts[k]?).any Token.opens ∧ (ts[j]?).any Token.closes) ∨
      (j < k ∧ (ts[k]?).any Token.closes ∧ (ts[j]?).any Token.opens) := by
  have ordered {o c : Nat} (h : (o, c) ∈ bracketPairs 0 [] ts) :
      o < c ∧ (ts[o]?).any Token.opens ∧ (ts[c]?).any Token.closes := by
    obtain ⟨⟨-, hc⟩, ho | ⟨-, hlt, ho⟩⟩ := mem_bracketPairs h
    · simp at ho
    · exact ⟨hlt, ho, hc⟩
  rcases partner?_ofTokens.1 h with h | h
  · exact .inl (ordered h)
  · obtain ⟨hlt, ho, hc⟩ := ordered h
    exact .inr ⟨hlt, hc, ho⟩

theorem partner?_of_group {pre inner post : List Token} {o c : Token} (ho : o.opens = true)
    (hc : c.opens = false ∧ c.closes = true) (h : Balanced inner) :
    (ofTokens (pre ++ o :: (inner ++ c :: post))).partner? pre.length =
      some (pre.length + 1 + inner.length) := by
  rw [partner?_ofTokens]
  refine .inl ?_
  obtain ⟨ps, stack, hpre⟩ :=
    exists_bracketPairs_append 0 [] pre (o :: (inner ++ c :: post))
  obtain ⟨qs, hgroup⟩ := Balanced.bracketPairs_group ho hc h (0 + pre.length) stack post
  rw [hpre, hgroup]
  simp

end Script

end MdxLint
