import MdxLint.Proofs.Script.Brackets

/-! # Matchings

Whatever the tokens are, the partners that they get are a matching of brackets: pairs of an opening
and a later closing one that never cross. No bracket between the two ends of a pair is without a
partner there, and no opening bracket and later closing one are both without one.
-/

namespace MdxLint

/-- The partners of tokens are pairs of brackets. -/
structure IsMatching (ts : List Token) (partner? : Nat → Option Nat) : Prop where
  symm : ∀ {i j}, partner? i = some j → partner? j = some i
  ends : ∀ {i j}, partner? i = some j →
    (i < j ∧ (ts[i]?).any Token.opens ∧ (ts[j]?).any Token.closes) ∨
      (j < i ∧ (ts[i]?).any Token.closes ∧ (ts[j]?).any Token.opens)
  apart : ∀ {o c o' c'}, partner? o = some c → partner? o' = some c' → o < c → o' < c' →
    (o = o' ∧ c = c') ∨ c < o' ∨ c' < o ∨ (o < o' ∧ c' < c) ∨ (o' < o ∧ c < c')
  inner : ∀ {o c k}, partner? o = some c → o < k → k < c → (ts[k]?).any Token.isBracket →
    ∃ j, partner? k = some j ∧ o < j ∧ j < c
  full : ∀ {o c}, (ts[o]?).any Token.opens → (ts[c]?).any Token.closes → o < c →
    (∃ j, partner? o = some j) ∨ ∃ j, partner? c = some j

section Inner

variable {i o c k : Nat} {stack : List Nat} {t : Token} {ts : List Token}

/-- The token at `k` is one of the stack, or one behind it of which `p` holds. -/
def Pending (p : Token → Bool) (i : Nat) (stack : List Nat) (ts : List Token) (k : Nat) : Prop :=
  k ∈ stack ∨ i ≤ k ∧ (ts[k - i]?).any p

theorem Pending.push {p : Token → Bool} (h : Pending p i stack ts k) (s : Nat) :
    Pending p i (s :: stack) ts k :=
  h.imp_left (List.mem_cons_of_mem s)

theorem pending_cons {p : Token → Bool} :
    Pending p i stack (t :: ts) k ↔ (k = i ∧ p t = true) ∨ Pending p (i + 1) stack ts k := by
  unfold Pending
  constructor
  · rintro (hk | ⟨hik, hb⟩)
    · exact .inr (.inl hk)
    · obtain rfl | hik := Nat.eq_or_lt_of_le hik
      · exact .inl ⟨rfl, by simpa using hb⟩
      · rw [show k - i = k - (i + 1) + 1 by omega] at hb
        exact .inr (.inr ⟨hik, hb⟩)
  · rintro (⟨rfl, hb⟩ | hk | ⟨hik, hb⟩)
    · exact .inr ⟨Nat.le_refl k, by simpa using hb⟩
    · exact .inl hk
    · rw [show k - (i + 1) = k - i - 1 by omega] at hb
      refine .inr ⟨Nat.le_of_lt hik, ?_⟩
      rw [show k - i = k - i - 1 + 1 by omega]
      exact hb

/-- A bracket between the ends of a pair has its partner there, even one that was open before. -/
theorem exists_partner_between (hs : stack.Pairwise (· > ·)) (hlt : ∀ s ∈ stack, s < i)
    (h : (o, c) ∈ bracketPairs i stack ts) (hok : o < k) (hkc : k < c)
    (hk : Pending Token.isBracket i stack ts k) :
    ∃ j, ((k, j) ∈ bracketPairs i stack ts ∨ (j, k) ∈ bracketPairs i stack ts) ∧ o < j ∧ j < c := by
  induction ts generalizing i stack with
  | nil => simp [bracketPairs] at h
  | cons t ts ih =>
    have up : ∀ s ∈ stack, s < i + 1 := fun s hs => Nat.lt_succ_of_lt (hlt s hs)
    have split := pending_cons.1 hk
    rw [bracketPairs_cons] at h ⊢
    split at h
    case isTrue ho =>
      rw [if_pos ho]
      refine ih (List.pairwise_cons.2 ⟨hlt, hs⟩) ?_ h ?_
      · rw [List.forall_mem_cons]
        exact ⟨Nat.lt_succ_self i, up⟩
      · rcases split with ⟨rfl, -⟩ | hk
        · exact .inl (List.mem_cons_self ..)
        · exact hk.push i
    case isFalse ho =>
      rw [if_neg ho]
      split at h
      case isTrue hc =>
        rw [if_pos hc]
        cases stack with
        | nil =>
          have hio : i + 1 ≤ o := ((mem_bracketPairs h).2.resolve_left List.not_mem_nil).1
          exact ih hs up h (split.resolve_left (by omega))
        | cons s rest =>
          obtain ⟨hsr, hrest⟩ := List.pairwise_cons.1 hs
          rw [List.forall_mem_cons] at hlt up
          rcases List.mem_cons.1 h with heq | h
          · -- nothing is open above the bracket that the first token closes
            cases heq
            rcases hk with hk | ⟨hik, -⟩
            · rcases List.mem_cons.1 hk with rfl | hk
              · omega
              · have := hsr k hk
                omega
            · omega
          · have hic : i + 1 ≤ c := (mem_bracketPairs h).1.1
            have ho : o ∈ rest ∨ i + 1 ≤ o := (mem_bracketPairs h).2.imp_right And.left
            rcases split with ⟨rfl, -⟩ | hk | hk
            · have hos : o < s := hsr o (ho.resolve_right (by omega))
              exact ⟨s, .inr (List.mem_cons_self ..), hos, by omega⟩
            · rcases List.mem_cons.1 hk with rfl | hk
              · exact ⟨i, .inl (List.mem_cons_self ..), by omega, hic⟩
              · obtain ⟨j, hj, hbetween⟩ := ih hrest up.2 h (.inl hk)
                exact ⟨j, hj.imp (List.mem_cons_of_mem _) (List.mem_cons_of_mem _), hbetween⟩
            · obtain ⟨j, hj, hbetween⟩ := ih hrest up.2 h (.inr hk)
              exact ⟨j, hj.imp (List.mem_cons_of_mem _) (List.mem_cons_of_mem _), hbetween⟩
      case isFalse hc =>
        rw [if_neg hc]
        refine ih hs up h (split.resolve_left ?_)
        rintro ⟨-, hb⟩
        simp [Token.isBracket, ho, hc] at hb

theorem mem_endsOf_or (ho : Pending Token.opens i stack ts o)
    (hc : Pending Token.closes i [] ts c) (hoc : o < c) :
    o ∈ endsOf (bracketPairs i stack ts) ∨ c ∈ endsOf (bracketPairs i stack ts) := by
  induction ts generalizing i stack with
  | nil => simp [Pending] at hc
  | cons t ts ih =>
    rw [bracketPairs_cons]
    split
    case isTrue hop =>
      apply ih
      · rcases pending_cons.1 ho with ⟨rfl, -⟩ | ho
        · exact .inl (List.mem_cons_self ..)
        · exact ho.push i
      · refine (pending_cons.1 hc).resolve_left ?_
        rintro ⟨-, hcl⟩
        rw [Token.closes_eq_false_of_opens hop] at hcl
        cases hcl
    case isFalse hop =>
      have ho' : Pending Token.opens (i + 1) stack ts o :=
        (pending_cons.1 ho).resolve_left fun h => hop h.2
      split
      case isTrue hcl =>
        cases stack with
        | nil =>
          have hio : i + 1 ≤ o := (ho'.resolve_left List.not_mem_nil).1
          exact ih ho' ((pending_cons.1 hc).resolve_left (by omega))
        | cons s rest =>
          have behind {k : Nat} (hk : k ∈ endsOf (bracketPairs (i + 1) rest ts)) :
              k ∈ endsOf ((s, i) :: bracketPairs (i + 1) rest ts) :=
            List.mem_cons_of_mem s (List.mem_cons_of_mem i hk)
          rcases pending_cons.1 hc with ⟨rfl, -⟩ | hc
          · exact .inr (List.mem_cons_of_mem s (List.mem_cons_self ..))
          · rcases ho' with ho | ho
            · rcases List.mem_cons.1 ho with rfl | ho
              · exact .inl (List.mem_cons_self ..)
              · exact (ih (.inl ho) hc).imp behind behind
            · exact (ih (.inr ho) hc).imp behind behind
      case isFalse hcl =>
        exact ih ho' ((pending_cons.1 hc).resolve_left fun h => hcl h.2)

end Inner

namespace Script

variable {ts : List Token} {o c k : Nat}

theorem isBracket_of_partner? {j : Nat} (h : (ofTokens ts).partner? k = some j) :
    (ts[k]?).any Token.isBracket := by
  have hany : (ts[k]?).any Token.opens ∨ (ts[k]?).any Token.closes := by
    rcases partner?_cases h with ⟨-, hk, -⟩ | ⟨-, hk, -⟩
    · exact .inl hk
    · exact .inr hk
  cases hk : ts[k]? with
  | none => simp [hk] at hany
  | some t => simpa [hk, Token.isBracket] using hany

theorem mem_bracketPairs_of_partner? (h : (ofTokens ts).partner? o = some c) (hoc : o < c) :
    (o, c) ∈ bracketPairs 0 [] ts := by
  rcases partner?_ofTokens.1 h with h | h
  · exact h
  · have := (mem_bracketPairs h).2.resolve_left List.not_mem_nil
    omega

theorem exists_partner?_between (h : (ofTokens ts).partner? o = some c) (hok : o < k)
    (hkc : k < c) (hk : (ts[k]?).any Token.isBracket) :
    ∃ j, (ofTokens ts).partner? k = some j ∧ o < j ∧ j < c := by
  have hmem : (o, c) ∈ bracketPairs 0 [] ts := mem_bracketPairs_of_partner? h (by omega)
  obtain ⟨j, hj, hbetween⟩ := exists_partner_between List.Pairwise.nil (by simp) hmem hok hkc
    (.inr ⟨Nat.zero_le k, hk⟩)
  exact ⟨j, partner?_ofTokens.2 hj, hbetween⟩

theorem isMatching_ofTokens (ts : List Token) : IsMatching ts (ofTokens ts).partner? := by
  have nested {o c o' c' : Nat} (h : (ofTokens ts).partner? o = some c)
      (h' : (ofTokens ts).partner? o' = some c') (hoc : o < c) (hoc' : o' < c') (hlt : o < o') :
      c < o' ∨ c' < c := by
    obtain hco | rfl | hco := Nat.lt_trichotomy c o'
    · exact .inl hco
    · rw [partner?_comm] at h
      rw [h] at h'
      cases h'
      omega
    · obtain ⟨j, hj, -, hjc⟩ := exists_partner?_between h hlt hco (isBracket_of_partner? h')
      rw [h'] at hj
      cases hj
      exact .inr hjc
  constructor
  case symm => exact partner?_comm.1
  case ends => exact partner?_cases
  case inner => exact exists_partner?_between
  case full =>
    intro o c ho hc hoc
    have paired {k : Nat} (hk : k ∈ endsOf (bracketPairs 0 [] ts)) :
        ∃ j, (ofTokens ts).partner? k = some j := by
      obtain ⟨j, hj⟩ := mem_endsOf.1 hk
      exact ⟨j, partner?_ofTokens.2 hj⟩
    have ho' : Pending Token.opens 0 [] ts o := .inr ⟨Nat.zero_le o, ho⟩
    have hc' : Pending Token.closes 0 [] ts c := .inr ⟨Nat.zero_le c, hc⟩
    exact (mem_endsOf_or ho' hc' hoc).imp paired paired
  case apart =>
    intro o c o' c' h h' hoc hoc'
    obtain hlt | rfl | hlt := Nat.lt_trichotomy o o'
    · rcases nested h h' hoc hoc' hlt with hc | hc
      · exact .inr (.inl hc)
      · exact .inr (.inr (.inr (.inl ⟨hlt, hc⟩)))
    · rw [h] at h'
      cases h'
      exact .inl ⟨rfl, rfl⟩
    · rcases nested h' h hoc' hoc hlt with hc | hc
      · exact .inr (.inr (.inl hc))
      · exact .inr (.inr (.inr (.inr ⟨hlt, hc⟩)))

end Script

end MdxLint
