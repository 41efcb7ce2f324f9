import MdxLint.Proofs.Script.Gathered
import MdxLint.Proofs.Script.Matching
import MdxLint.Proofs.Script.Standing

/-! # The entries of a group

A comma parts the entries of the innermost group around it. The entries of a group are the longest
ranges inside it that hold none of its commas: `Cut` tells them from left to right, in the order in
which the script finds them, and `Unparted` tells what each of them is alone.
-/

namespace MdxLint

/-! ## Ranges between marks -/

/-- A non-empty range from `lo` up to `hi` that holds no mark and is part of no longer one. -/
structure Unparted (mark : Nat → Prop) (lo hi : Nat) (e : Span) : Prop where
  nonempty : e.start < e.stop
  within : lo ≤ e.start ∧ e.stop ≤ hi
  free : ∀ k, e.start ≤ k → k < e.stop → ¬mark k
  longest : ∀ a b, lo ≤ a → a ≤ e.start → e.stop ≤ b → b ≤ hi →
    (∀ k, a ≤ k → k < b → ¬mark k) → a = e.start ∧ b = e.stop

/-- The ranges that the marks from an index up to `hi` leave, from left to right. -/
inductive Cut (mark : Nat → Prop) (hi : Nat) : Nat → List Span → Prop
  | last {lo : Nat} (hle : lo ≤ hi) (hfree : ∀ k, lo ≤ k → k < hi → ¬mark k) :
      Cut mark hi lo [⟨lo, hi⟩]
  | cons {lo k : Nat} {es : List Span} (hlo : lo ≤ k) (hhi : k < hi) (hk : mark k)
      (hfree : ∀ j, lo ≤ j → j < k → ¬mark j) (h : Cut mark hi (k + 1) es) :
      Cut mark hi lo (⟨lo, k⟩ :: es)

section Ranges

variable {mark : Nat → Prop} {lo hi k : Nat} {e e' : Span} {es : List Span}

theorem Unparted.absorbs (h : Unparted mark lo hi e) {a b : Nat} (hlo : lo ≤ a) (hhi : b ≤ hi)
    (hfree : ∀ j, a ≤ j → j < b → ¬mark j) (hab : a ≤ k ∧ k < b) (he : e.start ≤ k ∧ k < e.stop) :
    e.start ≤ a ∧ b ≤ e.stop := by
  have hboth : ∀ j, min a e.start ≤ j → j < max b e.stop → ¬mark j := by
    intro j hj hj'
    by_cases hin : a ≤ j ∧ j < b
    · exact hfree j hin.1 hin.2
    · exact h.free j (by omega) (by omega)
  have hwithin := h.within
  have hends := h.longest (min a e.start) (max b e.stop) (by omega) (by omega) (by omega) (by omega)
    hboth
  omega

theorem Unparted.eq_of_meet (h : Unparted mark lo hi e) (h' : Unparted mark lo hi e')
    (he : e.start ≤ k ∧ k < e.stop) (he' : e'.start ≤ k ∧ k < e'.stop) : e = e' := by
  have hin := h.absorbs h'.within.1 h'.within.2 h'.free he' he
  have hin' := h'.absorbs h.within.1 h.within.2 h.free he he'
  obtain ⟨start, stop⟩ := e
  obtain ⟨start', stop'⟩ := e'
  simp only [Span.mk.injEq] at hin hin' ⊢
  omega

namespace Cut

theorem within (h : Cut mark hi lo es) (he : e ∈ es) :
    lo ≤ e.start ∧ e.start ≤ e.stop ∧ e.stop ≤ hi := by
  induction h with
  | last hle =>
    obtain rfl := List.mem_singleton.1 he
    exact ⟨Nat.le_refl _, hle, Nat.le_refl _⟩
  | cons hlo hhi _ _ _ ih =>
    rcases List.mem_cons.1 he with rfl | he
    · exact ⟨Nat.le_refl _, hlo, Nat.le_of_lt hhi⟩
    · obtain ⟨hstart, hrest⟩ := ih he
      exact ⟨by omega, hrest⟩

theorem pairwise (h : Cut mark hi lo es) : es.Pairwise fun e e' => e.stop < e'.start := by
  induction h with
  | last => exact List.pairwise_singleton _ _
  | cons _ _ _ _ h ih => exact List.pairwise_cons.2 ⟨fun _ he => (h.within he).1, ih⟩

theorem free (h : Cut mark hi lo es) (he : e ∈ es) : ∀ k, e.start ≤ k → k < e.stop → ¬mark k := by
  induction h with
  | last _ hfree =>
    obtain rfl := List.mem_singleton.1 he
    exact hfree
  | cons _ _ _ hfree _ ih =>
    rcases List.mem_cons.1 he with rfl | he
    · exact hfree
    · exact ih he

theorem longest (h : Cut mark hi lo es) (he : e ∈ es) : ∀ a b, lo ≤ a → a ≤ e.start →
    e.stop ≤ b → b ≤ hi → (∀ k, a ≤ k → k < b → ¬mark k) → a = e.start ∧ b = e.stop := by
  induction h with
  | last =>
    obtain rfl := List.mem_singleton.1 he
    intro a b hlo ha hb hhi _
    exact ⟨Nat.le_antisymm ha hlo, Nat.le_antisymm hhi hb⟩
  | @cons lo k es hlo _ hk _ h ih =>
    intro a b hloa ha hb hhi hfree
    rcases List.mem_cons.1 he with rfl | he
    · refine ⟨Nat.le_antisymm ha hloa, ?_⟩
      by_contra hne
      exact hfree k (Nat.le_trans ha hlo) (Nat.lt_of_le_of_ne hb (Ne.symm hne)) hk
    · -- the range cannot begin in front of the mark, for it would hold it
      have hstart := h.within he
      have hka : k < a := by
        by_contra hka
        exact hfree k (by omega) (by omega) hk
      exact ih he a b hka ha hb hhi hfree

theorem exists_of_not_mark (h : Cut mark hi lo es) (hlo : lo ≤ k) (hhi : k < hi)
    (hk : ¬mark k) : ∃ e ∈ es, e.start ≤ k ∧ k < e.stop := by
  induction h with
  | last => exact ⟨_, List.mem_singleton_self _, hlo, hhi⟩
  | @cons lo m es _ _ hm _ _ ih =>
    obtain hkm | rfl | hmk := Nat.lt_trichotomy k m
    · exact ⟨_, List.mem_cons_self .., hlo, hkm⟩
    · exact absurd hm hk
    · obtain ⟨e, he, hin⟩ := ih hmk
      exact ⟨e, List.mem_cons_of_mem _ he, hin⟩

/-- The ranges that marks leave, without the empty ones, are the longest ranges without a mark. -/
theorem mem_filter_iff (h : Cut mark hi lo es) :
    e ∈ es.filter (fun e => e.start < e.stop) ↔ Unparted mark lo hi e := by
  have stretch {e : Span} (he : e ∈ es) (hne : e.start < e.stop) : Unparted mark lo hi e :=
    ⟨hne, ⟨(h.within he).1, (h.within he).2.2⟩, h.free he, h.longest he⟩
  rw [List.mem_filter, decide_eq_true_eq]
  constructor
  · rintro ⟨he, hne⟩
    exact stretch he hne
  · intro hs
    have hfirst : e.start ≤ e.start ∧ e.start < e.stop := ⟨Nat.le_refl _, hs.nonempty⟩
    obtain ⟨e', he', hmeet⟩ := h.exists_of_not_mark hs.within.1
      (Nat.lt_of_lt_of_le hs.nonempty hs.within.2) (hs.free _ (Nat.le_refl _) hs.nonempty)
    have hsame := hs.eq_of_meet (stretch he' (by omega)) hfirst hmeet
    exact ⟨hsame ▸ he', hs.nonempty⟩

end Cut

end Ranges

/-! ## Commas of a group -/

namespace Script

/-- The pair of brackets at `o` and `c` is the innermost one around `k`. -/
structure Surrounds (s : Script) (o c k : Nat) : Prop where
  pair : s.partner? o = some c
  between : o < k ∧ k < c
  innermost : ∀ {o' c'}, s.partner? o' = some c' → o' < k → k < c' → o' ≤ o ∧ c ≤ c'

/-- The comma at `k` parts two entries of the group from `o` to `c`. -/
def PartsEntries (s : Script) (o c k : Nat) : Prop := s.isPunct k "," = true ∧ s.Surrounds o c k

/-- The ranges are the entries of the group from `o` to `c`: the longest ones without a comma of the
group, in their order. Every other token of the group stands in one of them, and every group inside
it stands in one as a whole. -/
structure IsEntries (s : Script) (o c : Nat) (es : List Span) : Prop where
  ranges : ∀ e, e ∈ es ↔ Unparted (s.PartsEntries o c) (o + 1) c e
  increasing : es.Pairwise fun e e' => e.stop < e'.start
  covered : ∀ k, o < k → k < c →
    (¬s.PartsEntries o c k ↔ ∃! e, e ∈ es ∧ e.start ≤ k ∧ k < e.stop)
  groups : ∀ o' c', s.partner? o' = some c' → o < o' → o' < c' → c' < c →
    ∃ e ∈ es, e.start ≤ o' ∧ c' < e.stop

section Commas

variable {ts : List Token} {o c o' c' i k start : Nat}

theorem partner?_of_comma (h : (ofTokens ts).isPunct k "," = true) :
    (ofTokens ts).partner? k = none := by
  cases hp : (ofTokens ts).partner? k with
  | none => rfl
  | some j =>
    obtain ⟨t, ht, hbracket⟩ := (Option.any_eq_true ..).1 (isBracket_of_partner? hp)
    rw [isPunct, tokens_ofTokens, ht, Option.any_some] at h
    rw [Token.isBracket_of_isPunct h (by decide)] at hbracket
    cases hbracket

theorem not_partsEntries_of_pair (h : (ofTokens ts).partner? o' = some c') (ho : o < o')
    (hlo : o' ≤ k) (hhi : k ≤ c') : ¬(ofTokens ts).PartsEntries o c k := by
  rintro ⟨hcomma, hinnermost⟩
  have hne : k ≠ o' := by
    rintro rfl
    rw [partner?_of_comma hcomma] at h
    cases h
  have hne' : k ≠ c' := by
    rintro rfl
    rw [partner?_comm, partner?_of_comma hcomma] at h
    cases h
  have := (hinnermost.innermost h (by omega) (by omega)).1
  omega

theorem not_partsEntries_of_extent (ho : o < i) (hcomma : ¬(ofTokens ts).isPunct i "," = true)
    (hlo : i ≤ k) (hhi : k < i + (ofTokens ts).extent i) : ¬(ofTokens ts).PartsEntries o c k := by
  by_cases hgroup : 1 < (ofTokens ts).extent i
  · have hlast := lastOf_add_one (ofTokens ts) i
    exact not_partsEntries_of_pair (partner?_of_one_lt_extent hgroup) ho hlo (by omega)
  · obtain rfl : k = i := by omega
    exact fun h => hcomma h.1

def OnLevel (s : Script) (o i : Nat) : Prop :=
  ∀ o' c', s.partner? o' = some c' → o < o' → o' < c' → i ≤ o' ∨ c' < i

/-- Behind a token, or behind the group that it opens, the place is level again. -/
theorem OnLevel.step (h : (ofTokens ts).OnLevel o i) :
    (ofTokens ts).OnLevel o (i + (ofTokens ts).extent i) := by
  intro o' c' hp ho' hoc'
  have hextent := (ofTokens ts).extent_pos i
  rcases h o' c' hp ho' hoc' with hio | hci
  · obtain rfl | hlt := Nat.eq_or_lt_of_le hio
    · rw [extent, hp]
      dsimp only
      omega
    · by_cases hgroup : 1 < (ofTokens ts).extent i
      · have hpair := partner?_of_one_lt_extent hgroup
        have hlast := lastOf_add_one (ofTokens ts) i
        have hapart := (isMatching_ofTokens ts).apart hpair hp (by omega) hoc'
        omega
      · omega
  · omega

section Inside

variable (hpair : (ofTokens ts).partner? o = some c)

include hpair

theorem OnLevel.surrounds (h : (ofTokens ts).OnLevel o i) (hoi : o < i) (hic : i < c) :
    (ofTokens ts).Surrounds o c i := by
  refine ⟨hpair, ⟨hoi, hic⟩, fun {o' c'} hp ho' hc' => ?_⟩
  have houter : o' ≤ o := by
    by_contra ho
    have := h o' c' hp (by omega) (by omega)
    omega
  have hapart := (isMatching_ofTokens ts).apart hpair hp (by omega) (by omega)
  omega

/-- A token, with the group that it opens, stands in the group around it as a whole. -/
theorem add_extent_le_partner (hoi : o < i) (hic : i < c) : i + (ofTokens ts).extent i ≤ c := by
  by_cases hgroup : 1 < (ofTokens ts).extent i
  · have hp := partner?_of_one_lt_extent hgroup
    obtain ⟨j, hj, -, hjc⟩ := exists_partner?_between hpair hoi hic (isBracket_of_partner? hp)
    rw [hp, Option.some.injEq] at hj
    have := lastOf_add_one (ofTokens ts) i
    omega
  · omega

theorem cut_spansFrom (hlevel : (ofTokens ts).OnLevel o i) (ho : o < start) (hstart : start ≤ i)
    (hi : i ≤ c) (hfree : ∀ k, start ≤ k → k < i → ¬(ofTokens ts).PartsEntries o c k) :
    Cut ((ofTokens ts).PartsEntries o c) c start ((ofTokens ts).spansFrom c start i) := by
  fun_induction spansFrom (ofTokens ts) c start i with
  | case1 start i hic hcomma ih =>
    have hstep := hlevel.step
    rw [extent, partner?_of_comma hcomma] at hstep
    refine .cons hstart hic ⟨hcomma, hlevel.surrounds hpair (by omega) hic⟩ hfree ?_
    exact ih hstep (by omega) (Nat.le_refl _) hic fun k hk hk' => by omega
  | case2 start i hic hcomma ih =>
    have hinside := add_extent_le_partner hpair (Nat.lt_of_lt_of_le ho hstart) hic
    refine ih hlevel.step ho (by omega) hinside fun k hk hk' => ?_
    by_cases hki : k < i
    · exact hfree k hk hki
    · exact not_partsEntries_of_extent (by omega) hcomma (by omega) hk'
  | case3 start i hic =>
    obtain rfl : i = c := by omega
    exact .last hstart hfree

theorem cut_entries (hoc : o < c) : Cut ((ofTokens ts).PartsEntries o c) c (o + 1)
    ((ofTokens ts).spansFrom ((ofTokens ts).lastOf o) (o + 1) (o + 1)) := by
  have hlast : (ofTokens ts).lastOf o = c := by
    rw [lastOf, extent, hpair]
    dsimp only
    omega
  have hlevel : (ofTokens ts).OnLevel o (o + 1) := fun _ _ _ ho' _ => .inl ho'
  rw [hlast]
  exact cut_spansFrom hpair hlevel (Nat.lt_succ_self o) (Nat.le_refl _) hoc fun k hk hk' => by omega

end Inside

theorem lt_of_opens (ho : (ts[o]?).any Token.opens) (hpair : (ofTokens ts).partner? o = some c) :
    o < c := by
  rcases partner?_cases hpair with ⟨hoc, -⟩ | ⟨-, hcloses, -⟩
  · exact hoc
  · obtain ⟨t, ht, hopens⟩ := (Option.any_eq_true ..).1 ho
    rw [ht, Option.any_some, Token.closes_eq_false_of_opens hopens] at hcloses
    cases hcloses

end Commas

/-- The entries that are found in a group of brackets are its entries. -/
theorem isEntries_entriesOf {ts : List Token} {o c : Nat} (ho : (ts[o]?).any Token.opens)
    (hpair : (ofTokens ts).partner? o = some c) :
    (ofTokens ts).IsEntries o c ((ofTokens ts).entriesOf o) := by
  have hcut := cut_entries hpair (lt_of_opens ho hpair)
  have hranges {e : Span} : e ∈ (ofTokens ts).entriesOf o ↔
      Unparted ((ofTokens ts).PartsEntries o c) (o + 1) c e := hcut.mem_filter_iff
  have hcovered {k : Nat} (hok : o < k) (hkc : k < c) (hk : ¬(ofTokens ts).PartsEntries o c k) :
      ∃ e ∈ (ofTokens ts).entriesOf o, e.start ≤ k ∧ k < e.stop := by
    obtain ⟨e, he, hin⟩ := hcut.exists_of_not_mark hok hkc hk
    exact ⟨e, List.mem_filter.2 ⟨he, by simpa using Nat.lt_of_le_of_lt hin.1 hin.2⟩, hin⟩
  constructor
  case ranges => exact fun e => hranges
  case increasing => exact hcut.pairwise.sublist List.filter_sublist
  case covered =>
    intro k hok hkc
    constructor
    · intro hk
      obtain ⟨e, he, hin⟩ := hcovered hok hkc hk
      exact ⟨e, ⟨he, hin⟩, fun e' he' => (hranges.1 he'.1).eq_of_meet (hranges.1 he) he'.2 hin⟩
    · rintro ⟨e, ⟨he, hstart, hstop⟩, -⟩
      exact (hranges.1 he).free k hstart hstop
  case groups =>
    intro o' c' hpair' ho' hoc' hc'
    have hfree {k : Nat} (hlo : o' ≤ k) (hhi : k ≤ c') : ¬(ofTokens ts).PartsEntries o c k :=
      not_partsEntries_of_pair hpair' ho' hlo hhi
    obtain ⟨e, he, hin⟩ := hcovered ho' (by omega) (hfree (Nat.le_refl _) (Nat.le_of_lt hoc'))
    obtain ⟨hstart, hstop⟩ := (hranges.1 he).absorbs (Nat.succ_le_of_lt ho') (Nat.succ_le_of_lt hc')
      (fun j hj hj' => hfree hj (Nat.le_of_lt_succ hj')) ⟨Nat.le_refl _, Nat.lt_succ_of_lt hoc'⟩ hin
    exact ⟨e, he, hstart, hstop⟩

/-- The tokens of `(a,[b,c),,]`, whose brackets do not fit and which has two empty entries. -/
def looseList : List Token :=
  [(.punctuator, "("), (.name, "a"), (.punctuator, ","), (.punctuator, "["), (.name, "b"),
    (.punctuator, ","), (.name, "c"), (.punctuator, ")"), (.punctuator, ","), (.punctuator, ","),
    (.punctuator, "]")].map fun (kind, text) => ⟨kind, text, .origin⟩

theorem isEntries_looseList : (looseList[0]?).any Token.opens ∧
    (ofTokens looseList).partner? 0 = some 10 ∧
    (ofTokens looseList).IsEntries 0 10 [⟨1, 2⟩, ⟨3, 8⟩] := by
  have hopens : (looseList[0]?).any Token.opens := by decide
  have hpair : (ofTokens looseList).partner? 0 = some 10 := by decide +kernel
  have hentries : (ofTokens looseList).entriesOf 0 = [⟨1, 2⟩, ⟨3, 8⟩] := by decide +kernel
  refine ⟨hopens, hpair, ?_⟩
  rw [← hentries]
  exact isEntries_entriesOf hopens hpair

end Script

end MdxLint
