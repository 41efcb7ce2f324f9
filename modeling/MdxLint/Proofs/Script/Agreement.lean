import MdxLint.Proofs.Script.Matching
import MdxLint.Proofs.Script.Reading

/-! # The reader's brackets and their partners

The reader keeps brackets and substitutions on one stack, by their kinds; the partners of brackets
come from a stack of indexes that knows neither kinds nor substitutions. In a scanned text the
second is the first without its substitutions, so that partners fit each other and stand in the
same substitutions.
-/

namespace MdxLint

def bracketsOf (st : List (Bracket × Nat)) : List Nat :=
  (st.filter fun e => e.1 ≠ .substitution).map Prod.snd

/-- The entries of a stack of brackets and substitutions that are substitutions. -/
def substitutionsOf (st : List (Bracket × Nat)) : List Nat :=
  (st.filter fun e => e.1 = .substitution).map Prod.snd

/-- What stays open of a stack when a piece of a template goes on behind its innermost substitution,
and the whole stack when it is no such piece. -/
inductive Leaves (t : Token) : List (Bracket × Nat) → List (Bracket × Nat) → Prop
  | stay {st : List (Bracket × Nat)} (h : t.resumes = false) : Leaves t st st
  | leave {o : Nat} {st : List (Bracket × Nat)} (h : t.resumes = true) :
      Leaves t ((.substitution, o) :: st) st

/-- The brackets at `o` and `c` are of one kind and stand in the same substitutions. -/
structure Fits (ts : List Token) (o c : Nat) : Prop where
  kinds : ∃ b, b ≠ Bracket.substitution ∧ (ts[o]?).any (·.isPunct b.opener) ∧
    (ts[c]?).any (·.isPunct b.closer)
  substitutions : substitutionsAt ts o = substitutionsAt ts c

/-- The stack holds what is open before the token at `i`: its substitutions, and brackets of the
kinds it says, each in the substitutions below it. -/
structure Reached (ts : List Token) (i : Nat) (st : List (Bracket × Nat)) : Prop where
  pieces : substitutionsAt ts i = substitutionsOf st
  entries : ∀ b o below, (b, o) :: below <:+ st → b ≠ .substitution →
    (ts[o]?).any (·.isPunct b.opener) ∧ substitutionsAt ts o = substitutionsOf below

section Reached

variable {ts : List Token} {i o : Nat} {st : List (Bracket × Nat)} {t : Token} {b : Bracket}

theorem bracketsOf_cons (hb : b ≠ .substitution) :
    bracketsOf ((b, o) :: st) = o :: bracketsOf st := by
  simp [bracketsOf, hb]

theorem substitutionsOf_cons (hb : b ≠ .substitution) :
    substitutionsOf ((b, o) :: st) = substitutionsOf st := by
  simp [substitutionsOf, hb]

@[simp] theorem substitutionsOf_substitution_cons :
    substitutionsOf ((.substitution, o) :: st) = o :: substitutionsOf st := rfl

theorem substitutions_of_kind_ne (h : t.kind ≠ .template) (k : Nat) (before : List Nat) :
    t.substitutions k before = before := by
  simp [Token.substitutions, Token.resumes_of_kind_ne h, Token.suspends_of_kind_ne h]

namespace Leaves

variable {inner : List (Bracket × Nat)}

theorem suffix (h : Leaves t st inner) : inner <:+ st := by
  cases h with
  | stay => exact List.suffix_refl st
  | leave => exact List.suffix_cons ..

theorem bracketsOf_eq (h : Leaves t st inner) : bracketsOf inner = bracketsOf st := by
  cases h with
  | stay => rfl
  | leave => rfl

theorem substitutionsOf_eq (h : Leaves t st inner) :
    (if t.resumes then (substitutionsOf st).drop 1 else substitutionsOf st) =
      substitutionsOf inner := by
  cases h with
  | stay hr => rw [if_neg (by simp [hr])]
  | leave hr =>
    rw [if_pos hr]
    rfl

theorem exists_of_map {bs : List Bracket}
    (h : st.map Prod.fst = if t.resumes then .substitution :: bs else bs) :
    ∃ inner, Leaves t st inner ∧ inner.map Prod.fst = bs := by
  cases hr : t.resumes with
  | false => exact ⟨st, .stay hr, by simpa [hr] using h⟩
  | true =>
    rw [hr, if_pos rfl] at h
    obtain ⟨⟨_, o⟩, inner, rfl, rfl, hinner⟩ := List.map_eq_cons_iff.1 h
    exact ⟨inner, .leave hr, hinner⟩

end Leaves

/-- The stack behind a piece of a template, the one without its substitution given. -/
def behindPiece (t : Token) (i : Nat) (inner : List (Bracket × Nat)) : List (Bracket × Nat) :=
  if t.suspends then (.substitution, i) :: inner else inner

theorem bracketsOf_behindPiece (t : Token) (i : Nat) (inner : List (Bracket × Nat)) :
    bracketsOf (behindPiece t i inner) = bracketsOf inner := by
  unfold behindPiece
  split <;> rfl

theorem substitutionsOf_behindPiece (t : Token) (i : Nat) (inner : List (Bracket × Nat)) :
    substitutionsOf (behindPiece t i inner) =
      if t.suspends then i :: substitutionsOf inner else substitutionsOf inner := by
  unfold behindPiece
  split <;> rfl

namespace Reached

theorem nil : Reached ts 0 [] := by
  constructor
  · rfl
  · rintro b o below hsuffix
    simp at hsuffix

theorem skip (h : Reached ts i st) (ht : ts[i]? = some t) (hk : t.kind ≠ .template) :
    Reached ts (i + 1) st := by
  constructor
  · rw [substitutionsAt_succ ht, substitutions_of_kind_ne hk]
    exact h.pieces
  · exact h.entries

theorem push (h : Reached ts i st) (ht : ts[i]? = some t) (hb : b ≠ .substitution)
    (hk : t.kind ≠ .template) (hopener : t.isPunct b.opener = true) :
    Reached ts (i + 1) ((b, i) :: st) := by
  constructor
  · rw [substitutionsOf_cons hb]
    exact (h.skip ht hk).pieces
  · intro b' o below hsuffix hb'
    rcases List.suffix_cons_iff.1 hsuffix with heq | hsuffix
    · cases heq
      exact ⟨by simpa [ht] using hopener, h.pieces⟩
    · exact h.entries b' o below hsuffix hb'

theorem pop (h : Reached ts i ((b, o) :: st)) (ht : ts[i]? = some t) (hb : b ≠ .substitution)
    (hk : t.kind ≠ .template) (hcloser : t.isPunct b.closer = true) :
    Reached ts (i + 1) st ∧ Fits ts o i := by
  have hpieces : substitutionsAt ts i = substitutionsOf st := by
    rw [h.pieces, substitutionsOf_cons hb]
  obtain ⟨hopener, hsubs⟩ := h.entries b o st (List.suffix_refl _) hb
  constructor
  · apply Reached.skip _ ht hk
    refine ⟨hpieces, fun b' o' below hsuffix => ?_⟩
    exact h.entries b' o' below (hsuffix.trans (List.suffix_cons ..))
  · refine ⟨⟨b, hb, hopener, by simpa [ht] using hcloser⟩, ?_⟩
    rw [hsubs, hpieces]

/-- A piece of a template leaves the innermost substitution, begins one, or does both. -/
theorem piece {inner : List (Bracket × Nat)} (h : Reached ts i st) (ht : ts[i]? = some t)
    (hinner : Leaves t st inner) : Reached ts (i + 1) (behindPiece t i inner) := by
  constructor
  · rw [substitutionsAt_succ ht, h.pieces, Token.substitutions, hinner.substitutionsOf_eq,
      substitutionsOf_behindPiece]
  · intro b o below hsuffix hb
    unfold behindPiece at hsuffix
    split at hsuffix
    · rcases List.suffix_cons_iff.1 hsuffix with heq | hsuffix
      · cases heq
        exact (hb rfl).elim
      · exact h.entries b o below (hsuffix.trans hinner.suffix) hb
    · exact h.entries b o below (hsuffix.trans hinner.suffix) hb

theorem mem_or_resumes {inner : List (Bracket × Nat)} (h : Reached ts i st) (ht : ts[i]? = some t)
    (hinner : Leaves t st inner) {a : Nat} (ha : a ∈ substitutionsOf st) :
    a ∈ substitutionsOf (behindPiece t i inner) ∨ Resumes ts a i := by
  have hkept (hin : a ∈ substitutionsOf inner) :
      a ∈ substitutionsOf (behindPiece t i inner) := by
    rw [substitutionsOf_behindPiece]
    split
    · exact List.mem_cons_of_mem i hin
    · exact hin
  cases hinner with
  | stay => exact .inl (hkept ha)
  | leave hr =>
    rcases List.mem_cons.1 ha with rfl | ha
    · refine .inr ⟨by simpa [ht] using hr, ?_⟩
      rw [h.pieces, substitutionsOf_substitution_cons, List.head?_cons]
    · exact .inl (hkept ha)

end Reached

/-- What the rest of the tokens does to what is open before the token at `i`: partners fit, each
bracket gets one, and each substitution is left. -/
structure Agrees (all : List Token) (i : Nat) (st : List (Bracket × Nat)) (ts : List Token) :
    Prop where
  fits : ∀ o c, (o, c) ∈ bracketPairs i (bracketsOf st) ts → Fits all o c
  closed : ∀ o ∈ bracketsOf st, o ∈ endsOf (bracketPairs i (bracketsOf st) ts)
  paired : ∀ k, i ≤ k → (all[k]?).any Token.isBracket →
    k ∈ endsOf (bracketPairs i (bracketsOf st) ts)
  left : ∀ a ∈ substitutionsOf st, ∃ b, Resumes all a b
  resumed : ∀ a, i ≤ a → (all[a]?).any Token.suspends → ∃ b, Resumes all a b

theorem Agrees.nil (hi : ts.length ≤ i) : Agrees ts i [] [] := by
  have hnone : ∀ k, i ≤ k → ts[k]? = none := by
    intro k hik
    rw [List.getElem?_eq_none_iff]
    exact Nat.le_trans hi hik
  constructor
  case fits => simp [bracketPairs]
  case closed => exact List.forall_mem_nil _
  case paired =>
    intro k hik hk
    simp [hnone k hik] at hk
  case left => exact List.forall_mem_nil _
  case resumed =>
    intro k hik hk
    simp [hnone k hik] at hk

theorem Agrees.cons {st' : List (Bracket × Nat)} {rest : List Token}
    (h : Agrees ts (i + 1) st' rest) (ht : ts[i]? = some t) (ps : List (Nat × Nat))
    (hpairs : bracketPairs i (bracketsOf st) (t :: rest) =
      ps ++ bracketPairs (i + 1) (bracketsOf st') rest)
    (hfits : ∀ p ∈ ps, Fits ts p.1 p.2)
    (hclosed : ∀ o ∈ bracketsOf st, o ∈ bracketsOf st' ∨ o ∈ endsOf ps)
    (hbracket : t.isBracket = true → i ∈ bracketsOf st' ∨ i ∈ endsOf ps)
    (hleft : ∀ a ∈ substitutionsOf st, a ∈ substitutionsOf st' ∨ Resumes ts a i)
    (hsuspends : t.suspends = true → i ∈ substitutionsOf st') : Agrees ts i st (t :: rest) := by
  have hends {k : Nat} (hk : k ∈ bracketsOf st' ∨ k ∈ endsOf ps) :
      k ∈ endsOf (bracketPairs i (bracketsOf st) (t :: rest)) := by
    rw [hpairs, endsOf_append, List.mem_append]
    exact hk.symm.imp_right (h.closed k)
  constructor
  case fits =>
    intro o c hp
    rw [hpairs, List.mem_append] at hp
    rcases hp with hp | hp
    · exact hfits (o, c) hp
    · exact h.fits o c hp
  case closed =>
    intro o ho
    exact hends (hclosed o ho)
  case paired =>
    intro k hik hk
    obtain rfl | hik := Nat.eq_or_lt_of_le hik
    · exact hends (hbracket (by simpa [ht] using hk))
    · rw [hpairs, endsOf_append]
      exact List.mem_append_right _ (h.paired k hik hk)
  case left =>
    intro a ha
    rcases hleft a ha with ha | hr
    · exact h.left a ha
    · exact ⟨i, hr⟩
  case resumed =>
    intro a hia ha
    obtain rfl | hia := Nat.eq_or_lt_of_le hia
    · exact h.left i (hsuspends (by simpa [ht] using ha))
    · exact h.resumed a hia ha

/-- One token keeps the two stacks together, and what the tokens behind it do. -/
theorem Reached.step (h : Reached ts i st) (ht : ts[i]? = some t) {bs bs' : List Bracket}
    (hst : st.map Prod.fst = bs) (hm : Moves t bs bs') :
    ∃ st', st'.map Prod.fst = bs' ∧ Reached ts (i + 1) st' ∧
      ∀ rest, Agrees ts (i + 1) st' rest → Agrees ts i st (t :: rest) := by
  cases hm with
  | @opens b _ hb hp =>
    have ho : t.opens = true := (Token.opens_of_isPunct hb hp).1
    have hk : t.kind ≠ .template := Token.kind_ne_of_isPunct hp
    refine ⟨(b, i) :: st, by rw [List.map_cons, hst], h.push ht hb hk hp, fun rest hrest => ?_⟩
    apply hrest.cons ht []
    · rw [bracketPairs_cons, if_pos ho, bracketsOf_cons hb, List.nil_append]
    · exact List.forall_mem_nil _
    · intro o ho
      rw [bracketsOf_cons hb]
      exact .inl (List.mem_cons_of_mem i ho)
    · intro _
      rw [bracketsOf_cons hb]
      exact .inl (List.mem_cons_self ..)
    · intro a ha
      exact .inl (by rwa [substitutionsOf_cons hb])
    · simp [Token.suspends_of_kind_ne hk]
  | @closes b _ hb hp =>
    obtain ⟨ho, hc⟩ := Token.closes_of_isPunct hb hp
    have hk : t.kind ≠ .template := Token.kind_ne_of_isPunct hp
    obtain ⟨⟨_, o⟩, st', rfl, rfl, hst'⟩ := List.map_eq_cons_iff.1 hst
    obtain ⟨hreached, hfits⟩ := h.pop ht hb hk hp
    refine ⟨st', hst', hreached, fun rest hrest => ?_⟩
    apply hrest.cons ht [(o, i)]
    · rw [bracketPairs_cons, if_neg (by simp [ho]), if_pos hc, bracketsOf_cons hb]
      rfl
    · rw [List.forall_mem_singleton]
      exact hfits
    · intro o' ho'
      rw [bracketsOf_cons hb] at ho'
      rcases List.mem_cons.1 ho' with rfl | ho'
      · exact .inr (List.mem_cons_self ..)
      · exact .inl ho'
    · intro _
      exact .inr (List.mem_cons_of_mem o (List.mem_cons_self ..))
    · intro a ha
      exact .inl (by rwa [substitutionsOf_cons hb] at ha)
    · simp [Token.suspends_of_kind_ne hk]
  | piece hk hbefore hbehind =>
    have hkp : t.kind ≠ .punctuator := by simp [hk]
    obtain ⟨inner, hinner, rfl⟩ := Leaves.exists_of_map (hst.trans hbefore)
    have hbrackets : bracketsOf (behindPiece t i inner) = bracketsOf st := by
      rw [bracketsOf_behindPiece, hinner.bracketsOf_eq]
    refine ⟨behindPiece t i inner, ?_, h.piece ht hinner, fun rest hrest => ?_⟩
    · rw [hbehind, behindPiece]
      split <;> rfl
    · apply hrest.cons ht []
      · rw [bracketPairs_cons, if_neg (by simp [Token.opens_of_kind_ne hkp]),
          if_neg (by simp [Token.closes_of_kind_ne hkp]), hbrackets, List.nil_append]
      · exact List.forall_mem_nil _
      · intro o ho
        rw [hbrackets]
        exact .inl ho
      · simp [Token.isBracket_of_kind_ne hkp]
      · exact fun a ha => h.mem_or_resumes ht hinner ha
      · intro hs
        rw [substitutionsOf_behindPiece, if_pos hs]
        exact List.mem_cons_self ..
  | other hb hk =>
    obtain ⟨ho, hc⟩ := Bool.or_eq_false_iff.1 hb
    refine ⟨st, hst, h.skip ht hk, fun rest hrest => ?_⟩
    apply hrest.cons ht []
    · rw [bracketPairs_cons, if_neg (by simp [ho]), if_neg (by simp [hc]), List.nil_append]
    · exact List.forall_mem_nil _
    · exact fun o ho => .inl ho
    · simp [hb]
    · exact fun a ha => .inl ha
    · simp [Token.suspends_of_kind_ne hk]

end Reached

theorem getElem?_of_drop {all rest : List Token} {i : Nat} {t : Token}
    (h : all.drop i = t :: rest) : all[i]? = some t ∧ all.drop (i + 1) = rest := by
  rw [← List.head?_drop, ← List.tail_drop, h]
  exact ⟨rfl, rfl⟩

theorem Reader.agrees_of_tokens {r : Reader} {cs : List Char} {ts : List Token}
    (h : r.tokens cs = .ok ts) : ∀ (all : List Token) (i : Nat) (st : List (Bracket × Nat)),
      all.drop i = ts → Reached all i st → st.map Prod.fst = r.openings.map Opening.bracket →
        Agrees all i st ts := by
  refine tokens_induction (motive := fun r _ ts => ∀ (all : List Token) (i : Nat)
    (st : List (Bracket × Nat)), all.drop i = ts → Reached all i st →
      st.map Prod.fst = r.openings.map Opening.bracket → Agrees all i st ts) ?_ ?_ h
  · intro r ho all i st hdrop _ hst
    rw [ho, List.map_nil, List.map_eq_nil_iff] at hst
    subst hst
    exact Agrees.nil (List.drop_eq_nil_iff.1 hdrop)
  · intro r r' c tail piece token rest hl hp ih all i st hdrop hreached hst
    obtain ⟨-, ⟨-, rfl, ho⟩ | ⟨t, rfl, -, -, -, hm⟩⟩ := push_cases hl hp
    · exact ih all i st hdrop hreached (by rw [hst, ho])
    · obtain ⟨ht, hrest⟩ := getElem?_of_drop hdrop
      obtain ⟨st', hst', hreached', hagrees⟩ := hreached.step ht hst hm
      exact hagrees rest (ih all (i + 1) st' hrest hreached' hst')

/-- The partners of a scanned text's brackets: each bracket has one, of its own kind and in the same
substitutions, all of which have an end. -/
structure FitsText (ts : List Token) (partner? : Nat → Option Nat) : Prop where
  total : ∀ k, (ts[k]?).any Token.isBracket → ∃ j, partner? k = some j
  kinds : ∀ {o c}, partner? o = some c → o < c → ∃ b, b ≠ Bracket.substitution ∧
    (ts[o]?).any (·.isPunct b.opener) ∧ (ts[c]?).any (·.isPunct b.closer)
  apart : ∀ {o c}, partner? o = some c → o < c → ∀ a b, Resumes ts a b →
    (a < o ∧ o < b ↔ a < c ∧ c < b)
  resumed : ∀ a, (ts[a]?).any Token.suspends → ∃ b, Resumes ts a b

namespace Script

theorem fitsText_of_scan {code : String} {ts : List Token} (h : scan code = .ok ts) :
    FitsText ts (ofTokens ts).partner? := by
  have hagrees : Agrees ts 0 [] ts := Reader.agrees_of_tokens h ts 0 [] rfl Reached.nil rfl
  have hfits {o c : Nat} (hp : (ofTokens ts).partner? o = some c) (hoc : o < c) : Fits ts o c :=
    hagrees.fits o c (mem_bracketPairs_of_partner? hp hoc)
  constructor
  case total =>
    intro k hk
    obtain ⟨j, hj⟩ := mem_endsOf.1 (hagrees.paired k (Nat.zero_le k) hk)
    exact ⟨j, partner?_ofTokens.2 hj⟩
  case kinds =>
    intro o c hp hoc
    exact (hfits hp hoc).kinds
  case apart =>
    intro o c hp hoc a b hab
    obtain ⟨⟨bracket, -, ho, hc⟩, hsubs⟩ := hfits hp hoc
    have hin : a < o ∧ o ≤ b ↔ a < c ∧ c ≤ b := by
      rw [← hab.mem_substitutionsAt_iff, ← hab.mem_substitutionsAt_iff, hsubs]
    have hob : o ≠ b := hab.ne_of_isPunct ho
    have hcb : c ≠ b := hab.ne_of_isPunct hc
    omega
  case resumed =>
    intro a ha
    exact hagrees.resumed a (Nat.zero_le a) ha

theorem paired_of_scan {code : String} {ts : List Token} (h : scan code = .ok ts) {k : Nat}
    (hk : (ts[k]?).any Token.isBracket) : (ofTokens ts).paired k = true := by
  rw [paired, Option.isSome_iff_exists]
  exact (fitsText_of_scan h).total k hk

/-- The partners of brackets are a matching, and in a scanned text they are what the reader saw. -/
theorem matching_ofTokens (ts : List Token) :
    IsMatching ts (ofTokens ts).partner? ∧
      ∀ code, scan code = .ok ts → FitsText ts (ofTokens ts).partner? :=
  ⟨isMatching_ofTokens ts, fun _ h => fitsText_of_scan h⟩

def nestedTemplate : String := "f(\x60$\x7b[\x60$\x7bb\x7d\x60]\x7d\x60)"

def nestedTemplateTokens : List Token :=
  [⟨.name, "f", ⟨0, 1, 1⟩⟩, ⟨.punctuator, "(", ⟨1, 1, 2⟩⟩, ⟨.template, "\x60$\x7b", ⟨2, 1, 3⟩⟩,
    ⟨.punctuator, "[", ⟨5, 1, 6⟩⟩, ⟨.template, "\x60$\x7b", ⟨6, 1, 7⟩⟩, ⟨.name, "b", ⟨9, 1, 10⟩⟩,
    ⟨.template, "\x7d\x60", ⟨10, 1, 11⟩⟩, ⟨.punctuator, "]", ⟨12, 1, 13⟩⟩,
    ⟨.template, "\x7d\x60", ⟨13, 1, 14⟩⟩, ⟨.punctuator, ")", ⟨15, 1, 16⟩⟩]

theorem matching_nestedTemplate : scan nestedTemplate = .ok nestedTemplateTokens ∧
    (ofTokens nestedTemplateTokens).partner? 3 = some 7 ∧
    FitsText nestedTemplateTokens (ofTokens nestedTemplateTokens).partner? := by
  have hread : scan nestedTemplate = .ok nestedTemplateTokens := by decide +kernel
  refine ⟨hread, by decide +kernel, ?_⟩
  exact (matching_ofTokens nestedTemplateTokens).2 nestedTemplate hread

end Script

end MdxLint
