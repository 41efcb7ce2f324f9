import MdxLint.Proofs.Fragment.Walk

/-! # Where entries and values end

An entry of a list goes on behind every expression in it. The value of a declarator ends behind
its expression, unless a template breaks off: then it ends at the keyword of a function.
-/

namespace MdxLint

namespace Written

variable {all : List Piece} {ts : List Token} (w : Written all ts)

include w

section Entries

theorem walkable_entry :
    Walkable all fun i => (Script.ofTokens ts).isPunct i "," = false where
  inner := by
    intro i p h hp
    obtain ⟨-, hsign⟩ := Piece.kind_of_isInner hp
    by_contra hne
    rw [Bool.not_eq_false, w.isPunct_eq h, Bool.and_eq_true, beq_iff_eq, beq_iff_eq] at hne
    exact absurd (hne.2 ▸ hsign hne.1) (by decide)
  behind := by
    intro i p _ _ h
    rw [w.isPunct_eq h]
    rfl

end Entries

section Values

theorem endsValue_eq_false {i : Nat} {p : Piece} (h : all[i]? = some p) (hp : p.isInner = true) :
    ∃ t, (Script.ofTokens ts).tokens[i]? = some t ∧ (Script.ofTokens ts).endsValue i t = false := by
  obtain ⟨t, ht, he⟩ := w.exists_token h
  obtain ⟨hk, hsign⟩ := Piece.kind_of_isInner hp
  rw [Prod.mk.injEq] at he
  rw [← he.1, ← he.2] at hsign
  rw [← he.1] at hk
  refine ⟨t, ht, ?_⟩
  have hclose : ∀ x ∈ Piece.innerSigns, x ≠ "," ∧ x ≠ ";" ∧ Bracket.ofCloser? x = none := by decide
  unfold Script.endsValue
  cases hkind : t.kind with
  | punctuator =>
    obtain ⟨h₁, h₂, h₃⟩ := hclose _ (hsign hkind)
    simp [h₁, h₂, Token.closes, h₃]
  | keyword => exact (hk hkind).elim
  | _ => rfl

theorem endsValue_functionWord {i : Nat} (h : all[i]? = some .functionWord) :
    ∃ t, (Script.ofTokens ts).tokens[i]? = some t ∧
      (Script.ofTokens ts).endsValue i t = (Script.ofTokens ts).startsStatement i t := by
  obtain ⟨t, ht, he⟩ := w.exists_token h
  rw [Prod.mk.injEq] at he
  have hkind : t.kind = .keyword := he.1
  have htext : t.text = "function" := he.2
  have hd : "function" ∉ declarationKeywords := by decide
  have hs : "function" ∈ statementKeywords := by decide
  exact ⟨t, ht, by simp [Script.endsValue, hkind, htext, hd, hs]⟩

theorem not_startsStatement_of_isLead {i : Nat} {p : Piece} {t : Token} (h : all[i]? = some p)
    (hp : p.isLead = true) (ht : (Script.ofTokens ts).tokens[i + 1]? = some t) :
    (Script.ofTokens ts).startsStatement (i + 1) t = false := by
  obtain ⟨u, hu, he⟩ := w.exists_token h
  rw [Prod.mk.injEq] at he
  unfold Script.startsStatement
  rw [Script.before?, hu]
  dsimp only
  split
  · rfl
  case isFalse hline =>
    cases p with
    | sign x hx =>
      have hne : ∀ x ∈ ["+", "?", ":", "="], x ∉ valueEnds := by decide
      have hkind : u.kind = .punctuator := he.1
      have htext : u.text = x := he.2
      simp [hkind, htext, hne x (of_decide_eq_true hp)]
    | opening turn =>
      rw [Script.tokens_ofTokens] at hu ht
      have := w.turns i turn u t h hu ht
      cases turn with
      | false => simp_all
      | true => cases hp
    | _ => cases hp

theorem startsStatement_of_opening {i : Nat} {t : Token} (h : all[i]? = some (.opening true))
    (ht : (Script.ofTokens ts).tokens[i + 1]? = some t) :
    (Script.ofTokens ts).startsStatement (i + 1) t = true := by
  obtain ⟨u, hu, he⟩ := w.exists_token h
  rw [Prod.mk.injEq] at he
  have hkind : u.kind = .template := he.1
  unfold Script.startsStatement
  rw [Script.before?, hu]
  rw [Script.tokens_ofTokens] at hu ht
  have hline := of_decide_eq_true (w.turns i true u t h hu ht)
  dsimp only
  rw [if_neg (by omega), hkind]

theorem walkable_value :
    Walkable all fun i => ∃ t, (Script.ofTokens ts).tokens[i]? = some t ∧
      (Script.ofTokens ts).endsValue i t = false where
  inner := fun i p h hp => w.endsValue_eq_false h hp
  behind := by
    intro i p h hp hf
    obtain ⟨t, ht, he⟩ := w.endsValue_functionWord hf
    exact ⟨t, ht, by rw [he, w.not_startsStatement_of_isLead h hp ht]⟩

section Declarator

variable (e : Phrase .expr) {n : Nat} (hlead : all[n]? = some (.sign "="))
  (hat : At all (n + 1) (e.pieces true))

include hlead hat

theorem good_of_beginsFunction (h : e.beginsFunction = true) :
    ∃ t, (Script.ofTokens ts).tokens[n + 1]? = some t ∧
      (Script.ofTokens ts).endsValue (n + 1) t = false :=
  w.walkable_value.behind n _ hlead rfl (functionWord_of_beginsFunction hat h)

theorem valueEnd_expr {p : Piece} (hb : e.breaks = false)
    (hnext : all[n + 1 + (e.pieces true).length]? = some p) (hp : p = .sign "," ∨ p = .sign ";") :
    (Script.ofTokens ts).valueEnd (n + 1) = n + 1 + (e.pieces true).length := by
  rw [(w.walk_expr w.walkable_value e rfl true (n + 1) hat (w.good_of_beginsFunction e hlead hat)
    fun h => by simp [hb] at h).valueEnd_eq]
  obtain ⟨t, ht, he⟩ := w.exists_token hnext
  rw [Prod.mk.injEq] at he
  rw [Script.valueEnd_eq, ht]
  rcases hp with rfl | rfl
  · have hkind : t.kind = .punctuator := he.1
    have htext : t.text = "," := he.2
    simp [Script.endsValue, hkind, htext]
  · have hkind : t.kind = .punctuator := he.1
    have htext : t.text = ";" := he.2
    simp [Script.endsValue, hkind, htext]

theorem valueEnd_of_breaks (hb : e.breaks = true) :
    ∃ i, (Script.ofTokens ts).valueEnd (n + 1) = i ∧ all[i]? = some .functionWord := by
  obtain ⟨i, hw, ho, hf⟩ := w.exists_walk_of_breaks w.walkable_value e rfl true (n + 1) hat
    (w.good_of_beginsFunction e hlead hat) hb
  obtain ⟨t, ht, he⟩ := w.endsValue_functionWord hf
  refine ⟨i + 1, ?_, hf⟩
  rw [hw.valueEnd_eq, Script.valueEnd_eq, ht]
  simp only [he, w.startsStatement_of_opening ho ht, if_true]

end Declarator

end Values

end Written

end MdxLint
