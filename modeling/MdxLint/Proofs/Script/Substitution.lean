import MdxLint.Proofs.Script.Brackets
import Mathlib.Data.List.Infix

/-! # Substitutions

The pieces of a template tell where a substitution begins and where the template goes on behind it.
A token stands in those that have begun before it and are not left yet.
-/

namespace MdxLint

namespace Token

/-- The token goes on with a template behind a substitution. -/
def resumes (t : Token) : Bool := t.kind == .template && t.text.toList.head? == some '\x7d'

/-- The token ends with the two characters that begin a substitution. -/
def suspends (t : Token) : Bool := t.kind == .template && ['$', '\x7b'].isSuffixOf t.text.toList

theorem resumes_of_kind_ne {t : Token} (h : t.kind ≠ .template) : t.resumes = false := by
  simp [resumes, h]

theorem suspends_of_kind_ne {t : Token} (h : t.kind ≠ .template) : t.suspends = false := by
  simp [suspends, h]

end Token

/-- The substitutions that are open behind the token at `k`, those before it given. -/
def Token.substitutions (t : Token) (k : Nat) (before : List Nat) : List Nat :=
  let around := if t.resumes then before.drop 1 else before
  if t.suspends then k :: around else around

/-- The pieces of templates in whose substitutions a token stands, innermost first. -/
def substitutionsAt (ts : List Token) : Nat → List Nat
  | 0 => []
  | k + 1 =>
    match ts[k]? with
    | none => substitutionsAt ts k
    | some t => t.substitutions k (substitutionsAt ts k)

/-- The piece of a template at `b` goes on behind the substitution that the one at `a` begins. -/
def Resumes (ts : List Token) (a b : Nat) : Prop :=
  (ts[b]?).any Token.resumes ∧ (substitutionsAt ts b).head? = some a

section Pieces

variable {ts : List Token} {a b k : Nat}

theorem substitutionsAt_succ {t : Token} (h : ts[k]? = some t) :
    substitutionsAt ts (k + 1) = t.substitutions k (substitutionsAt ts k) := by
  simp only [substitutionsAt, h]

theorem exists_around (ts : List Token) (k : Nat) :
    ∃ around, around <:+ substitutionsAt ts k ∧
      (substitutionsAt ts (k + 1) = around ∨ substitutionsAt ts (k + 1) = k :: around) := by
  cases ht : ts[k]? with
  | none =>
    refine ⟨substitutionsAt ts k, List.suffix_refl _, .inl ?_⟩
    simp only [substitutionsAt, ht]
  | some t =>
    rw [substitutionsAt_succ ht, Token.substitutions]
    refine ⟨if t.resumes then (substitutionsAt ts k).drop 1 else substitutionsAt ts k, ?_, ?_⟩
    · split
      · exact List.drop_suffix ..
      · exact List.suffix_refl _
    · split
      · exact .inr rfl
      · exact .inl rfl

theorem lt_of_mem_substitutionsAt (h : a ∈ substitutionsAt ts k) : a < k := by
  induction k with
  | zero => cases h
  | succ k ih =>
    obtain ⟨around, hsuffix, heq | heq⟩ := exists_around ts k
    · rw [heq] at h
      exact Nat.lt_succ_of_lt (ih (hsuffix.mem h))
    · rw [heq] at h
      rcases List.mem_cons.1 h with rfl | h
      · exact Nat.lt_succ_self a
      · exact Nat.lt_succ_of_lt (ih (hsuffix.mem h))

theorem nodup_substitutionsAt (ts : List Token) (k : Nat) : (substitutionsAt ts k).Nodup := by
  induction k with
  | zero => exact List.nodup_nil
  | succ k ih =>
    obtain ⟨around, hsuffix, heq | heq⟩ := exists_around ts k
    · rw [heq]
      exact ih.sublist hsuffix.sublist
    · rw [heq, List.nodup_cons]
      constructor
      · intro hk
        exact Nat.lt_irrefl k (lt_of_mem_substitutionsAt (hsuffix.mem hk))
      · exact ih.sublist hsuffix.sublist

theorem mem_substitutionsAt_of_le (hak : a < k) (hkb : k ≤ b) (h : a ∈ substitutionsAt ts b) :
    a ∈ substitutionsAt ts k := by
  obtain ⟨n, rfl⟩ := Nat.exists_eq_add_of_le hkb
  induction n with
  | zero => exact h
  | succ n ih =>
    apply ih (Nat.le_add_right k n)
    obtain ⟨around, hsuffix, heq | heq⟩ := exists_around ts (k + n)
    · exact hsuffix.mem (heq ▸ h)
    · have h' : a ∈ (k + n) :: around := heq ▸ h
      exact hsuffix.mem ((List.mem_cons.1 h').resolve_left (by omega))

/-- A token stands in a substitution if it stands between the two pieces of the template. -/
theorem Resumes.mem_substitutionsAt_iff (h : Resumes ts a b) :
    a ∈ substitutionsAt ts k ↔ a < k ∧ k ≤ b := by
  obtain ⟨hresumes, hhead⟩ := h
  obtain ⟨below, hb⟩ := List.head?_eq_some_iff.1 hhead
  have hmem : a ∈ substitutionsAt ts b := by simp [hb]
  have hab : a < b := lt_of_mem_substitutionsAt hmem
  constructor
  · intro hk
    have hak : a < k := lt_of_mem_substitutionsAt hk
    refine ⟨hak, ?_⟩
    by_contra hbk
    have hnext : a ∈ substitutionsAt ts (b + 1) :=
      mem_substitutionsAt_of_le (Nat.lt_succ_of_lt hab) (by omega) hk
    -- the piece at `b` has left the substitution
    obtain ⟨t, ht, hres⟩ := (Option.any_eq_true ..).1 hresumes
    have hnodup := nodup_substitutionsAt ts b
    rw [hb, List.nodup_cons] at hnodup
    rw [substitutionsAt_succ ht, Token.substitutions, if_pos hres, hb, List.drop_one,
      List.tail_cons] at hnext
    split at hnext
    · rcases List.mem_cons.1 hnext with rfl | hnext
      · exact Nat.lt_irrefl a hab
      · exact hnodup.1 hnext
    · exact hnodup.1 hnext
  · rintro ⟨hak, hkb⟩
    exact mem_substitutionsAt_of_le hak hkb hmem

theorem Resumes.ne_of_isPunct (h : Resumes ts a b) {p : String}
    (hk : (ts[k]?).any (·.isPunct p)) : k ≠ b := by
  rintro rfl
  obtain ⟨t, ht, hp⟩ := (Option.any_eq_true ..).1 hk
  have hres : t.resumes = true := by simpa [ht] using h.1
  rw [Token.resumes_of_kind_ne (Token.kind_ne_of_isPunct hp)] at hres
  cases hres

end Pieces

end MdxLint
