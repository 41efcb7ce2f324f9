import MdxLint.Proofs.Fragment.Marked
import MdxLint.Proofs.Fragment.Neighbour
import MdxLint.Script.Reference

/-! # The free names of a program

The free names of a script that is written with a program are the names that it uses and does not
declare, where a name counts as used too if it is declared in a declarator that is not reached.
-/

namespace MdxLint

def Piece.nameAs? (roles : List Role) : Piece → Option String
  | word w role => if role ∈ roles then some w.text else none
  | _ => none

def namesOf (roles : List Role) (ps : List Piece) : List String :=
  ps.filterMap (Piece.nameAs? roles)

theorem mem_namesOf {roles : List Role} {ps : List Piece} {x : String} :
    x ∈ namesOf roles ps ↔
      ∃ (i : Nat) (w : Identifier) (role : Role),
        ps[i]? = some (.word w role) ∧ role ∈ roles ∧ w.text = x := by
  rw [namesOf, List.mem_filterMap]
  constructor
  · rintro ⟨p, hp, hx⟩
    obtain ⟨i, hi⟩ := List.mem_iff_getElem?.1 hp
    cases p with
    | word w role =>
      rw [Piece.nameAs?] at hx
      split at hx
      case isTrue hr => exact ⟨i, w, role, hi, hr, Option.some.inj hx⟩
      case isFalse => cases hx
    | _ => cases hx
  · rintro ⟨i, w, role, hi, hr, rfl⟩
    exact ⟨_, List.mem_iff_getElem?.2 ⟨i, hi⟩, if_pos hr⟩

namespace Written

variable {all : List Piece} {ts : List Token} (w : Written all ts) {i : Nat} {p : Piece}

include w

section Neighbours

/-- The token before the first one is missing, any other one is the piece before. -/
theorem before?_cases (h : all[i]? = some p) :
    ((Script.ofTokens ts).before? i = none ∧ prevAt all i = .sign ";") ∨
      ∃ t, (Script.ofTokens ts).before? i = some t ∧ t.kind = (prevAt all i).kind ∧
        t.text = (prevAt all i).text := by
  cases i with
  | zero => exact .inl ⟨rfl, rfl⟩
  | succ j =>
    have hlt : j < all.length := by
      have := (List.getElem?_eq_some_iff.1 h).1
      omega
    obtain ⟨t, ht, he⟩ := w.exists_token (List.getElem?_eq_getElem hlt)
    rw [Prod.mk.injEq] at he
    have hprev : prevAt all (j + 1) = all[j] := by simp [prevAt, hlt]
    exact .inr ⟨t, ht, by rw [hprev, he.1], by rw [hprev, he.2]⟩

theorem isProperty_eq (h : all[i]? = some p) :
    (Script.ofTokens ts).isProperty i =
      ((prevAt all i).kind == .punctuator && (prevAt all i).text ∈ [".", "?.", "#"]) := by
  rw [Script.isProperty]
  rcases w.before?_cases h with ⟨ht, hp⟩ | ⟨t, ht, hk, hx⟩
  · rw [ht, hp]
    rfl
  · rw [ht, Option.any_some, hk, hx]

theorem isJumpLabel_eq (h : all[i]? = some p) :
    (Script.ofTokens ts).isJumpLabel i =
      ((prevAt all i).kind == .keyword && (prevAt all i).text ∈ ["break", "continue"]) := by
  rw [Script.isJumpLabel]
  rcases w.before?_cases h with ⟨ht, hp⟩ | ⟨t, ht, hk, hx⟩
  · rw [ht, hp]
    rfl
  · rw [ht, Option.any_some, hk, hx]

theorem isPunct_next (i : Nat) (x : String) (hx : x ≠ ";") :
    (Script.ofTokens ts).isPunct (i + 1) x =
      ((nextAt all i).kind == .punctuator && (nextAt all i).text == x) := by
  unfold nextAt
  cases hq : all[i + 1]? with
  | none =>
    have hlen := List.getElem?_eq_none_iff.1 hq
    rw [← w.size_eq, Script.size] at hlen
    simpa [Script.isPunct, Array.getElem?_eq_none hlen, Piece.kind, Piece.text] using hx.symm
  | some q => exact w.isPunct_eq hq x

theorem isKeyOrLabel_eq (h : all[i]? = some p) :
    (Script.ofTokens ts).isKeyOrLabel i =
      (((nextAt all i).kind == .punctuator && (nextAt all i).text == ":") &&
        ((prevAt all i).kind == .punctuator &&
          (prevAt all i).text ∈ ["\x7b", ",", ";", "\x7d"])) := by
  rw [Script.isKeyOrLabel, w.isPunct_next i ":" (by decide)]
  rcases w.before?_cases h with ⟨ht, hp⟩ | ⟨t, ht, hk, hx⟩
  · rw [ht, hp]
    rfl
  · rw [ht]
    dsimp only
    rw [hk, hx]

end Neighbours

end Written

namespace Piece

theorem not_property_of_admits {p : Piece} (h : p.admits = true) :
    (p.kind == .punctuator && p.text ∈ [".", "?.", "#"]) = false := by
  have hsigns : ∀ x ∈ signs, x ≠ "." → x ∉ [".", "?.", "#"] := by decide
  cases p with
  | sign x hx => simpa [kind, text] using hsigns x hx (admits_sign.1 h)
  | _ => rfl

theorem not_jump_of_admits {p : Piece} (h : p.admits = true) :
    (p.kind == .keyword && p.text ∈ ["break", "continue"]) = false := by
  cases p with
  | keyword k hk => simpa [kind, text] using admits_keyword.1 h
  | _ => rfl

theorem leadsKey_eq (p : Piece) :
    (p.kind == .punctuator && p.text ∈ ["\x7b", ",", ";", "\x7d"]) = p.leadsKey := by
  cases p <;> rfl

theorem eq_colon {p : Piece} (h : (p.kind == .punctuator && p.text == ":") = true) :
    p = sign ":" := by
  cases p with
  | sign x hx =>
    obtain rfl : x = ":" := by simpa [kind, text] using h
    rfl
  | _ => cases h

end Piece

theorem map_filter_range_length {α β : Type} (l : List α) (P : Nat → Bool) (f : Nat → β)
    (g : α → Option β) (q : β → Bool)
    (h : ∀ i a, l[i]? = some a → P i = (g a).any q ∧ ∀ b, g a = some b → f i = b) :
    ((List.range l.length).filter P).map f = (l.filterMap g).filter q := by
  induction l generalizing P f with
  | nil => rfl
  | cons a l ih =>
    have hrest := ih (P ∘ Nat.succ) (f ∘ Nat.succ) fun i b hi => h (i + 1) b hi
    obtain ⟨hp, hf⟩ := h 0 a rfl
    rw [List.length_cons, List.range_succ_eq_map, List.filter_cons, hp, List.filterMap_cons,
      List.filter_map]
    cases hg : g a with
    | none => simpa using hrest
    | some b => cases hq : q b <;> simp [hq, hrest, hf b hg]

/-- The marks of the script are those that its pieces need, and every piece stands where it may
stand. -/
structure Faithful (all : List Piece) (s : Script) : Prop where
  fine {i : Nat} {q : Piece} : all[i]? = some q → Fine all s [] i q
  fits {i : Nat} {q : Piece} : all[i]? = some q → q.Fits (prevAt all i) (nextAt all i)

theorem Faithful.of_told {all : List Piece} {s : Script} (h : Told all s [] 0 all)
    (hfit : Piece.Fit (.sign ";") (.sign ";") all) : Faithful all s where
  fine hi := by simpa using h.get hi
  fits hi := hfit.fits hi

theorem Piece.Fit.not_block {prev next : Piece} {all : List Piece} (hfit : Piece.Fit prev next all)
    (i : Nat) (h : all[i]? = some (.sign ")")) : all[i + 1]? ≠ some (.sign "\x7b") := by
  intro hbrace
  exact hfit.fits h rfl (by rw [hbrace, Option.getD_some])

namespace Written

section Faithful

variable {all : List Piece} {ts : List Token} (w : Written all ts)
  (h : Faithful all (Script.ofTokens ts)) {i : Nat} {x : Identifier} {role : Role}

include w h

theorem sound {m : Mark} (hm : m ∈ (Script.ofTokens ts).marks) : Sound all m := by
  obtain ⟨i, hi, hm⟩ := List.mem_flatMap.1 hm
  have hlt : i < all.length := by
    rw [← w.size_eq]
    exact List.mem_range.1 hi
  exact (h.fine (List.getElem?_eq_getElem hlt)).sound m hm

/-- The declared names are those of the words that declare one where that is reached. -/
theorem mem_declaredNames {x : String} :
    x ∈ (Script.ofTokens ts).declaredNames ↔ x ∈ namesOf [.binds] all := by
  rw [Script.declaredNames, Script.declarations, List.mem_map, mem_namesOf]
  constructor
  · rintro ⟨i, hi, rfl⟩
    obtain ⟨y, hy⟩ := w.sound h (Declarations.mem_declared_ofMarks.1 hi)
    exact ⟨i, y, .binds, hy, List.mem_singleton_self _, (w.text_eq hy).symm⟩
  · rintro ⟨i, y, role, hy, hr, rfl⟩
    obtain rfl := List.mem_singleton.1 hr
    have hmade := (h.fine hy).made (.declares i) (List.mem_singleton_self _)
    exact ⟨i, Declarations.mem_declared_ofMarks.2 (hmade.resolve_left List.not_mem_nil),
      w.text_eq hy⟩

theorem isUse_eq_false (hi : all[i]? = some (.word x role)) (hr : role = .outer ∨ role = .plain) :
    (Script.ofTokens ts).isUse (Script.ofTokens ts).declarations i = false := by
  have htext : (Script.ofTokens ts).text i = x.text := w.text_eq hi
  rcases hr with rfl | rfl
  · have hmade := ((h.fine hi).made (.silences i) (List.mem_singleton_self _)).resolve_left
      List.not_mem_nil
    have hexcl : (Script.ofTokens ts).declarations.excludes i = true :=
      Declarations.excludes_ofMarks.2 (.inr hmade)
    simp [Script.isUse, hexcl]
  · rcases h.fits hi with hctx | hdot | ⟨hkey, hcolon⟩
    · simp [Script.isUse, htext, hctx]
    · have hprop : (Script.ofTokens ts).isProperty i = true := by
        rw [w.isProperty_eq hi, hdot]
        simp [Piece.kind, Piece.text]
      simp [Script.isUse, hprop]
    · have hlabel : (Script.ofTokens ts).isKeyOrLabel i = true := by
        rw [w.isKeyOrLabel_eq hi, Piece.leadsKey_eq, hkey, hcolon]
        simp [Piece.kind, Piece.text]
      simp [Script.isUse, hlabel]

theorem isUse_eq_true (hi : all[i]? = some (.word x role)) (hr : role = .uses ∨ role = .lost) :
    (Script.ofTokens ts).isUse (Script.ofTokens ts).declarations i = true := by
  have htext : (Script.ofTokens ts).text i = x.text := w.text_eq hi
  have hfits : x.text ∉ contextualKeywords ∧ (prevAt all i).admits = true ∧
      (nextAt all i = .sign ":" → (prevAt all i).leadsKey = false) := by
    rcases hr with rfl | rfl
    · exact h.fits hi
    · exact h.fits hi
  obtain ⟨hctx, hadmits, hcolon⟩ := hfits
  have hexcl : (Script.ofTokens ts).declarations.excludes i = false := by
    by_contra hne
    rw [Bool.not_eq_false, Script.declarations, Declarations.excludes_ofMarks] at hne
    rcases hne with hm | hm
    · obtain ⟨y, hy⟩ := w.sound h hm
      rw [hi] at hy
      cases hy
      simp at hr
    · obtain ⟨y, hy | hy⟩ := w.sound h hm
      · rw [hi] at hy
        cases hy
        simp at hr
      · rw [hi] at hy
        cases hy
        simp at hr
  have hprop : (Script.ofTokens ts).isProperty i = false := by
    rw [w.isProperty_eq hi, Piece.not_property_of_admits hadmits]
  have hjump : (Script.ofTokens ts).isJumpLabel i = false := by
    rw [w.isJumpLabel_eq hi, Piece.not_jump_of_admits hadmits]
  have hlabel : (Script.ofTokens ts).isKeyOrLabel i = false := by
    rw [w.isKeyOrLabel_eq hi, Piece.leadsKey_eq, Bool.and_eq_false_iff]
    by_cases hc : nextAt all i = .sign ":"
    · exact .inr (hcolon hc)
    · refine .inl ?_
      by_contra hne
      exact hc (Piece.eq_colon (by simpa using hne))
  simp [Script.isUse, htext, hctx, hexcl, hprop, hjump, hlabel]

/-- What the analysis of the free names answers, for every script that is faithful to its pieces. -/
theorem freeNames_eq :
    (Script.ofTokens ts).freeNames =
      ((namesOf [.uses, .lost] all).filter (· ∉ namesOf [.binds] all)).eraseDups := by
  rw [Script.freeNames, Script.freeUses, w.size_eq]
  congr 1
  refine map_filter_range_length _ _ _ _ _ fun i q hi => ?_
  have hname : (Script.ofTokens ts).isName i = (q.kind == .name) := w.isName_eq hi
  have hout {x : String} (hx : (Script.ofTokens ts).text i = x) :
      decide ((Script.ofTokens ts).text i ∉ (Script.ofTokens ts).declaredNames) =
        !decide (x ∈ namesOf [.binds] all) := by
    rw [hx, ← decide_not, decide_eq_decide, w.mem_declaredNames h]
  rw [hname]
  cases q with
  | word x role =>
    have htext : (Script.ofTokens ts).text i = x.text := w.text_eq hi
    have hout := hout htext
    rw [Script.declaredNames] at hout
    rw [hout, htext]
    cases role with
    | binds =>
      have hx : x.text ∈ namesOf [.binds] all :=
        mem_namesOf.2 ⟨i, x, .binds, hi, List.mem_singleton_self _, rfl⟩
      simp [Piece.nameAs?, hx]
    | outer => simp [Piece.nameAs?, w.isUse_eq_false h hi (.inl rfl)]
    | plain => simp [Piece.nameAs?, w.isUse_eq_false h hi (.inr rfl)]
    | uses => simp [Piece.nameAs?, Piece.kind, w.isUse_eq_true h hi (.inl rfl)]
    | lost => simp [Piece.nameAs?, Piece.kind, w.isUse_eq_true h hi (.inr rfl)]
  | _ => simp [Piece.nameAs?, Piece.kind]

end Faithful

theorem faithful (p : Phrase .stmts) {ts : List Token} (w : Written (p.pieces true) ts) :
    Faithful (p.pieces true) (Script.ofTokens ts) := by
  have hfit : Piece.Fit (.sign ";") (.sign ";") (p.pieces true) := p.fit true trivial
  have htold := w.told hfit.not_block p true 0 at_self (by simp)
  rw [if_pos rfl, p.own_of_isSilent rfl] at htold
  exact .of_told htold hfit

end Written

end MdxLint
