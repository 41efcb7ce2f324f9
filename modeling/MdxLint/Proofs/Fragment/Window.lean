import MdxLint.Proofs.Fragment.Nested
import MdxLint.Proofs.Script.Brackets

/-! # Windows of a script

A script is written with pieces if its tokens are those pieces one by one. A window says which
pieces stand from an index on; the functions on scripts are read off the pieces there.
-/

namespace MdxLint

def At (all : List Piece) (n : Nat) (ps : List Piece) : Prop := ps <+: all.drop n

section At

variable {all : List Piece} {n : Nat} {ps qs : List Piece} {p : Piece}

@[simp] theorem at_nil : At all n [] := List.nil_prefix

@[simp] theorem at_cons : At all n (p :: ps) ↔ all[n]? = some p ∧ At all (n + 1) ps := by
  unfold At
  rw [← List.tail_drop, ← List.head?_drop]
  cases all.drop n with
  | nil => simp
  | cons q rest => simp [eq_comm]

@[simp] theorem at_append : At all n (ps ++ qs) ↔ At all n ps ∧ At all (n + ps.length) qs := by
  induction ps generalizing n with
  | nil => simp
  | cons p ps ih =>
    rw [List.cons_append, at_cons, at_cons, ih, and_assoc, List.length_cons,
      show n + 1 + ps.length = n + (ps.length + 1) by omega]

theorem at_self : At all 0 all := List.prefix_refl _

theorem At.exists_append (h : At all n (p :: ps)) :
    ∃ pre post, all = pre ++ (p :: ps ++ post) ∧ pre.length = n := by
  obtain ⟨post, hpost⟩ := h
  refine ⟨all.take n, post, by rw [hpost, List.take_append_drop], ?_⟩
  rw [List.length_take, Nat.min_eq_left]
  by_contra hn
  rw [List.drop_eq_nil_of_le (by omega)] at hpost
  cases hpost

end At

namespace Piece

def opens (p : Piece) : Bool := (p.token .origin).opens

def closes (p : Piece) : Bool := (p.token .origin).closes

theorem not_bracket_of_isPlain {p : Piece} (h : p.isPlain = true) :
    p.opens = false ∧ p.closes = false := by
  cases p with
  | sign x hx =>
    have hne : x ∉ ["(", ")", "[", "]", "\x7b", "\x7d"] := by simpa [isPlain] using h
    simp only [List.mem_cons, not_or] at hne
    constructor
    · simp only [opens, token, Token.opens, kind, text, Bracket.ofOpener?]
      split <;> simp_all
    · simp only [closes, token, Token.closes, kind, text, Bracket.ofCloser?]
      split <;> simp_all
  | headEnd | opening | ending => cases h
  | _ => exact ⟨rfl, rfl⟩

theorem Closes.cases {o c : Piece} (h : o.Closes c) :
    (o.opens = true ∧ c.opens = false ∧ c.closes = true) ∨
      (o.opens = false ∧ o.closes = false ∧ c.opens = false ∧ c.closes = false) := by
  cases h with
  | template => exact .inr ⟨rfl, rfl, rfl, rfl⟩
  | _ => exact .inl ⟨rfl, rfl, rfl⟩

end Piece

section Brackets

variable {t : Token} {p : Piece}

theorem opens_eq (h : (t.kind, t.text) = (p.kind, p.text)) : t.opens = p.opens := by
  simp only [Prod.mk.injEq] at h
  simp only [Piece.opens, Piece.token, Token.opens, h.1, h.2]

theorem closes_eq (h : (t.kind, t.text) = (p.kind, p.text)) : t.closes = p.closes := by
  simp only [Prod.mk.injEq] at h
  simp only [Piece.closes, Piece.token, Token.closes, h.1, h.2]

theorem Nested.balanced {ps : List Piece} (h : Nested ps) {ts : List Token}
    (hts : ts.map (fun t => (t.kind, t.text)) = ps.map fun p => (p.kind, p.text)) :
    Balanced ts := by
  induction h generalizing ts with
  | nil =>
    rw [List.map_nil, List.map_eq_nil_iff] at hts
    exact hts ▸ .nil
  | cons hp _ ih =>
    obtain ⟨t, ts, rfl, ht, hts⟩ := List.map_eq_cons_iff.1 hts
    obtain ⟨ho, hc⟩ := Piece.not_bracket_of_isPlain hp
    exact .cons (opens_eq ht ▸ ho) (closes_eq ht ▸ hc) (ih hts)
  | wrap hoc _ _ ihp ihq =>
    obtain ⟨o, ts, rfl, ho, hts⟩ := List.map_eq_cons_iff.1 hts
    rw [List.map_append, List.map_cons] at hts
    obtain ⟨inner, us, rfl, hinner, hus⟩ := List.map_eq_append_iff.1 hts
    obtain ⟨c, us, rfl, hc, hus⟩ := List.map_eq_cons_iff.1 hus
    rcases hoc.cases with ⟨h₁, h₂, h₃⟩ | ⟨h₁, h₂, h₃, h₄⟩
    · exact .wrap (opens_eq ho ▸ h₁) ⟨opens_eq hc ▸ h₂, closes_eq hc ▸ h₃⟩ (ihp hinner) (ihq hus)
    · exact .cons (opens_eq ho ▸ h₁) (closes_eq ho ▸ h₂)
        ((ihp hinner).append (.cons (opens_eq hc ▸ h₃) (closes_eq hc ▸ h₄) (ihq hus)))

end Brackets

/-- The tokens are the pieces, and a line begins behind the opening of a template exactly if that
says so. -/
structure Written (all : List Piece) (ts : List Token) : Prop where
  same : ts.map (fun t => (t.kind, t.text)) = all.map fun p => (p.kind, p.text)
  turns : ∀ i turn t u, all[i]? = some (.opening turn) → ts[i]? = some t → ts[i + 1]? = some u →
    decide (t.place.line < u.place.line) = turn

namespace Written

variable {all : List Piece} {ts : List Token} (w : Written all ts) {i : Nat} {p : Piece}

include w

theorem size_eq : (Script.ofTokens ts).size = all.length := by
  simpa [Script.ofTokens, Script.size] using congrArg List.length w.same

section Piece

variable (h : all[i]? = some p)

include h

theorem exists_token :
    ∃ t, (Script.ofTokens ts).tokens[i]? = some t ∧ (t.kind, t.text) = (p.kind, p.text) := by
  have hi := congrArg (·[i]?) w.same
  simp only [List.getElem?_map, h, Option.map_some] at hi
  obtain ⟨t, ht, he⟩ := Option.map_eq_some_iff.1 hi
  exact ⟨t, by simpa [Script.ofTokens] using ht, he⟩

theorem lt_size : i < (Script.ofTokens ts).size := by
  rw [w.size_eq]
  exact (List.getElem?_eq_some_iff.1 h).1

theorem kind?_eq : (Script.ofTokens ts).kind? i = some p.kind := by
  obtain ⟨t, ht, he⟩ := w.exists_token h
  rw [Script.kind?, ht, Option.map_some, (Prod.mk.inj he).1]

theorem text_eq : (Script.ofTokens ts).text i = p.text := by
  obtain ⟨t, ht, he⟩ := w.exists_token h
  rw [Script.text, ht, Option.map_some, (Prod.mk.inj he).2]
  rfl

theorem isName_eq : (Script.ofTokens ts).isName i = (p.kind == .name) := by
  rw [Script.isName, w.kind?_eq h]
  rfl

theorem isPunct_eq (x : String) :
    (Script.ofTokens ts).isPunct i x = (p.kind == .punctuator && p.text == x) := by
  obtain ⟨t, ht, he⟩ := w.exists_token h
  rw [Script.isPunct, ht, Option.any_some, Token.isPunct, (Prod.mk.inj he).1, (Prod.mk.inj he).2]

theorem extent_eq_one (ho : p.opens = false) (hc : p.closes = false) :
    (Script.ofTokens ts).extent i = 1 := by
  obtain ⟨t, ht, he⟩ := w.exists_token h
  rw [Script.tokens_ofTokens] at ht
  unfold Script.extent
  cases hj : (Script.ofTokens ts).partner? i with
  | none => rfl
  | some j =>
    rcases Script.partner?_cases hj with ⟨-, h, -⟩ | ⟨-, h, -⟩
    · simp [ht, opens_eq he, ho] at h
    · simp [ht, closes_eq he, hc] at h

end Piece

section Group

variable {n : Nat} {o c : Piece} {ps : List Piece} (ho : all[n]? = some o) (hps : At all (n + 1) ps)
  (hc : all[n + 1 + ps.length]? = some c) (hoc : o.Closes c) (hopen : o.opens = true)
  (hnest : Nested ps)

include ho hps hc hoc hopen hnest

theorem partner?_opening : (Script.ofTokens ts).partner? n = some (n + 1 + ps.length) := by
  have hat : At all n (o :: (ps ++ [c])) := by simp [ho, hps, hc]
  obtain ⟨pre, post, rfl, rfl⟩ := hat.exists_append
  have hsame := w.same
  rw [List.map_append] at hsame
  obtain ⟨tpre, us, rfl, hpre, hus⟩ := List.map_eq_append_iff.1 hsame
  rw [List.cons_append, List.append_assoc, List.singleton_append, List.map_cons] at hus
  obtain ⟨u, us, rfl, hto, hus⟩ := List.map_eq_cons_iff.1 hus
  rw [List.map_append, List.map_cons] at hus
  obtain ⟨tps, us, rfl, htps, hus⟩ := List.map_eq_append_iff.1 hus
  obtain ⟨v, us, rfl, htc, -⟩ := List.map_eq_cons_iff.1 hus
  have hbr : c.opens = false ∧ c.closes = true := by
    rcases hoc.cases with h | h
    · exact h.2
    · exact absurd hopen (by simp [h.1])
  have hlen {ts : List Token} {ps : List Piece}
      (h : ts.map (fun t => (t.kind, t.text)) = ps.map fun p => (p.kind, p.text)) :
      ts.length = ps.length := by simpa using congrArg List.length h
  rw [← hlen hpre, ← hlen htps]
  exact Script.partner?_of_group (opens_eq hto ▸ hopen)
    ⟨opens_eq htc ▸ hbr.1, closes_eq htc ▸ hbr.2⟩ (hnest.balanced htps)

theorem partner?_closing : (Script.ofTokens ts).partner? (n + 1 + ps.length) = some n :=
  Script.partner?_comm.1 (w.partner?_opening ho hps hc hoc hopen hnest)

theorem paired_opening : (Script.ofTokens ts).paired n = true := by
  rw [Script.paired, w.partner?_opening ho hps hc hoc hopen hnest]
  rfl

theorem extent_opening : (Script.ofTokens ts).extent n = ps.length + 2 := by
  rw [Script.extent, w.partner?_opening ho hps hc hoc hopen hnest]
  dsimp only
  omega

theorem lastOf_opening : (Script.ofTokens ts).lastOf n = n + 1 + ps.length := by
  rw [Script.lastOf, w.extent_opening ho hps hc hoc hopen hnest]
  omega

end Group

end Written

end MdxLint
