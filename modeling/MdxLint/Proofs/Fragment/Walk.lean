import MdxLint.Proofs.Fragment.Window
import MdxLint.Proofs.Script.Standing

/-! # Walks over values

Every expression can be walked over, up to the keyword of a function that a template brings to the
start of a line.
-/

namespace MdxLint

namespace Piece

def innerSigns : List String := [".", "(", "[", "\x7b", "+", "?", ":", "=>", "="]

def isInner : Piece → Bool
  | sign p _ => p ∈ innerSigns
  | headEnd => false
  | keyword _ _ => false
  | _ => true

def isLead : Piece → Bool
  | sign p _ => p ∈ ["+", "?", ":", "="]
  | opening turn => !turn
  | _ => false

theorem kind_of_isInner {p : Piece} (h : p.isInner = true) :
    p.kind ≠ .keyword ∧ (p.kind = .punctuator → p.text ∈ innerSigns) := by
  cases p with
  | sign x _ => exact ⟨nofun, fun _ => of_decide_eq_true h⟩
  | headEnd | keyword => cases h
  | _ => exact ⟨nofun, nofun⟩

end Piece

theorem Phrase.exists_cons_of_beginsFunction {c : Cat} (t : Phrase c) (r : Bool)
    (h : t.beginsFunction = true) : ∃ ps, t.pieces r = .functionWord :: ps := by
  induction t generalizing r <;> simp only [beginsFunction, Bool.false_eq_true] at h
  case function =>
    simp only [pieces, List.cons_append]
    exact ⟨_, rfl⟩
  case member ih =>
    obtain ⟨ps, hps⟩ := ih true h
    simp only [pieces, hps, List.cons_append]
    exact ⟨_, rfl⟩
  case callMember ih _ =>
    obtain ⟨ps, hps⟩ := ih true h
    simp only [pieces, hps, List.cons_append]
    exact ⟨_, rfl⟩
  case add ih _ =>
    obtain ⟨ps, hps⟩ := ih true h
    simp only [pieces, hps, List.cons_append]
    exact ⟨_, rfl⟩
  case cond ih _ _ =>
    obtain ⟨ps, hps⟩ := ih true h
    simp only [pieces, hps, List.cons_append]
    exact ⟨_, rfl⟩

/-- The pieces of an expression are good, but for keywords of functions. Such a keyword is good
behind a piece that ends no value. -/
structure Walkable (all : List Piece) (good : Nat → Prop) : Prop where
  inner : ∀ i p, all[i]? = some p → p.isInner = true → good i
  behind : ∀ i p, all[i]? = some p → p.isLead = true → all[i + 1]? = some .functionWord →
    good (i + 1)

namespace Written

variable {all : List Piece} {ts : List Token} (w : Written all ts) {good : Nat → Prop}

include w

theorem walk_single {i : Nat} {p : Piece} (h : all[i]? = some p) (ho : p.opens = false)
    (hc : p.closes = false) (hi : good i) : (Script.ofTokens ts).Walk good i (i + 1) :=
  .step hi ((Script.Walk.refl _).upTo (by rw [w.extent_eq_one h ho hc]))

theorem walk_group {n : Nat} {o c : Piece} {ps : List Piece} (ho : all[n]? = some o)
    (hps : At all (n + 1) ps) (hc : all[n + 1 + ps.length]? = some c) (hoc : o.Closes c)
    (hopen : o.opens = true) (hnest : Nested ps) (hn : good n) :
    (Script.ofTokens ts).Walk good n (n + 1 + ps.length + 1) :=
  .step hn ((Script.Walk.refl _).upTo (by
    rw [w.extent_opening ho hps hc hoc hopen hnest]
    omega))

theorem walk_inner (hg : Walkable all good) {i : Nat} {p : Piece} (h : all[i]? = some p)
    (hp : p.isInner = true) (ho : p.opens = false) (hc : p.closes = false) :
    (Script.ofTokens ts).Walk good i (i + 1) := w.walk_single h ho hc (hg.inner _ _ h hp)

theorem walk_parens (hg : Walkable all good) {n : Nat} {c : Piece} {ps : List Piece}
    (ho : all[n]? = some (.sign "(")) (hps : At all (n + 1) ps)
    (hc : all[n + 1 + ps.length]? = some c) (hoc : Piece.Closes (.sign "(") c)
    (hnest : Nested ps) : (Script.ofTokens ts).Walk good n (n + 1 + ps.length + 1) :=
  w.walk_group ho hps hc hoc rfl hnest (hg.inner _ _ ho rfl)

theorem walk_block (hg : Walkable all good) {n : Nat} {ps : List Piece}
    (ho : all[n]? = some (.sign "\x7b")) (hps : At all (n + 1) ps)
    (hc : all[n + 1 + ps.length]? = some (.sign "\x7d")) (hnest : Nested ps) :
    (Script.ofTokens ts).Walk good n (n + 1 + ps.length + 1) :=
  w.walk_group ho hps hc .curly rfl hnest (hg.inner _ _ ho rfl)

omit w in
theorem functionWord_of_beginsFunction {c : Cat} {t : Phrase c} {r : Bool} {n : Nat}
    (hat : At all n (t.pieces r)) (h : t.beginsFunction = true) :
    all[n]? = some .functionWord := by
  obtain ⟨ps, hps⟩ := t.exists_cons_of_beginsFunction r h
  rw [hps, at_cons] at hat
  exact hat.1

/-- An expression can be walked over. The keyword that it begins with has to be good, and all
keywords of functions have to be if a template in it breaks off. -/
theorem walk_expr (hg : Walkable all good) {c : Cat} (t : Phrase c) (hc : c = .expr) (r : Bool)
    (n : Nat) (hat : At all n (t.pieces r)) (first : t.beginsFunction = true → good n)
    (hb : t.breaks = true → ∀ i, all[i]? = some .functionWord → good i) :
    (Script.ofTokens ts).Walk good n (n + (t.pieces r).length) := by
  -- an expression that stands behind a sign
  have behind {e : Phrase .expr} {i : Nat} {p : Piece} (hp : all[i]? = some p)
      (hl : p.isLead = true) (he : At all (i + 1) (e.pieces true)) :
      e.beginsFunction = true → good (i + 1) :=
    fun h => hg.behind i p hp hl (functionWord_of_beginsFunction he h)
  induction t generalizing r n <;> cases hc <;>
    simp only [Phrase.pieces, List.cons_append, List.nil_append, List.append_assoc,
      at_cons, at_append, at_nil, and_true] at hat
  case name | number | string => exact w.walk_inner hg hat rfl rfl rfl
  case member ih =>
    obtain ⟨he, hdot, hx⟩ := hat
    refine ((ih rfl true n he first hb).trans ((w.walk_inner hg hdot rfl rfl rfl).trans
      (w.walk_inner hg hx rfl rfl rfl))).upTo ?_
    simp [Phrase.pieces]
    omega
  case callName es _ =>
    obtain ⟨hf, ho, hes, hcl⟩ := hat
    refine ((w.walk_inner hg hf rfl rfl rfl).trans
      (w.walk_parens hg ho hes hcl .round (es.nested true))).upTo ?_
    simp [Phrase.pieces]
    omega
  case callMember es ih _ =>
    obtain ⟨he, hdot, hx, ho, hes, hcl⟩ := hat
    refine ((ih rfl true n he first hb).trans ((w.walk_inner hg hdot rfl rfl rfl).trans
      ((w.walk_inner hg hx rfl rfl rfl).trans
        (w.walk_parens hg ho hes hcl .round (es.nested true))))).upTo ?_
    simp [Phrase.pieces]
    omega
  case callGroup e es _ _ =>
    obtain ⟨ho, he, hcl, ho', hes, hcl'⟩ := hat
    refine ((w.walk_parens hg ho he hcl .round (e.nested true)).trans
      (w.walk_parens hg ho' hes hcl' .round (es.nested true))).upTo ?_
    simp [Phrase.pieces]
    omega
  case group e _ =>
    obtain ⟨ho, he, hcl⟩ := hat
    refine (w.walk_parens hg ho he hcl .round (e.nested true)).upTo ?_
    simp [Phrase.pieces]
    omega
  case array es _ =>
    obtain ⟨ho, hes, hcl⟩ := hat
    refine (w.walk_group ho hes hcl .square rfl (es.nested true) (hg.inner _ _ ho rfl)).upTo ?_
    simp [Phrase.pieces]
    omega
  case object es _ =>
    obtain ⟨ho, hes, hcl⟩ := hat
    refine (w.walk_block hg ho hes hcl (es.nested true)).upTo ?_
    simp [Phrase.pieces]
    omega
  case add a b iha ihb =>
    obtain ⟨ha, hplus, hb'⟩ := hat
    have hbr : (Phrase.add a b).breaks = (a.breaks || b.breaks) := rfl
    refine ((iha rfl true n ha first fun h => hb (by simp [hbr, h])).trans
      ((w.walk_inner hg hplus rfl rfl rfl).trans
        (ihb rfl true _ hb' (behind hplus rfl hb') fun h => hb (by simp [hbr, h])))).upTo ?_
    simp [Phrase.pieces]
    omega
  case cond a b c iha ihb ihc =>
    obtain ⟨ha, hq, hb', hcolon, hc⟩ := hat
    have hbr : (Phrase.cond a b c).breaks = (a.breaks || b.breaks || c.breaks) := rfl
    refine ((iha rfl true n ha first fun h => hb (by simp [hbr, h])).trans
      ((w.walk_inner hg hq rfl rfl rfl).trans
        ((ihb rfl true _ hb' (behind hq rfl hb') fun h => hb (by simp [hbr, h])).trans
          ((w.walk_inner hg hcolon rfl rfl rfl).trans
            (ihc rfl true _ hc (behind hcolon rfl hc) fun h => hb (by simp [hbr, h])))))).upTo ?_
    simp [Phrase.pieces]
    omega
  case function f ps body _ _ =>
    obtain ⟨hk, hf, ho, hps, hend, ho', hbody, hcl⟩ := hat
    have hname : (Script.ofTokens ts).Walk good (n + 1)
        (n + 1 + (f.map (Piece.binder true)).toList.length) := by
      cases f with
      | none => exact .refl _
      | some x => exact w.walk_inner hg (by simpa using hf) rfl rfl rfl
    refine ((w.walk_single hk rfl rfl (first rfl)).trans (hname.trans
      ((w.walk_parens hg ho hps hend .head (ps.nested true)).trans
        (w.walk_block hg ho' hbody hcl (body.nested true))))).upTo ?_
    simp [Phrase.pieces]
    omega
  case arrow ps e _ _ =>
    obtain ⟨ho, hps, hcl, harrow, ho', he, hcl'⟩ := hat
    refine ((w.walk_parens hg ho hps hcl .round (ps.nested true)).trans
      ((w.walk_inner hg harrow rfl rfl rfl).trans
        (w.walk_parens hg ho' he hcl' .round (e.nested true)))).upTo ?_
    simp [Phrase.pieces]
    omega
  case template turn e ih =>
    obtain ⟨ho, he, hcl⟩ := hat
    have hbr : (Phrase.template turn e).breaks = ((turn && e.beginsFunction) || e.breaks) := rfl
    refine ((w.walk_inner hg ho rfl rfl rfl).trans ((ih rfl true _ he ?_ fun h => hb ?_).trans
      (w.walk_inner hg hcl rfl rfl rfl))).upTo ?_
    · intro h
      cases turn with
      | false => exact behind ho rfl he h
      | true => exact hb (by simp [hbr, h]) _ (functionWord_of_beginsFunction he h)
    · simp [hbr, h]
    · simp [Phrase.pieces]
      omega

/-- If a template in an expression breaks off, a walk leads to the keyword of a function behind the
opening of that template. -/
theorem exists_walk_of_breaks (hg : Walkable all good) {c : Cat} (t : Phrase c) (hc : c = .expr)
    (r : Bool) (n : Nat) (hat : At all n (t.pieces r)) (first : t.beginsFunction = true → good n)
    (hb : t.breaks = true) :
    ∃ i, (Script.ofTokens ts).Walk good n (i + 1) ∧ all[i]? = some (.opening true) ∧
      all[i + 1]? = some .functionWord := by
  have behind {e : Phrase .expr} {i : Nat} {p : Piece} (hp : all[i]? = some p)
      (hl : p.isLead = true) (he : At all (i + 1) (e.pieces true)) :
      e.beginsFunction = true → good (i + 1) :=
    fun h => hg.behind i p hp hl (functionWord_of_beginsFunction he h)
  -- an expression in front of the template, and the sign behind it
  have pass {e : Phrase .expr} {n : Nat} {p : Piece} (he : At all n (e.pieces true))
      (first : e.beginsFunction = true → good n) (hnb : e.breaks ≠ true)
      (hp : all[n + (e.pieces true).length]? = some p) (hi : p.isInner = true)
      (ho : p.opens = false) (hc : p.closes = false) :
      (Script.ofTokens ts).Walk good n (n + (e.pieces true).length + 1) :=
    (w.walk_expr hg e rfl true n he first fun h => (hnb h).elim).trans (w.walk_inner hg hp hi ho hc)
  induction t generalizing r n <;> cases hc <;>
    simp only [Phrase.breaks, Bool.false_eq_true] at hb <;>
    simp only [Phrase.pieces, List.cons_append, List.nil_append, List.append_assoc,
      at_cons, at_append, at_nil, and_true] at hat
  case member ih => exact ih rfl true n hat.1 first hb
  case callMember ih _ => exact ih rfl true n hat.1 first hb
  case add a b iha ihb =>
    obtain ⟨ha, hplus, hb'⟩ := hat
    by_cases hab : a.breaks = true
    · exact iha rfl true n ha first hab
    · obtain ⟨i, hw, hi⟩ := ihb rfl true _ hb' (behind hplus rfl hb') (by simpa [hab] using hb)
      exact ⟨i, (pass ha first hab hplus rfl rfl rfl).trans hw, hi⟩
  case cond a b c iha ihb ihc =>
    obtain ⟨ha, hq, hb', hcolon, hc⟩ := hat
    by_cases hab : a.breaks = true
    · exact iha rfl true n ha first hab
    have toB := pass ha first hab hq rfl rfl rfl
    by_cases hbb : b.breaks = true
    · obtain ⟨i, hw, hi⟩ := ihb rfl true _ hb' (behind hq rfl hb') hbb
      exact ⟨i, toB.trans hw, hi⟩
    · have toC := pass hb' (behind hq rfl hb') hbb hcolon rfl rfl rfl
      obtain ⟨i, hw, hi⟩ := ihc rfl true _ hc (behind hcolon rfl hc) (by simpa [hab, hbb] using hb)
      exact ⟨i, toB.trans (toC.trans hw), hi⟩
  case template turn e ih =>
    obtain ⟨ho, he, -⟩ := hat
    have hw := w.walk_inner hg ho rfl rfl rfl
    by_cases hturn : turn = true ∧ e.beginsFunction = true
    · obtain ⟨rfl, hbf⟩ := hturn
      exact ⟨n, hw, ho, functionWord_of_beginsFunction he hbf⟩
    · have hfirst : e.beginsFunction = true → good (n + 1) := by
        intro h
        cases turn with
        | false => exact behind ho rfl he h
        | true => exact (hturn ⟨rfl, h⟩).elim
      have hbe : e.breaks = true := by
        rw [Bool.or_eq_true, Bool.and_eq_true] at hb
        exact hb.resolve_left hturn
      obtain ⟨i, hw', hi⟩ := ih rfl true _ he hfirst hbe
      exact ⟨i, hw.trans hw', hi⟩

end Written

end MdxLint
