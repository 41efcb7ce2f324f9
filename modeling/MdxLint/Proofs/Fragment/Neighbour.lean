import MdxLint.Proofs.Fragment.Phrase

/-! # Neighbours of words

What a word of a program stands for can be told from the pieces right before and behind it.
-/

namespace MdxLint

namespace Piece

section Fits

variable {prev next : Piece}

@[simp] theorem admits_sign {x : String} {h : x ∈ signs} :
    (sign x h).admits = true ↔ x ≠ "." := decide_eq_true_iff

@[simp] theorem admits_keyword {k : String} {h : k ∈ keywords} :
    (keyword k h).admits = true ↔ k ∉ ["break", "continue"] := decide_eq_true_iff

@[simp] theorem admits_opening {turn : Bool} : (opening turn).admits = true := rfl

@[simp] theorem admits_word {w : Identifier} {role : Role} : (word w role).admits = true := rfl

@[simp] theorem leadsKey_sign {x : String} {h : x ∈ signs} :
    (sign x h).leadsKey = decide (x ∈ ["\x7b", ",", ";", "\x7d"]) := rfl

@[simp] theorem leadsKey_opening {turn : Bool} : (opening turn).leadsKey = false := rfl

@[simp] theorem ends_sign {x : String} {h : x ∈ signs} :
    (sign x h).ends = true ↔ x ∉ [":", "\x7b"] := decide_eq_true_iff

@[simp] theorem ends_headEnd : headEnd.ends = true := rfl

@[simp] theorem ends_word {w : Identifier} {role : Role} : (word w role).ends = true := rfl

@[simp] theorem admits_as : as.admits = true := rfl

@[simp] theorem admits_ofWord : ofWord.admits = true := rfl

@[simp] theorem ends_ofWord : ofWord.ends = true := rfl

@[simp] theorem as_ne_sign {x : String} {h : x ∈ signs} : as ≠ sign x h := nofun

@[simp] theorem fromWord_ne_sign {x : String} {h : x ∈ signs} : fromWord ≠ sign x h := nofun

theorem ne_of_ends (h : next.ends = true) : next ≠ sign ":" ∧ next ≠ sign "\x7b" := by
  constructor
  · rintro rfl
    simp at h
  · rintro rfl
    simp at h

@[simp] theorem fits_sign {x : String} {h : x ∈ signs} :
    (sign x h).Fits prev next ↔ (x = ")" → next ≠ sign "\x7b") := Iff.rfl

@[simp] theorem fits_keyword {k : String} {h : k ∈ keywords} : (keyword k h).Fits prev next :=
  trivial

@[simp] theorem fits_number {d : Digits} : (number d).Fits prev next := trivial

@[simp] theorem fits_string {q : Quote} : (string q).Fits prev next := trivial

@[simp] theorem fits_headEnd : headEnd.Fits prev next := trivial

@[simp] theorem fits_opening {turn : Bool} : (opening turn).Fits prev next := trivial

@[simp] theorem fits_ending : ending.Fits prev next := trivial

@[simp] theorem fits_outer {w : Identifier} : (word w .outer).Fits prev next := trivial

@[simp] theorem fits_uses {x : Name} :
    (word x.toIdentifier .uses).Fits prev next ↔
      prev.admits = true ∧ (next = sign ":" → prev.leadsKey = false) := by
  simp [Fits, x.not_contextual]

@[simp] theorem fits_binds {x : Name} :
    (word x.toIdentifier .binds).Fits prev next ↔
      prev.admits = true ∧ (next = sign ":" → prev.leadsKey = false) := by
  simp [Fits, x.not_contextual]

@[simp] theorem fits_use {x : Name} :
    (use x).Fits prev next ↔
      prev.admits = true ∧ (next = sign ":" → prev.leadsKey = false) := fits_uses

@[simp] theorem fits_binder {x : Name} {r : Bool} :
    (binder r x).Fits prev next ↔
      prev.admits = true ∧ (next = sign ":" → prev.leadsKey = false) := by
  cases r <;> simp [binder, Fits, x.not_contextual]

@[simp] theorem fits_plain {x : Name} :
    (plain x).Fits prev next ↔ prev = sign "." ∨ (prev.leadsKey = true ∧ next = sign ":") := by
  simp [plain, Fits, x.not_contextual]

@[simp] theorem fits_as : as.Fits prev next := .inl (by decide)

@[simp] theorem fits_fromWord : fromWord.Fits prev next := .inl (by decide)

@[simp] theorem fits_ofWord : ofWord.Fits prev next := .inl (by decide)

end Fits

section Fit

variable {prev next p : Piece} {ps qs : List Piece}

@[simp] theorem fit_nil : Fit prev next [] := trivial

@[simp] theorem fit_cons :
    Fit prev next (p :: ps) ↔ p.Fits prev (ps.headD next) ∧ Fit p next ps := Iff.rfl

@[simp] theorem fit_append :
    Fit prev next (ps ++ qs) ↔
      Fit prev (qs.headD next) ps ∧ Fit (ps.getLastD prev) next qs := by
  induction ps generalizing prev with
  | nil => simp
  | cons p ps ih =>
    have hhead : (ps ++ qs).headD next = ps.headD (qs.headD next) := by
      cases ps <;> rfl
    have hlast : (p :: ps).getLastD prev = ps.getLastD p := by
      cases ps <;> rfl
    rw [List.cons_append, fit_cons, ih, fit_cons, hhead, hlast, and_assoc]

theorem Fit.comma {first : Bool} (h : Fit (prev.lead first) next ps) :
    Fit prev next (comma first ++ ps) := by
  cases first with
  | true => exact h
  | false => exact ⟨by simp, h⟩

theorem Fit.fits (h : Fit prev next ps) {i : Nat} (hi : ps[i]? = some p) :
    p.Fits ((prev :: ps)[i]?.getD prev) (ps[i + 1]?.getD next) := by
  induction ps generalizing prev i with
  | nil => simp at hi
  | cons q ps ih =>
    cases i with
    | zero =>
      cases hi
      cases ps <;> exact h.1
    | succ i =>
      have hfits := ih h.2 hi
      have hlt : i < (q :: ps).length := by
        have := (List.getElem?_eq_some_iff.1 hi).1
        omega
      simpa [List.getElem?_eq_getElem hlt] using hfits

end Fit

end Piece

theorem Phrase.ends_headD {c : Cat} (t : Phrase c) (r : Bool) (next : Piece)
    (hc : c.goesOn = true ∨ c = .default) (h : next.ends = true) :
    ((t.pieces r).head?.getD next).ends = true := by
  rcases hc with hc | rfl
  · rcases t.pieces_cases r hc with hnil | ⟨ps, hps⟩
    · rwa [hnil]
    · rw [hps]
      rfl
  · cases t with
    | noDefault => exact h
    | value => rfl

theorem Phrase.fit {c : Cat} (t : Phrase c) (r : Bool) {prev next : Piece}
    (h : c.Between prev next) : Piece.Fit prev next (t.pieces r) := by
  -- an expression that something else than a colon or a brace follows
  have expr {prev next : Piece} (hp : prev.admits = true) (hn : next.ends = true) :
      Cat.expr.Between prev next :=
    ⟨hp, (Piece.ne_of_ends hn).2, fun h => ((Piece.ne_of_ends hn).1 h).elim⟩
  have rest {c : Cat} (t : Phrase c) (r : Bool) {next : Piece} (hc : c.goesOn = true) :=
    t.ends_headD r next (.inl hc)
  have default (t : Phrase .default) {next : Piece} := t.ends_headD true next (.inr rfl)
  have colon {next : Piece} {b : Bool} (hn : next.ends = true) : next = .sign ":" → b = false :=
    fun h => ((Piece.ne_of_ends hn).1 h).elim
  induction t generalizing r prev next <;>
    simp only [pieces, List.cons_append, List.nil_append, List.append_assoc]
  case name => exact ⟨by simpa using ⟨h.1, h.2.2⟩, trivial⟩
  case number | string => exact ⟨trivial, trivial⟩
  case member ih => simpa using ih true ⟨h.1, by simp, by simp⟩
  case callName ih => simpa using ⟨h.1, ih true ⟨by simp [Piece.lead], by simp⟩, h.2.1⟩
  case callMember ih ihes =>
    simpa using ⟨ih true ⟨h.1, by simp, by simp⟩, ihes true ⟨by simp [Piece.lead], by simp⟩, h.2.1⟩
  case callGroup ih ihes =>
    simpa using ⟨ih true (expr (by simp) (by simp)),
      ihes true ⟨by simp [Piece.lead], by simp⟩, h.2.1⟩
  case group ih => simpa using ⟨ih true (expr (by simp) (by simp)), h.2.1⟩
  case array ih => simpa using ih true ⟨by simp [Piece.lead], by simp⟩
  case object ih => simpa using ih true ⟨by simp [Piece.lead], by simp [Piece.lead], by simp⟩
  case add iha ihb =>
    simpa using ⟨iha true ⟨h.1, by simp, by simp⟩, ihb true ⟨by simp, h.2.1, by simp⟩⟩
  case cond iha ihb ihc =>
    simpa using ⟨iha true ⟨h.1, by simp, by simp⟩, ihb true ⟨by simp, by simp, by simp⟩,
      ihc true ⟨by simp, h.2.1, by simp⟩⟩
  case function f _ _ ihps ihbody =>
    have hname : (Piece.keyword "function").Fit (.sign "(")
        (f.map (Piece.binder true)).toList := by
      cases f with
      | none => trivial
      | some x => simp
    simpa using ⟨hname, ihps true ⟨by simp [Piece.lead], by simp⟩, ihbody true trivial⟩
  case arrow ihps ihe =>
    simpa using ⟨ihps true ⟨by simp [Piece.lead], by simp⟩, ihe true (expr (by simp) (by simp)),
      h.2.1⟩
  case template ih => simpa using ih true ⟨by simp, by simp, by simp⟩
  case noArgs | noEntries | noFields | noParams | noDefault | noStmts | noSpecs => trivial
  case arg es ih ihes =>
    refine .comma ?_
    simpa using ⟨ih true (expr h.1 (rest es true rfl h.2)), ihes true ⟨rfl, h.2⟩⟩
  case pair es ih ihes =>
    refine .comma ?_
    simpa using ⟨.inr h.2.1, ih true (expr (by simp) (rest es true rfl h.2.2)),
      ihes true ⟨rfl, rfl, h.2.2⟩⟩
  case short es ihes =>
    refine .comma ?_
    simpa using ⟨⟨h.1, colon (rest es true rfl h.2.2)⟩, ihes true ⟨rfl, rfl, h.2.2⟩⟩
  case spread es ih ihes =>
    refine .comma ?_
    simpa using ⟨ih true (expr (by simp) (rest es true rfl h.2.2)), ihes true ⟨rfl, rfl, h.2.2⟩⟩
  case bind => simpa using ⟨h.1, colon h.2⟩
  case objectPattern ih => simpa using ih r ⟨by simp [Piece.lead], by simp [Piece.lead], by simp⟩
  case arrayPattern ih => simpa using ih r ⟨by simp [Piece.lead], by simp⟩
  case restField =>
    refine .comma ?_
    simp
  case field d fs ihd ihfs =>
    refine .comma ?_
    have hfs := rest fs r rfl h.2.2
    simpa using ⟨⟨h.1, colon (default d hfs)⟩, ihd true hfs, ihfs r ⟨rfl, rfl, h.2.2⟩⟩
  case keyed p d fs ihp ihd ihfs =>
    refine .comma ?_
    have hfs := rest fs r rfl h.2.2
    simpa using ⟨.inr h.2.1, ihp r ⟨by simp, default d hfs⟩, ihd true hfs,
      ihfs r ⟨rfl, rfl, h.2.2⟩⟩
  case restParam =>
    refine .comma ?_
    simp
  case param p d ps ihp ihd ihps =>
    refine .comma ?_
    have hps := rest ps r rfl h.2
    simpa using ⟨ihp r ⟨h.1, default d hps⟩, ihd true hps, ihps r ⟨rfl, h.2⟩⟩
  case value ih => simpa using ih true (expr (by simp) h)
  case lastDeclarator ihp ihe =>
    simpa using ⟨ihp r ⟨h.1, by simp⟩, ihe true (expr (by simp) h.2)⟩
  case declarator ihp ihe ihds =>
    simpa using ⟨ihp r ⟨h.1, by simp⟩, ihe true (expr (by simp) (by simp)),
      ihds _ ⟨by simp, h.2⟩⟩
  case declare k hk _ ih =>
    have hlead : (Piece.keyword k (mem_keywords_of_mem_declarators hk)).admits = true := by
      have : ∀ k ∈ declarators, k ∉ ["break", "continue"] := by decide
      exact Piece.admits_keyword.2 (this k hk)
    simpa using ih true ⟨hlead, by simp⟩
  case functionStmt ihps ihbody =>
    simpa using ⟨ihps true ⟨by simp [Piece.lead], by simp⟩, ihbody true trivial⟩
  case run ih => simpa using ih true (expr (by simp) (by simp))
  case ret ih => simpa using ih true (expr (by simp) (by simp))
  case ifStmt ih ihbody => simpa using ⟨ih true (expr (by simp) (by simp)), ihbody true trivial⟩
  case tryStmt ihbody ihp ihhandler =>
    simpa using ⟨ihbody true trivial, ihp true ⟨by simp, by simp⟩, ihhandler true trivial⟩
  case forOf ihp ihe ihbody =>
    simpa using ⟨ihp true ⟨by simp, by simp⟩, ihe true (expr (by simp) (by simp)),
      ihbody true trivial⟩
  case importNames ih => simpa using ih true ⟨by simp [Piece.lead], by simp⟩
  case importAll => simp
  case exportNames ih => simpa using ih true ⟨by simp [Piece.lead], by simp⟩
  case stmt ihst ihsts => simpa using ⟨ihst true trivial, ihsts true trivial⟩
  case renamed i b x y ss ih =>
    refine .comma ?_
    have hss := rest ss true rfl h.2
    cases i with
    | true => simpa using ⟨colon hss, ih true ⟨rfl, h.2⟩⟩
    | false => simpa using ⟨h.1, ih true ⟨rfl, h.2⟩⟩
  case spec i b x ss ih =>
    refine .comma ?_
    have hss := rest ss true rfl h.2
    cases i with
    | true => simpa using ⟨⟨h.1, colon hss⟩, ih true ⟨rfl, h.2⟩⟩
    | false => simpa using ⟨⟨h.1, colon hss⟩, ih true ⟨rfl, h.2⟩⟩

end MdxLint
