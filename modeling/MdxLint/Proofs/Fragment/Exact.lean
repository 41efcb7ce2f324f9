import MdxLint.Proofs.Fragment.Free
import MdxLint.Proofs.Fragment.Layout

/-! # The analysis of free names is exact

The names that a program uses and declares are read off its tree. However the program is laid out,
the analysis answers the used names that are not declared, but for one case: a declarator behind a
template that breaks off is not seen, and its names are then answered as free unless they are
declared elsewhere too.
-/

namespace MdxLint

namespace Phrase

def uses : {c : Cat} → Phrase c → List String
  | _, name x => [x.text]
  | _, number _ => []
  | _, string _ => []
  | _, member e _ => e.uses
  | _, callName f es => f.text :: es.uses
  | _, callMember e _ es => e.uses ++ es.uses
  | _, callGroup e es => e.uses ++ es.uses
  | _, group e => e.uses
  | _, array es => es.uses
  | _, object es => es.uses
  | _, add a b => a.uses ++ b.uses
  | _, cond a b c => a.uses ++ b.uses ++ c.uses
  | _, function _ ps body => ps.uses ++ body.uses
  | _, arrow ps e => ps.uses ++ e.uses
  | _, template _ e => e.uses
  | _, noArgs => []
  | _, arg e es => e.uses ++ es.uses
  | _, noEntries => []
  | _, pair _ e es => e.uses ++ es.uses
  | _, short x es => x.text :: es.uses
  | _, spread e es => e.uses ++ es.uses
  | _, bind _ => []
  | _, objectPattern fs => fs.uses
  | _, arrayPattern ps => ps.uses
  | _, noFields => []
  | _, restField _ => []
  | _, field _ d fs => d.uses ++ fs.uses
  | _, keyed _ p d fs => p.uses ++ d.uses ++ fs.uses
  | _, noParams => []
  | _, restParam _ => []
  | _, param p d ps => p.uses ++ d.uses ++ ps.uses
  | _, noDefault => []
  | _, value e => e.uses
  | _, lastDeclarator p e => p.uses ++ e.uses
  | _, declarator p e ds => p.uses ++ e.uses ++ ds.uses
  | _, declare _ _ ds => ds.uses
  | _, functionStmt _ ps body => ps.uses ++ body.uses
  | _, run e => e.uses
  | _, ret e => e.uses
  | _, ifStmt e body => e.uses ++ body.uses
  | _, tryStmt body p handler => body.uses ++ p.uses ++ handler.uses
  | _, forOf p e body => p.uses ++ e.uses ++ body.uses
  | _, importNames _ ss _ => ss.uses
  | _, importAll _ _ => []
  | _, exportNames ss => ss.uses
  | _, noStmts => []
  | _, stmt st sts => st.uses ++ sts.uses
  | _, noSpecs => []
  | .specs imported _, renamed x _ ss => (if imported then [] else [x.text]) ++ ss.uses
  | .specs imported _, spec x ss => (if imported then [] else [x.text]) ++ ss.uses

def declares : {c : Cat} → Phrase c → List String
  | _, name _ => []
  | _, number _ => []
  | _, string _ => []
  | _, member e _ => e.declares
  | _, callName _ es => es.declares
  | _, callMember e _ es => e.declares ++ es.declares
  | _, callGroup e es => e.declares ++ es.declares
  | _, group e => e.declares
  | _, array es => es.declares
  | _, object es => es.declares
  | _, add a b => a.declares ++ b.declares
  | _, cond a b c => a.declares ++ b.declares ++ c.declares
  | _, function f ps body =>
    (f.map fun x => x.text).toList ++ ps.declares ++ body.declares
  | _, arrow ps e => ps.declares ++ e.declares
  | _, template _ e => e.declares
  | _, noArgs => []
  | _, arg e es => e.declares ++ es.declares
  | _, noEntries => []
  | _, pair _ e es => e.declares ++ es.declares
  | _, short _ es => es.declares
  | _, spread e es => e.declares ++ es.declares
  | _, bind x => [x.text]
  | _, objectPattern fs => fs.declares
  | _, arrayPattern ps => ps.declares
  | _, noFields => []
  | _, restField x => [x.text]
  | _, field x d fs => x.text :: (d.declares ++ fs.declares)
  | _, keyed _ p d fs => p.declares ++ d.declares ++ fs.declares
  | _, noParams => []
  | _, restParam x => [x.text]
  | _, param p d ps => p.declares ++ d.declares ++ ps.declares
  | _, noDefault => []
  | _, value e => e.declares
  | _, lastDeclarator p e => p.declares ++ e.declares
  | _, declarator p e ds => p.declares ++ e.declares ++ ds.declares
  | _, declare _ _ ds => ds.declares
  | _, functionStmt f ps body => f.text :: (ps.declares ++ body.declares)
  | _, run e => e.declares
  | _, ret e => e.declares
  | _, ifStmt e body => e.declares ++ body.declares
  | _, tryStmt body p handler => body.declares ++ p.declares ++ handler.declares
  | _, forOf p e body => p.declares ++ e.declares ++ body.declares
  | _, importNames x ss _ => x.text :: ss.declares
  | _, importAll x _ => [x.text]
  | _, exportNames ss => ss.declares
  | _, noStmts => []
  | _, stmt st sts => st.declares ++ sts.declares
  | _, noSpecs => []
  | .specs imported _, renamed _ y ss => (if imported then [y.text] else []) ++ ss.declares
  | .specs imported _, spec x ss => (if imported then [x.text] else []) ++ ss.declares

/-- The free names of a program: those it uses and declares nowhere. -/
def free (p : Phrase .stmts) : List String := (p.uses.filter (· ∉ p.declares)).eraseDups

/-- The names that a program declares where the analysis looks for declarations. -/
def found (p : Phrase .stmts) : List String := namesOf [.binds] (p.pieces true)

/-- The names that a program declares behind a template that breaks off. -/
def missed (p : Phrase .stmts) : List String := namesOf [.lost] (p.pieces true)

end Phrase

section Names

variable {roles : List Role} {ps qs : List Piece}

@[simp] theorem namesOf_nil : namesOf roles [] = [] := rfl

@[simp] theorem namesOf_append : namesOf roles (ps ++ qs) = namesOf roles ps ++ namesOf roles qs :=
  List.filterMap_append

@[simp] theorem namesOf_word {w : Identifier} {role : Role} :
    namesOf roles (.word w role :: ps) =
      (if role ∈ roles then [w.text] else []) ++ namesOf roles ps := by
  by_cases h : role ∈ roles <;> simp [namesOf, Piece.nameAs?, h]

@[simp] theorem namesOf_use {x : Name} :
    namesOf roles (.use x :: ps) =
      (if .uses ∈ roles then [x.text] else []) ++ namesOf roles ps := namesOf_word

@[simp] theorem namesOf_plain {x : Name} :
    namesOf roles (.plain x :: ps) =
      (if .plain ∈ roles then [x.text] else []) ++ namesOf roles ps := namesOf_word

@[simp] theorem namesOf_binder {x : Name} {r : Bool} :
    namesOf roles (.binder r x :: ps) =
      (if (if r then .binds else .lost) ∈ roles then [x.text] else []) ++ namesOf roles ps :=
  namesOf_word

@[simp] theorem namesOf_as : namesOf roles (.as :: ps) =
    (if .plain ∈ roles then ["as"] else []) ++ namesOf roles ps := namesOf_word

@[simp] theorem namesOf_fromWord : namesOf roles (.fromWord :: ps) =
    (if .plain ∈ roles then ["from"] else []) ++ namesOf roles ps := namesOf_word

@[simp] theorem namesOf_ofWord : namesOf roles (.ofWord :: ps) =
    (if .plain ∈ roles then ["of"] else []) ++ namesOf roles ps := namesOf_word

@[simp] theorem namesOf_sign {x : String} {h : x ∈ signs} :
    namesOf roles (.sign x h :: ps) = namesOf roles ps := rfl

@[simp] theorem namesOf_keyword {k : String} {h : k ∈ keywords} :
    namesOf roles (.keyword k h :: ps) = namesOf roles ps := rfl

@[simp] theorem namesOf_headEnd : namesOf roles (.headEnd :: ps) = namesOf roles ps := rfl

@[simp] theorem namesOf_number {d : Digits} :
    namesOf roles (.number d :: ps) = namesOf roles ps := rfl

@[simp] theorem namesOf_string {q : Quote} :
    namesOf roles (.string q :: ps) = namesOf roles ps := rfl

@[simp] theorem namesOf_opening {turn : Bool} :
    namesOf roles (.opening turn :: ps) = namesOf roles ps := rfl

@[simp] theorem namesOf_ending : namesOf roles (.ending :: ps) = namesOf roles ps := rfl

@[simp] theorem namesOf_comma {first : Bool} : namesOf roles (comma first) = [] := by
  cases first <;> rfl

end Names

namespace Phrase

theorem namesOf_uses {c : Cat} (t : Phrase c) (r : Bool) :
    namesOf [.uses] (t.pieces r) = t.uses := by
  induction t generalizing r <;>
    simp only [pieces, uses, namesOf_nil, namesOf_append, namesOf_word, namesOf_use,
      namesOf_plain, namesOf_binder, namesOf_as, namesOf_fromWord, namesOf_ofWord, namesOf_sign,
      namesOf_keyword, namesOf_headEnd, namesOf_number, namesOf_string, namesOf_opening,
      namesOf_ending, namesOf_comma, List.mem_singleton, reduceCtorEq, if_false, if_true,
      List.append_nil, List.nil_append, List.cons_append, *]
  case function f _ _ _ _ => cases f <;> simp
  case bind | restField | field | restParam => cases r <;> simp
  case renamed i _ _ _ _ _ => cases i <;> simp
  case spec i _ _ _ _ => cases i <;> simp

theorem namesOf_declares {c : Cat} (t : Phrase c) (r : Bool) :
    namesOf [.binds, .lost] (t.pieces r) = t.declares := by
  induction t generalizing r <;>
    simp only [pieces, declares, namesOf_nil, namesOf_append, namesOf_word, namesOf_use,
      namesOf_plain, namesOf_binder, namesOf_as, namesOf_fromWord, namesOf_ofWord, namesOf_sign,
      namesOf_keyword, namesOf_headEnd, namesOf_number, namesOf_string, namesOf_opening,
      namesOf_ending, namesOf_comma, List.mem_cons, List.not_mem_nil, reduceCtorEq, or_false,
      or_self, if_false, if_true, List.append_nil, List.nil_append, List.cons_append, *]
  case function f _ _ _ _ => cases f <;> simp
  case bind | restField | field | restParam => cases r <;> simp
  case renamed i _ _ _ _ _ => cases i <;> simp
  case spec i _ _ _ _ => cases i <;> simp

theorem opening_mem_of_breaks {c : Cat} (t : Phrase c) (r : Bool) (h : t.breaks = true) :
    .opening true ∈ t.pieces r := by
  induction t generalizing r <;> simp only [breaks, Bool.false_eq_true] at h
  case member ih => simp [pieces, ih true h]
  case callMember ih _ => simp [pieces, ih true h]
  case add iha ihb =>
    rcases Bool.or_eq_true_iff.1 h with h | h
    · simp [pieces, iha true h]
    · simp [pieces, ihb true h]
  case cond iha ihb ihc =>
    rcases Bool.or_eq_true_iff.1 h with h | h
    · rcases Bool.or_eq_true_iff.1 h with h | h
      · simp [pieces, iha true h]
      · simp [pieces, ihb true h]
    · simp [pieces, ihc true h]
  case template turn e ih =>
    rcases Bool.or_eq_true_iff.1 h with h | h
    · rw [Bool.and_eq_true] at h
      simp [pieces, h.1]
    · simp [pieces, ih true h]

theorem namesOf_lost {c : Cat} (t : Phrase c) (h : .opening true ∉ t.pieces true) :
    namesOf [.lost] (t.pieces true) = [] := by
  induction t <;>
    simp only [pieces, List.mem_append, List.mem_cons, List.not_mem_nil, reduceCtorEq,
      not_or, or_false, false_or] at h <;>
    simp only [pieces, namesOf_nil, namesOf_append, namesOf_word, namesOf_use,
      namesOf_plain, namesOf_binder, namesOf_as, namesOf_fromWord, namesOf_ofWord, namesOf_sign,
      namesOf_keyword, namesOf_headEnd, namesOf_number, namesOf_string, namesOf_opening,
      namesOf_ending, namesOf_comma, List.mem_singleton, reduceCtorEq, if_false, if_true,
      List.append_nil, List.nil_append, List.cons_append]
  case function f _ _ _ _ => cases f <;> simp_all
  case renamed i _ _ _ _ _ => cases i <;> simp_all
  case spec i _ _ _ _ => cases i <;> simp_all
  case declarator p e ds ihp ihe ihds =>
    obtain ⟨⟨hp, he⟩, hds⟩ := h
    have hb : e.breaks = false := by
      rw [← Bool.not_eq_true]
      exact fun hb => he (e.opening_mem_of_breaks true hb)
    rw [hb] at hds ⊢
    rw [ihp hp, ihe he]
    exact ihds hds
  all_goals simp [*]

end Phrase

section Exact

variable (p : Phrase .stmts) (l : Layout (p.pieces true))

theorem mem_namesOf_append_roles (roles roles' : List Role) {ps : List Piece} {x : String} :
    x ∈ namesOf (roles ++ roles') ps ↔ x ∈ namesOf roles ps ∨ x ∈ namesOf roles' ps := by
  simp only [mem_namesOf, List.mem_append]
  constructor
  · rintro ⟨i, w, role, hi, hr | hr, hx⟩
    · exact .inl ⟨i, w, role, hi, hr, hx⟩
    · exact .inr ⟨i, w, role, hi, hr, hx⟩
  · rintro (⟨i, w, role, hi, hr, hx⟩ | ⟨i, w, role, hi, hr, hx⟩)
    · exact ⟨i, w, role, hi, .inl hr, hx⟩
    · exact ⟨i, w, role, hi, .inr hr, hx⟩

theorem Phrase.mem_declares {x : String} : x ∈ p.declares ↔ x ∈ p.found ∨ x ∈ p.missed := by
  rw [← p.namesOf_declares true]
  exact mem_namesOf_append_roles [.binds] [.lost]

theorem filter_namesOf {q : String → Bool} {ps : List Piece}
    (h : ∀ x ∈ namesOf [.lost] ps, q x = false) :
    (namesOf [.uses, .lost] ps).filter q = (namesOf [.uses] ps).filter q := by
  induction ps with
  | nil => rfl
  | cons p ps ih =>
    cases p with
    | word w role =>
      rw [namesOf_word, List.forall_mem_append] at h
      rw [namesOf_word, namesOf_word, List.filter_append, List.filter_append, ih h.2]
      cases role with
      | lost =>
        have hw : q w.text = false := h.1 w.text (by simp)
        simp [hw]
      | _ => rfl
    | _ => exact ih h

/-- What the analysis of the free names answers for a layout of nested pieces. -/
theorem Layout.freeNamesOf_text {all : List Piece} (l : Layout all) (hnest : Nested all)
    (h : Faithful all (Script.ofTokens l.tokens)) :
    freeNamesOf l.text =
      .ok ((namesOf [.uses, .lost] all).filter (· ∉ namesOf [.binds] all)).eraseDups := by
  rw [freeNamesOf, l.scan_text hnest]
  exact congrArg Except.ok (l.written.freeNames_eq h)

/-- What the analysis of the free names answers, for every program and every layout. -/
theorem freeNamesOf_layout :
    freeNamesOf l.text =
      .ok ((namesOf [.uses, .lost] (p.pieces true)).filter (· ∉ p.found)).eraseDups :=
  l.freeNamesOf_text (p.nested true) (l.written.faithful p)

/-- The analysis of the free names is exact for every program, however it is laid out, if and only
if all names that are declared behind a template that breaks off are declared elsewhere too. That
holds wherever no template opens with a line feed. -/
theorem freeNamesOf_exact :
    (∃ xs, freeNamesOf l.text = .ok xs) ∧
      (freeNamesOf l.text = .ok p.free ↔ ∀ x ∈ p.missed, x ∈ p.found) ∧
      (.opening true ∉ p.pieces true → freeNamesOf l.text = .ok p.free) := by
  have exact_iff : freeNamesOf l.text = .ok p.free ↔ ∀ x ∈ p.missed, x ∈ p.found := by
    rw [freeNamesOf_layout, Except.ok.injEq]
    constructor
    · intro h x hx
      by_contra hfound
      have hfree : x ∈ p.free := by
        rw [← h, List.mem_eraseDups, List.mem_filter, decide_eq_true_iff]
        exact ⟨(mem_namesOf_append_roles [.uses] [.lost]).2 (.inr hx), hfound⟩
      rw [Phrase.free, List.mem_eraseDups, List.mem_filter, decide_eq_true_iff] at hfree
      exact hfree.2 ((p.mem_declares).2 (.inr hx))
    · intro h
      have hlost : ∀ x ∈ namesOf [.lost] (p.pieces true), decide (x ∉ p.found) = false :=
        fun x hx => decide_eq_false (not_not_intro (h x hx))
      rw [filter_namesOf hlost, p.namesOf_uses true, Phrase.free]
      congr 1
      refine List.filter_congr fun x _ => ?_
      rw [decide_eq_decide, p.mem_declares]
      exact not_congr ⟨.inl, fun hx => hx.elim id (h x)⟩
  refine ⟨⟨_, freeNamesOf_layout p l⟩, exact_iff, fun h => exact_iff.2 ?_⟩
  rw [Phrase.missed, p.namesOf_lost h]
  exact List.forall_mem_nil _

/-- Two declarators, of which the second stands behind a template that breaks off. -/
def brokenDeclarators : Phrase .stmts :=
  let a : Name := ⟨⟨"a", by decide, by decide⟩, by decide⟩
  let b : Name := ⟨⟨"b", by decide, by decide⟩, by decide⟩
  let one : Digits := ⟨['1'], by decide, List.forall_mem_singleton.2 (by decide)⟩
  let body : Phrase .expr := .template true (.function none .noParams .noStmts)
  .stmt (.declare "const" (by decide) (.declarator (.bind a) body (.lastDeclarator (.bind b)
    (.number one)))) (.stmt (.run (.name b)) .noStmts)

/-- The law fails for that program, however it is laid out. -/
theorem freeNamesOf_brokenDeclarators :
    (∃ l : Layout (brokenDeclarators.pieces true),
      freeNamesOf l.text ≠ .ok brokenDeclarators.free) ∧
      brokenDeclarators.free = [] := by
  refine ⟨?_, by decide +kernel⟩
  obtain ⟨l⟩ := nonempty_layout (brokenDeclarators.pieces true)
  refine ⟨l, ?_⟩
  rw [Ne, (freeNamesOf_exact brokenDeclarators l).2.1]
  decide +kernel

end Exact

end MdxLint
