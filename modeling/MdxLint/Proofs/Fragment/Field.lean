import MdxLint.Proofs.Fragment.Formula
import MdxLint.Proofs.Script.Composition

/-! # Members of a class

Which words in a class with fields are taken for names of members, and what its free names are.
-/

namespace MdxLint

theorem Script.Walk.memberMarks_eq {s : Script} {i j stop : Nat}
    (h : s.Walk (fun i => s.isMemberName i = false) i j) (hj : j ≤ stop) :
    s.memberMarks stop i = s.memberMarks stop j := by
  induction h with
  | refl => rfl
  | @step i j hi h ih =>
    have := h.le
    have := s.extent_pos i
    rw [Script.memberMarks, if_pos (by omega), hi, if_neg (by simp), List.nil_append, ih hj]

namespace Formula

def silent : {c : Cat} → Formula c → Spot → Nat → List Nat
  | _, name _, s, n => if s.hides then [n] else []
  | _, member e _, s, n => e.silent s.left n
  | _, call f _, s, n => f.silent s.callee n
  | _, add a b, s, n => a.silent s.left n ++ b.silent (s.right false) (n + a.size + 1)
  | _, mul a b, s, n => a.silent s.left n ++ b.silent (s.right true) (n + a.size + 1)
  | _, _, _, _ => []

theorem silent_eq_nil {c : Cat} (t : Formula c) {s : Spot} (hs : s.bare = false) (n : Nat) :
    t.silent s n = [] := by
  induction t generalizing s n with
  | name => simp [silent, Spot.hides, hs]
  | member e x ih => exact ih (s := s.left) hs n
  | call f es ih _ => exact ih (s := s.callee) hs n
  | add a b iha ihb =>
    rw [silent, iha (s := s.left) hs, ihb (s := s.right false) hs, List.append_nil]
  | mul a b iha ihb =>
    rw [silent, iha (s := s.left) hs, ihb (s := s.right true) hs, List.append_nil]
  | number | group | noArgs | arg => rfl

theorem sound_silent {all : List Piece} {c : Cat} (t : Formula c) (s : Spot) (n : Nat)
    (hat : At all n (t.pieces s)) : ∀ i ∈ t.silent s n, ∃ x, all[i]? = some (.word x .outer) := by
  induction t generalizing s n <;> try exact List.forall_mem_nil _
  all_goals
    simp only [pieces, List.append_assoc, List.cons_append, List.nil_append, at_cons, at_append,
      length_pieces] at hat
  case name x =>
    rw [silent]
    cases hs : s.hides with
    | false => exact List.forall_mem_nil _
    | true =>
      rw [hs] at hat
      exact List.forall_mem_singleton.2 ⟨_, hat.1⟩
  case member ih => exact ih _ _ hat.1
  case call ih _ => exact ih _ _ hat.1
  case add iha ihb => exact List.forall_mem_append.2 ⟨iha _ _ hat.1, ihb _ _ hat.2.2⟩
  case mul iha ihb => exact List.forall_mem_append.2 ⟨iha _ _ hat.1, ihb _ _ hat.2.2⟩

end Formula

theorem Piece.text_ne_hash (p : Piece) : (p.kind == .punctuator && p.text == "#") = false := by
  have hsigns : ∀ x ∈ signs, x ≠ "#" := by decide
  cases p with
  | sign x hx => simpa [kind, text] using hsigns x hx
  | _ => rfl

namespace Written

variable {all : List Piece} {ts : List Token} (w : Written all ts)

include w

theorem isMemberName_eq {n : Nat} {p q : Piece} {x : Identifier} {role : Role}
    (hp : all[n]? = some p) (hx : all[n + 1]? = some (.word x role))
    (hq : all[n + 1 + 1]? = some q) :
    (Script.ofTokens ts).isMemberName (n + 1) =
      (decide (p.text ∈ memberLeads) && decide (q.text ∈ memberTrails)) := by
  have hname : (Script.ofTokens ts).isName (n + 1) = true := w.isName_eq hx
  have hbefore : (Script.ofTokens ts).textBefore (n + 1) 1 = p.text := by
    rw [Script.textBefore, if_pos (by omega)]
    exact w.text_eq hp
  have hhash : ((Script.ofTokens ts).before? (n + 1)).any (·.isPunct "#") = false := by
    have := w.isPunct_eq hp "#"
    rwa [Script.isPunct, p.text_ne_hash] at this
  rw [Script.isMemberName, hname, hbefore, hhash, w.text_eq hq, Bool.true_and, Bool.or_false]

theorem isMemberName_of_kind {n : Nat} {p : Piece} (hp : all[n]? = some p) (hk : p.kind ≠ .name) :
    (Script.ofTokens ts).isMemberName n = false := by
  rw [Script.isMemberName, w.isName_eq hp, beq_false_of_ne hk, Bool.false_and, Bool.false_and]

section Members

variable {stop : Nat}

theorem memberMarks_single {n : Nat} {p : Piece} (hp : all[n]? = some p) (hk : p.kind ≠ .name)
    (ho : p.opens = false) (hc : p.closes = false) (hn : n < stop) :
    (Script.ofTokens ts).memberMarks stop n = (Script.ofTokens ts).memberMarks stop (n + 1) :=
  (w.walk_single hp ho hc (w.isMemberName_of_kind hp hk)).memberMarks_eq hn

theorem memberMarks_parens {c : Cat} (t : Formula c) {n : Nat} (ho : all[n]? = some (.sign "("))
    (ht : At all (n + 1) (t.pieces .inner)) (hcl : all[n + 1 + t.size]? = some (.sign ")"))
    (hn : n + 1 + t.size + 1 ≤ stop) :
    (Script.ofTokens ts).memberMarks stop n =
      (Script.ofTokens ts).memberMarks stop (n + 1 + t.size + 1) := by
  have hopen : (Script.ofTokens ts).isMemberName n = false :=
    w.isMemberName_of_kind ho (by simp [Piece.kind])
  have hwalk : (Script.ofTokens ts).Walk (fun i => (Script.ofTokens ts).isMemberName i = false) n
      (n + 1 + (t.pieces .inner).length + 1) :=
    w.walk_group ho ht (by simpa using hcl) .round rfl (t.nested _) hopen
  rw [Formula.length_pieces] at hwalk
  exact hwalk.memberMarks_eq hn

theorem memberMarks_word {n : Nat} {p q : Piece} {x : Identifier} {role : Role}
    (hp : all[n]? = some p) (hx : all[n + 1]? = some (.word x role))
    (hq : all[n + 1 + 1]? = some q) (hn : n + 1 < stop) :
    (Script.ofTokens ts).memberMarks stop (n + 1) =
      (if p.text ∈ memberLeads ∧ q.text ∈ memberTrails then [.silences (n + 1)] else []) ++
        (Script.ofTokens ts).memberMarks stop (n + 1 + 1) := by
  rw [Script.memberMarks, if_pos hn, w.isMemberName_eq hp hx hq, w.extent_eq_one hx rfl rfl]
  simp only [Bool.and_eq_true, decide_eq_true_eq]

theorem memberMarks_formula {c : Cat} (t : Formula c) (hc : c = .expr) {s : Spot}
    (hs : s.bare = true) {n : Nat} {prev next : Piece} (hprev : all[n]? = some prev)
    (hat : At all (n + 1) (t.pieces s)) (hnext : all[n + 1 + t.size]? = some next)
    (hstar : prev.text ∈ memberLeads ↔ s.star = true)
    (hstop : next.text ∈ memberTrails ↔ s.stop = true) (hend : n + 1 + t.size ≤ stop) :
    (Script.ofTokens ts).memberMarks stop (n + 1) =
      (t.silent s (n + 1)).map .silences ++
        (Script.ofTokens ts).memberMarks stop (n + 1 + t.size) := by
  induction t generalizing s n prev next <;> cases hc
  all_goals
    simp only [Formula.pieces, List.append_assoc, List.cons_append, List.nil_append, at_cons,
      at_append, at_nil, and_true, Formula.length_pieces] at hat
  case name x =>
    rw [w.memberMarks_word hprev hat hnext hend, Formula.silent]
    simp only [hstar, hstop, Spot.hides, hs, Bool.true_and, Bool.and_eq_true]
    split
    · rfl
    · rfl
  case number d => exact w.memberMarks_single hat (by simp [Piece.kind]) rfl rfl hend
  case member e x ih =>
    obtain ⟨he, hdot, hx⟩ := hat
    have hsize : n + 1 + (e.member x).size = n + 1 + e.size + 1 + 1 := by
      rw [← Formula.length_pieces _ s]
      simp [Formula.pieces]
      omega
    rw [hsize] at hnext hend ⊢
    have hinner := ih rfl (s := s.left) hs hprev he hdot hstar
      (iff_of_false (by decide) Bool.false_ne_true) (by omega)
    have hlead : "." ∉ memberLeads := by decide
    rw [hinner, w.memberMarks_single hdot (by simp [Piece.kind]) rfl rfl (by omega),
      w.memberMarks_word hdot hx hnext (by omega), if_neg fun h => hlead h.1]
    rfl
  case call f es ih _ =>
    obtain ⟨hf, ho, hes, hcl⟩ := hat
    have hsize : n + 1 + (f.call es).size = n + 1 + f.size + 1 + es.size + 1 := by
      rw [← Formula.length_pieces _ s]
      simp [Formula.pieces]
      omega
    rw [hsize] at hnext hend ⊢
    have hinner := ih rfl (s := s.callee) hs hprev hf ho hstar
      (iff_of_true (by decide) rfl) (by omega)
    rw [hinner, w.memberMarks_parens es ho hes hcl hend]
    rfl
  case group e _ =>
    obtain ⟨ho, he, hcl⟩ := hat
    have hsize : n + 1 + e.group.size = n + 1 + 1 + e.size + 1 := by
      rw [← Formula.length_pieces _ s]
      simp [Formula.pieces]
      omega
    rw [hsize] at hnext hend ⊢
    exact w.memberMarks_parens e ho he hcl hend
  case add a b iha ihb =>
    obtain ⟨ha, hsign, hb⟩ := hat
    have hsize : n + 1 + (a.add b).size = n + 1 + a.size + 1 + b.size := by
      rw [← Formula.length_pieces _ s]
      simp [Formula.pieces]
      omega
    rw [hsize] at hnext hend ⊢
    have hleft := iha rfl (s := s.left) hs hprev ha hsign hstar
      (iff_of_false (by decide) Bool.false_ne_true) (by omega)
    have hright := ihb rfl (s := s.right false) hs hsign hb hnext
      (iff_of_false (by decide) Bool.false_ne_true) hstop hend
    rw [hleft, w.memberMarks_single hsign (by simp [Piece.kind]) rfl rfl (by omega), hright,
      Formula.silent, List.map_append, List.append_assoc]
  case mul a b iha ihb =>
    obtain ⟨ha, hsign, hb⟩ := hat
    have hsize : n + 1 + (a.mul b).size = n + 1 + a.size + 1 + b.size := by
      rw [← Formula.length_pieces _ s]
      simp [Formula.pieces]
      omega
    rw [hsize] at hnext hend ⊢
    have hleft := iha rfl (s := s.left) hs hprev ha hsign hstar
      (iff_of_false (by decide) Bool.false_ne_true) (by omega)
    have hright := ihb rfl (s := s.right true) hs hsign hb hnext
      (iff_of_true (by decide) rfl) hstop hend
    rw [hleft, w.memberMarks_single hsign (by simp [Piece.kind]) rfl rfl (by omega), hright,
      Formula.silent, List.map_append, List.append_assoc]

end Members

section Told

variable (hclose : ∀ i, all[i]? = some (.sign ")") → all[i + 1]? ≠ some (.sign "\x7b"))

include hclose

/-- The words of an expression that are taken for names of members need no other marks. -/
theorem told_formula {c : Cat} (t : Formula c) (s : Spot) (n : Nat) (hat : At all n (t.pieces s)) :
    Told all (Script.ofTokens ts) ((t.silent s n).map .silences) n (t.pieces s) := by
  -- a closing parenthesis
  have close {n : Nat} {own : List Mark} (h : all[n]? = some (.sign ")")) :
      Fine all (Script.ofTokens ts) own n (.sign ")") :=
    ⟨by simp [w.marksAt_close h (hclose n h)], List.forall_mem_nil _⟩
  -- a part in parentheses
  have inner {c : Cat} {t : Formula c} {n : Nat} {own : List Mark}
      (h : Told all (Script.ofTokens ts) ((t.silent .inner n).map .silences) n
        (t.pieces .inner)) : Told all (Script.ofTokens ts) own n (t.pieces .inner) := by
    rw [t.silent_eq_nil rfl] at h
    exact h.mono (List.nil_subset _)
  induction t generalizing s n <;>
    simp only [Formula.pieces, Formula.silent, List.cons_append, List.nil_append,
      List.append_assoc, List.map_append, at_cons, at_append, at_nil, told_cons, told_append,
      told_nil, and_true, Formula.length_pieces] at hat ⊢
  case name x =>
    refine w.fine_word hat ?_
    cases s.hides <;> simp [Piece.needs]
  case number => exact w.fine_mute hat rfl
  case member ih =>
    obtain ⟨he, hdot, hx⟩ := hat
    exact ⟨ih _ _ he, w.fine_mute hdot rfl, w.fine_mute hx rfl⟩
  case call ih ihes =>
    obtain ⟨hf, ho, hes, hcl⟩ := hat
    exact ⟨ih _ _ hf, w.fine_mute ho rfl, inner (ihes _ _ hes), close hcl⟩
  case group ih =>
    obtain ⟨ho, he, hcl⟩ := hat
    exact ⟨w.fine_mute ho rfl, inner (ih _ _ he), close hcl⟩
  case add iha ihb =>
    obtain ⟨ha, hsign, hb⟩ := hat
    exact ⟨(iha _ _ ha).mono (List.subset_append_left ..), w.fine_mute hsign rfl,
      (ihb _ _ hb).mono (List.subset_append_right ..)⟩
  case mul iha ihb =>
    obtain ⟨ha, hsign, hb⟩ := hat
    exact ⟨(iha _ _ ha).mono (List.subset_append_left ..), w.fine_mute hsign rfl,
      (ihb _ _ hb).mono (List.subset_append_right ..)⟩
  case arg ih ihes =>
    obtain ⟨hc, he, hes⟩ := hat
    exact ⟨w.told_comma hc, inner (ih _ _ he), inner (ihes _ _ hes)⟩

end Told

end Written

/-! ## Classes -/

/-- The indices of the names that are taken for names of members, those of the fields among them. -/
def Fields.silent : Fields → Nat → List Nat
  | [], _ => []
  | f :: fs, n => n :: (f.2.silent .initializer (n + 2) ++ Fields.silent fs (n + (f.2.size + 3)))

@[simp] theorem length_fieldPieces (f : Name × Formula .expr) :
    (fieldPieces f).length = f.2.size + 3 := by
  simp [fieldPieces]

theorem Fields.sound_silent {all : List Piece} (fs : Fields) {n : Nat}
    (hat : At all n (fs.flatMap fieldPieces)) :
    ∀ i ∈ fs.silent n, ∃ x, all[i]? = some (.word x .outer) := by
  induction fs generalizing n with
  | nil => exact List.forall_mem_nil _
  | cons f fs ih =>
    rw [List.flatMap_cons, at_append, length_fieldPieces] at hat
    obtain ⟨hf, hfs⟩ := hat
    simp only [fieldPieces, List.cons_append, List.nil_append, at_cons, at_append] at hf
    obtain ⟨hx, -, he, -⟩ := hf
    exact List.forall_mem_cons.2
      ⟨⟨_, hx⟩, List.forall_mem_append.2 ⟨f.2.sound_silent _ _ he, ih hfs⟩⟩

namespace Written

section Class

variable {all : List Piece} {ts : List Token} (w : Written all ts)

include w

theorem memberMarks_fields (fs : Fields) {n stop : Nat} {prev : Piece} (hprev : all[n]? = some prev)
    (hlead : prev.text ∈ memberLeads) (hat : At all (n + 1) (fs.flatMap fieldPieces))
    (hstop : n + 1 + (fs.flatMap fieldPieces).length = stop) :
    (Script.ofTokens ts).memberMarks stop (n + 1) = (fs.silent (n + 1)).map .silences := by
  induction fs generalizing n prev with
  | nil =>
    rw [Script.memberMarks, if_neg (by simpa using Nat.le_of_eq hstop.symm)]
    rfl
  | cons f fs ih =>
    rw [List.flatMap_cons, at_append, length_fieldPieces] at hat
    obtain ⟨hf, hfs⟩ := hat
    simp only [fieldPieces, List.cons_append, List.nil_append, at_cons, at_append, at_nil,
      and_true, Formula.length_pieces] at hf
    obtain ⟨hx, heq, he, hsemi⟩ := hf
    rw [List.flatMap_cons, List.length_append, length_fieldPieces] at hstop
    have hvalue := w.memberMarks_formula f.2 rfl (s := .initializer) rfl heq he hsemi
      (iff_of_false (by decide) Bool.false_ne_true) (iff_of_true (by decide) rfl)
      (show _ ≤ stop by omega)
    have hrest := ih hsemi (by decide) (by rwa [show n + 1 + 1 + 1 + f.2.size + 1 =
      n + 1 + (f.2.size + 3) by omega]) (by omega)
    rw [w.memberMarks_word hprev hx heq (by omega), if_pos ⟨hlead, by decide⟩,
      w.memberMarks_single heq (by simp [Piece.kind]) rfl rfl (by omega), hvalue,
      w.memberMarks_single hsemi (by simp [Piece.kind]) rfl rfl (by omega), hrest]
    simp [Fields.silent, show n + 1 + 1 + 1 + f.2.size + 1 = n + 1 + (f.2.size + 3) by omega]

section Told

variable (hclose : ∀ i, all[i]? = some (.sign ")") → all[i + 1]? ≠ some (.sign "\x7b"))

include hclose

theorem told_fields (fs : Fields) {n : Nat} (hat : At all n (fs.flatMap fieldPieces)) :
    Told all (Script.ofTokens ts) ((fs.silent n).map .silences) n (fs.flatMap fieldPieces) := by
  induction fs generalizing n with
  | nil => trivial
  | cons f fs ih =>
    rw [List.flatMap_cons, at_append, length_fieldPieces] at hat
    obtain ⟨hf, hfs⟩ := hat
    simp only [fieldPieces, List.cons_append, List.nil_append, at_cons, at_append, at_nil,
      and_true, Formula.length_pieces] at hf
    obtain ⟨hx, heq, he, hsemi⟩ := hf
    have hvalue := w.told_formula hclose f.2 .initializer _ he
    rw [List.flatMap_cons, told_append, length_fieldPieces]
    refine ⟨?_, (ih hfs).mono ?_⟩
    · simp only [fieldPieces, List.cons_append, List.nil_append, told_cons, told_append, told_nil,
        and_true, Formula.length_pieces]
      refine ⟨w.fine_word hx ?_, w.fine_mute heq rfl, hvalue.mono ?_, w.fine_mute hsemi rfl⟩
      · simp [Piece.needs, Fields.silent]
      · intro m hm
        simp only [Fields.silent, List.map_cons, List.map_append]
        exact List.mem_cons_of_mem _ (List.mem_append_left _ hm)
    · intro m hm
      simp only [Fields.silent, List.map_cons, List.map_append]
      exact List.mem_cons_of_mem _ (List.mem_append_right _ hm)

theorem told_groups (fs : Fields) {n : Nat} (hat : At all n (fs.flatMap groupPieces)) :
    Told all (Script.ofTokens ts) [] n (fs.flatMap groupPieces) := by
  induction fs generalizing n with
  | nil => trivial
  | cons f fs ih =>
    rw [List.flatMap_cons, at_append] at hat
    obtain ⟨hf, hfs⟩ := hat
    rw [List.flatMap_cons, told_append]
    refine ⟨?_, ih hfs⟩
    simp only [groupPieces, List.cons_append, List.nil_append, at_cons, at_append, at_nil,
      and_true, Formula.length_pieces] at hf
    obtain ⟨ho, he, hcl, hsemi⟩ := hf
    have hvalue := w.told_formula hclose f.2 .inner _ he
    rw [f.2.silent_eq_nil rfl] at hvalue
    simp only [groupPieces, List.cons_append, List.nil_append, told_cons, told_append, told_nil,
      and_true, Formula.length_pieces]
    exact ⟨w.fine_mute ho rfl, hvalue,
      ⟨by simp [w.marksAt_close hcl (hclose _ hcl)], List.forall_mem_nil _⟩, w.fine_mute hsemi rfl⟩

end Told

end Class

end Written

/-! ## Texts -/

section Programs

variable (x : Name) (fs : Fields)

theorem nested_fields : Nested (fs.flatMap fieldPieces) := by
  induction fs with
  | nil => exact .nil
  | cons f fs ih =>
    rw [List.flatMap_cons]
    refine Nested.append ?_ ih
    exact .cons rfl (.cons rfl ((f.2.nested .initializer).append (.cons rfl .nil)))

theorem nested_class : Nested (classPieces x fs) := by
  have hbody := Nested.wrap .curly (nested_fields fs) .nil
  exact .cons (p := .keyword "class") rfl (.cons (p := .binder true x) rfl hbody)

theorem nested_groups : Nested (fs.flatMap groupPieces) := by
  induction fs with
  | nil => exact .nil
  | cons f fs ih =>
    rw [List.flatMap_cons]
    refine Nested.append ?_ ih
    exact .wrap .round (f.2.nested .inner) (.cons rfl .nil)

theorem fit_fields {prev next : Piece} : Piece.Fit prev next (fs.flatMap fieldPieces) := by
  induction fs generalizing prev with
  | nil => trivial
  | cons f fs ih =>
    have hvalue : Piece.Fit (.sign "=") (.sign ";") (f.2.pieces .initializer) :=
      f.2.fit _ ⟨by simp, by simp, by simp⟩
    rw [List.flatMap_cons, Piece.fit_append]
    exact ⟨by simpa [fieldPieces] using hvalue, ih⟩

theorem fit_class {prev next : Piece} : Piece.Fit prev next (classPieces x fs) := by
  have hfields : Piece.Fit (.sign "\x7b") (.sign "\x7d") (fs.flatMap fieldPieces) := fit_fields fs
  simpa [classPieces] using hfields

theorem fit_groups {prev next : Piece} : Piece.Fit prev next (fs.flatMap groupPieces) := by
  induction fs generalizing prev with
  | nil => trivial
  | cons f fs ih =>
    have hvalue : Piece.Fit (.sign "(") (.sign ")") (f.2.pieces .inner) :=
      f.2.fit _ ⟨by simp, by simp, by simp⟩
    rw [List.flatMap_cons, Piece.fit_append]
    exact ⟨by simpa [groupPieces] using hvalue, ih⟩

theorem Written.marksAt_class {all : List Piece} {ts : List Token} (w : Written all ts) {n : Nat}
    (hclass : all[n]? = some (.keyword "class")) (hx : all[n + 1]? = some (.binder true x))
    (ho : all[n + 1 + 1]? = some (.sign "\x7b"))
    (hfs : At all (n + 1 + 1 + 1) (fs.flatMap fieldPieces))
    (hcl : all[n + 1 + 1 + 1 + (fs.flatMap fieldPieces).length]? = some (.sign "\x7d")) :
    (Script.ofTokens ts).marksAt n =
      .declares (n + 1) :: (fs.silent (n + 1 + 1 + 1)).map .silences := by
  have hname : (Script.ofTokens ts).isName (n + 1) = true := w.isName_eq hx
  have hword : (Script.ofTokens ts).isPunct (n + 1) "\x7b" = false := w.isPunct_eq hx "\x7b"
  have hbrace : (Script.ofTokens ts).isPunct (n + 1 + 1) "\x7b" = true := by
    rw [w.isPunct_eq ho]
    simp [Piece.kind, Piece.text]
  have hbody : (Script.ofTokens ts).bodyStart (n + 1) = n + 1 + 1 := by
    rw [Script.bodyStart, if_pos (w.lt_size hx), hword, if_neg Bool.false_ne_true,
      w.extent_eq_one hx rfl rfl, Script.bodyStart, if_pos (w.lt_size ho), hbrace, if_pos rfl]
  have hpaired := w.paired_opening ho hfs hcl .curly rfl (nested_fields fs)
  have hlast := w.lastOf_opening ho hfs hcl .curly rfl (nested_fields fs)
  have hmembers := w.memberMarks_fields fs ho (by decide) hfs rfl
  rw [w.marksAt_eq hclass]
  simp [Piece.kind, Piece.text, Script.classMarks, hname, hbody, hpaired, hlast, hmembers,
    -List.length_flatMap]

/-- The names of the fields are silent in a class, and with them whatever is taken for one. -/
theorem Written.faithful_class {ts : List Token} (w : Written (classPieces x fs) ts) :
    Faithful (classPieces x fs) (Script.ofTokens ts) := by
  have hfit : Piece.Fit (.sign ";") (.sign ";") (classPieces x fs) := fit_class x fs
  have hat : At (classPieces x fs) 0 (classPieces x fs) := at_self
  nth_rewrite 2 [classPieces] at hat
  simp only [List.cons_append, List.nil_append, at_cons, at_append, at_nil, and_true] at hat
  obtain ⟨hclass, hx, ho, hfs, hcl⟩ := hat
  have hmarks := w.marksAt_class x fs hclass hx ho hfs hcl
  have hsound : ∀ m ∈ (fs.silent 3).map Mark.silences, Sound (classPieces x fs) m := by
    refine List.forall_mem_map.2 fun i hi => ?_
    obtain ⟨y, hy⟩ := fs.sound_silent hfs i hi
    exact ⟨y, .inl hy⟩
  obtain ⟨hfine, hname, htold⟩ := w.fine_naming hclass hx hmarks hsound
  refine .of_told ?_ hfit
  nth_rewrite 2 [classPieces]
  simp only [List.cons_append, List.nil_append, told_cons, told_append, told_nil, and_true]
  exact ⟨hfine, hname, w.fine_mute ho rfl, htold (w.told_fields hfit.not_block fs hfs),
    w.fine_mute hcl rfl⟩

theorem Written.faithful_groups {ts : List Token} (w : Written (fs.flatMap groupPieces) ts) :
    Faithful (fs.flatMap groupPieces) (Script.ofTokens ts) :=
  have hfit : Piece.Fit (.sign ";") (.sign ";") (fs.flatMap groupPieces) := fit_groups fs
  .of_told (w.told_groups hfit.not_block fs at_self) hfit

theorem namesOf_class : namesOf [.uses, .lost] (classPieces x fs) =
    (fs.words.filter (!·.2)).map Prod.fst ∧ namesOf [.binds] (classPieces x fs) = [x.text] := by
  have huses : namesOf [.uses, .lost] (fs.flatMap fieldPieces) =
      (fs.words.filter (!·.2)).map Prod.fst := by
    induction fs with
    | nil => rfl
    | cons f fs ih =>
      rw [List.flatMap_cons, namesOf_append, ih, Fields.words, Fields.words, List.flatMap_cons,
        List.filter_append, List.map_append]
      simp [fieldPieces, f.2.namesOf_uses]
  have hbinds : namesOf [.binds] (fs.flatMap fieldPieces) = [] := by
    clear huses
    induction fs with
    | nil => rfl
    | cons f fs ih =>
      rw [List.flatMap_cons, namesOf_append, ih]
      simp [fieldPieces, f.2.namesOf_binds]
  constructor
  · simp [classPieces, huses]
  · simp [classPieces, hbinds]

theorem namesOf_groups : namesOf [.uses, .lost] (fs.flatMap groupPieces) = fs.words.map Prod.fst ∧
    namesOf [.binds] (fs.flatMap groupPieces) = [] := by
  induction fs with
  | nil => exact ⟨rfl, rfl⟩
  | cons f fs ih =>
    have hseen : (f.2.words .inner).filter (!·.2) = f.2.words .inner :=
      List.filter_eq_self.2 fun w hw => by rw [f.2.words_seen rfl w hw]; rfl
    constructor
    · rw [List.flatMap_cons, namesOf_append, ih.1, Fields.words, Fields.words, List.flatMap_cons,
        List.map_append, f.2.map_words .initializer .inner]
      simp [groupPieces, f.2.namesOf_uses, hseen]
    · rw [List.flatMap_cons, namesOf_append, ih.2]
      simp [groupPieces, f.2.namesOf_binds]

omit x fs in
/-- A name is seen among words exactly if it is used, iff each name that is overlooked somewhere is
seen elsewhere or set apart. -/
theorem shown_iff {ws : List (String × Bool)} {x : String} :
    (∀ y, y ∈ (((ws.filter (!·.2)).map Prod.fst).filter (· ≠ x)).eraseDups ↔
        y ∈ (ws.map Prod.fst).eraseDups ∧ y ≠ x) ↔
      ∀ y, (y, true) ∈ ws → y = x ∨ (y, false) ∈ ws := by
  have hseen (y : String) : y ∈ (((ws.filter (!·.2)).map Prod.fst).filter (· ≠ x)).eraseDups ↔
      (y, false) ∈ ws ∧ y ≠ x := by
    simp [List.mem_eraseDups]
  have hused (y : String) : y ∈ (ws.map Prod.fst).eraseDups ↔
      (y, false) ∈ ws ∨ (y, true) ∈ ws := by
    simp [List.mem_eraseDups]
  simp only [hseen, hused]
  refine forall_congr' fun y => ?_
  tauto

/-- The free names of a class are those of its initializers, without its own name, and without the
names that are only used where they are taken for names of members: to the right of a star, in front
of a semicolon or an argument list, and outside of all parentheses. -/
theorem freeNamesOf_fields (l : Layout (classPieces x fs))
    (l' : Layout (fs.flatMap groupPieces)) :
    freeNamesOf l'.text = .ok (fs.words.map Prod.fst).eraseDups ∧
    freeNamesOf l.text =
      .ok (((fs.words.filter (!·.2)).map Prod.fst).filter (· ≠ x.text)).eraseDups ∧
    ((∃ ys zs, freeNamesOf l'.text = .ok ys ∧ freeNamesOf l.text = .ok zs ∧
        ∀ y, y ∈ zs ↔ y ∈ ys ∧ y ≠ x.text) ↔
      ∀ y, (y, true) ∈ fs.words → y = x.text ∨ (y, false) ∈ fs.words) ∧
    ((∀ w ∈ fs.words, w.2 = false) →
      freeNamesOf l.text = (freeNamesOf l'.text).map (·.filter (· ≠ x.text))) := by
  have hgroups : freeNamesOf l'.text = .ok (fs.words.map Prod.fst).eraseDups := by
    rw [l'.freeNamesOf_text (nested_groups fs) (l'.written.faithful_groups fs),
      (namesOf_groups fs).1, (namesOf_groups fs).2]
    simp
  have hclass : freeNamesOf l.text =
      .ok (((fs.words.filter (!·.2)).map Prod.fst).filter (· ≠ x.text)).eraseDups := by
    rw [l.freeNamesOf_text (nested_class x fs) (l.written.faithful_class x fs),
      (namesOf_class x fs).1, (namesOf_class x fs).2]
    simp
  refine ⟨hgroups, hclass, ?_, fun hseen => ?_⟩
  · constructor
    · rintro ⟨ys, zs, hys, hzs, hsame⟩
      obtain rfl := Except.ok.inj (hys.symm.trans hgroups)
      obtain rfl := Except.ok.inj (hzs.symm.trans hclass)
      exact shown_iff.1 hsame
    · exact fun hshown => ⟨_, _, hgroups, hclass, shown_iff.2 hshown⟩
  · have hall : fs.words.filter (!·.2) = fs.words :=
      List.filter_eq_self.2 fun w hw => by rw [hseen w hw]; rfl
    rw [hclass, hgroups, hall, eraseDups_filter]
    rfl

end Programs

def productClass : Name := ⟨⟨"C", by decide, by decide⟩, by decide⟩

def productField : Fields :=
  let n : Name := ⟨⟨"n", by decide, by decide⟩, by decide⟩
  let u : Name := ⟨⟨"u", by decide, by decide⟩, by decide⟩
  let v : Name := ⟨⟨"v", by decide, by decide⟩, by decide⟩
  [(n, .mul (.name u) (.name v))]

/-- The second factor is overlooked, however the class is laid out. -/
theorem freeNamesOf_fields_product :
    (∃ l : Layout (classPieces productClass productField), freeNamesOf l.text = .ok ["u"]) ∧
      ∃ l : Layout (productField.flatMap groupPieces), freeNamesOf l.text = .ok ["u", "v"] := by
  obtain ⟨l⟩ := nonempty_layout (classPieces productClass productField)
  obtain ⟨l'⟩ := nonempty_layout (productField.flatMap groupPieces)
  obtain ⟨hgroups, hclass, -, -⟩ := freeNamesOf_fields productClass productField l l'
  refine ⟨⟨l, hclass.trans ?_⟩, l', hgroups.trans ?_⟩
  · decide +kernel
  · decide +kernel

end MdxLint
