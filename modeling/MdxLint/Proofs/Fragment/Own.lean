import MdxLint.Proofs.Fragment.Value

/-! # What patterns and lists of names say

`Phrase.own` lists the marks of a pattern, of parameters, of declarators and of the names of
an import or an export, by recursion on the tree. The functions on scripts find the same marks.
-/

namespace MdxLint

namespace Phrase

def own : {c : Cat} → Phrase c → Nat → List Mark
  | _, bind _, n => [.declares n]
  | _, objectPattern fs, n => fs.own (n + 1)
  | _, arrayPattern ps, n => ps.own (n + 1)
  | .fields b, restField _, n => [.declares (n + (comma b).length + 1)]
  | .fields b, field _ d fs, n =>
    let m := n + (comma b).length
    .declares m :: fs.own (m + 1 + d.size)
  | .fields b, keyed _ p d fs, n =>
    let m := n + (comma b).length
    .silences m :: (p.own (m + 2) ++ fs.own (m + 2 + p.size + d.size))
  | .params b, restParam _, n => [.declares (n + (comma b).length + 1)]
  | .params b, param p d ps, n =>
    let m := n + (comma b).length
    p.own m ++ ps.own (m + p.size + d.size)
  | _, lastDeclarator p _, n => p.own n
  | _, declarator p e ds, n =>
    p.own n ++ if e.breaks then [] else ds.own (n + p.size + 1 + e.size + 1)
  | .specs imported b, renamed _ _ ss, n =>
    let m := n + (comma b).length
    (if imported then [.silences m, .declares (m + 2)] else [.silences (m + 2)]) ++ ss.own (m + 3)
  | .specs imported b, spec _ ss, n =>
    let m := n + (comma b).length
    (if imported then [.declares m] else []) ++ ss.own (m + 1)
  | _, _, _ => []

end Phrase

namespace Written

variable {all : List Piece} {ts : List Token} (w : Written all ts)

/-- What `f` says of the entries of a list that are met from `i` on, the first one from `start`
on. -/
def entryMarks (s : Script) (f : Span → List Mark) (stop start i : Nat) : List Mark :=
  ((s.spansFrom stop start i).filter fun e => e.start < e.stop).flatMap f

/-- The marks of the entries of a list from `n` up to `stop`. Behind the first entry, the one that
ends at `n` comes first. -/
def EntriesSay (s : Script) (f : Span → List Mark) (first : Bool) (n stop : Nat)
    (ms : List Mark) : Prop :=
  if first then entryMarks s f stop n n = ms
  else ∀ start, start < n → entryMarks s f stop start n = f ⟨start, n⟩ ++ ms

variable {s : Script} {f : Span → List Mark} {n stop : Nat} {ms : List Mark}

theorem EntriesSay.nil (first : Bool) : EntriesSay s f first n n [] := by
  cases first with
  | true => simp [EntriesSay, entryMarks, Script.spansFrom]
  | false =>
    intro start hstart
    simp [entryMarks, Script.spansFrom, hstart]

theorem EntriesSay.cons {all : List Piece} {ts : List Token} (w : Written all ts) {m : Nat}
    (first : Bool) (hc : At all n (comma first))
    (hw : (Script.ofTokens ts).Walk (fun i => (Script.ofTokens ts).isPunct i "," = false)
      (n + (comma first).length) m)
    (hlt : n + (comma first).length < m) (hm : m ≤ stop)
    (h : EntriesSay (Script.ofTokens ts) f false m stop ms) :
    EntriesSay (Script.ofTokens ts) f first n stop
      (f ⟨n + (comma first).length, m⟩ ++ ms) := by
  have item : entryMarks (Script.ofTokens ts) f stop (n + (comma first).length)
      (n + (comma first).length) = f ⟨n + (comma first).length, m⟩ ++ ms := by
    rw [entryMarks, hw.spansFrom_eq hm]
    exact h _ hlt
  cases first with
  | true => exact item
  | false =>
    intro start hstart
    have hn : (Script.ofTokens ts).isPunct n "," = true := by
      simp only [comma, Bool.false_eq_true, if_false, at_cons] at hc
      rw [w.isPunct_eq hc.1]
      rfl
    simp only [comma, Bool.false_eq_true, if_false, List.length_cons, List.length_nil] at item hlt ⊢
    rw [← item, entryMarks, Script.spansFrom, if_pos (by omega), hn, if_pos rfl,
      List.filter_cons_of_pos (by simpa using hstart), List.flatMap_cons]
    rfl

theorem EntriesSay.flatMap_entriesOf {i : Nat} (h : EntriesSay s f true (i + 1) (s.lastOf i) ms) :
    (s.entriesOf i).flatMap f = ms := h

section Own

include w

theorem walk_pattern (p : Phrase .pattern) {r : Bool} {n : Nat} (hat : At all n (p.pieces r)) :
    (Script.ofTokens ts).Walk (fun i => (Script.ofTokens ts).isPunct i "," = false) n
      (n + p.size) := by
  rw [← p.length_pieces r]
  cases p <;>
    simp only [Phrase.pieces, List.cons_append, List.nil_append, at_cons, at_append, at_nil,
      and_true] at hat
  case bind => exact w.walk_inner w.walkable_entry hat rfl rfl rfl
  case objectPattern fs =>
    obtain ⟨ho, hfs, hcl⟩ := hat
    refine (w.walk_block w.walkable_entry ho hfs hcl (fs.nested r)).upTo ?_
    simp [Phrase.pieces]
    omega
  case arrayPattern ps =>
    obtain ⟨ho, hps, hcl⟩ := hat
    refine (w.walk_group ho hps hcl .square rfl (ps.nested r)
      (w.walkable_entry.inner _ _ ho rfl)).upTo ?_
    simp [Phrase.pieces]
    omega

theorem patternEnd_pattern (p : Phrase .pattern) {r : Bool} {n : Nat}
    (hat : At all n (p.pieces r)) :
    (Script.ofTokens ts).patternEnd n = n + p.size := by
  rw [← p.length_pieces r]
  unfold Script.patternEnd
  cases p <;>
    simp only [Phrase.pieces, List.cons_append, List.nil_append, at_cons, at_append, at_nil,
      and_true] at hat
  case bind =>
    rw [w.isPunct_eq hat, w.isPunct_eq hat, if_neg (by simp [Piece.kind, Piece.binder]),
      if_pos (w.lt_size hat)]
    rfl
  case objectPattern fs =>
    obtain ⟨ho, hfs, hcl⟩ := hat
    rw [w.isPunct_eq ho, if_pos (by simp [Piece.kind, Piece.text]),
      w.extent_opening ho hfs hcl .curly rfl (fs.nested r)]
    simp [Phrase.pieces]
  case arrayPattern ps =>
    obtain ⟨ho, hps, hcl⟩ := hat
    rw [w.isPunct_eq ho, w.isPunct_eq ho, if_pos (by simp [Piece.kind, Piece.text]),
      w.extent_opening ho hps hcl .square rfl (ps.nested r)]
    simp [Phrase.pieces]

theorem walk_default (d : Phrase .default) {n : Nat} (hat : At all n (d.pieces true)) :
    (Script.ofTokens ts).Walk (fun i => (Script.ofTokens ts).isPunct i "," = false) n
      (n + d.size) := by
  rw [← d.length_pieces true]
  cases d <;>
    simp only [Phrase.pieces, List.cons_append, List.nil_append, at_cons, at_nil] at hat
  case noDefault => exact .refl _
  case value e =>
    obtain ⟨heq, he⟩ := hat
    have functions (i : Nat) (h : all[i]? = some .functionWord) :
        (Script.ofTokens ts).isPunct i "," = false := by
      rw [w.isPunct_eq h]
      rfl
    refine ((w.walk_inner w.walkable_entry heq rfl rfl rfl).trans
      (w.walk_expr w.walkable_entry e rfl true _ he
        (fun h => functions _ (functionWord_of_beginsFunction he h)) fun _ => functions)).upTo ?_
    simp [Phrase.pieces]
    omega

theorem isPunct_colon_eq_false (d : Phrase .default) (fs : Phrase (.fields false))
    {r : Bool} {n : Nat}
    (hd : At all n (d.pieces true)) (hfs : At all (n + d.size) (fs.pieces r))
    (hend : (Script.ofTokens ts).isPunct (n + d.size + fs.size) ":" = false) :
    (Script.ofTokens ts).isPunct n ":" = false := by
  cases d with
  | value e =>
    simp only [Phrase.pieces, List.cons_append, at_cons] at hd
    rw [w.isPunct_eq hd.1]
    rfl
  | noDefault =>
    rcases fs.pieces_cases r rfl with hnil | ⟨ps, hps⟩
    · have hsize : fs.size = 0 := by rw [← fs.length_pieces r, hnil, List.length_nil]
      rwa [hsize] at hend
    · rw [hps, at_cons] at hfs
      exact (w.isPunct_eq hfs.1 ":").trans rfl

end Own

section Parts

include w

variable {i j : Nat}

theorem patternMarks_word {x : Identifier} {role : Role} (h : all[i]? = some (.word x role)) :
    (Script.ofTokens ts).patternMarks i = [.declares i] := by
  rw [Script.patternMarks_eq, if_pos (w.lt_size h), w.isName_eq h]
  rfl

theorem objectPart_rest (h : all[i]? = some (.sign "...")) :
    (Script.ofTokens ts).objectPart ⟨i, j⟩ = ⟨[], some (i + 1)⟩ := by
  have hdots : (Script.ofTokens ts).isPunct i "..." = true := by
    rw [w.isPunct_eq h]
    simp [Piece.kind, Piece.text]
  rw [Script.objectPart, hdots, if_pos rfl]

theorem objectPart_keyed {x : Identifier} {role : Role} (h : all[i]? = some (.word x role))
    (hcolon : all[i + 1]? = some (.sign ":")) :
    (Script.ofTokens ts).objectPart ⟨i, j⟩ = ⟨[.silences i], some (i + 2)⟩ := by
  have hcolon' : (Script.ofTokens ts).isPunct (i + 1) ":" = true := by
    rw [w.isPunct_eq hcolon]
    simp [Piece.kind, Piece.text]
  have hword (p : String) : (Script.ofTokens ts).isPunct i p = false := w.isPunct_eq h p
  simp only [Script.objectPart, hword, hcolon', Bool.false_eq_true, if_false, if_true]

theorem objectPart_field {x : Identifier} {role : Role} (h : all[i]? = some (.word x role))
    (hcolon : (Script.ofTokens ts).isPunct (i + 1) ":" = false) :
    (Script.ofTokens ts).objectPart ⟨i, j⟩ = ⟨[.declares i], none⟩ := by
  have hword (p : String) : (Script.ofTokens ts).isPunct i p = false := w.isPunct_eq h p
  have hname : (Script.ofTokens ts).isName i = true := w.isName_eq h
  simp only [Script.objectPart, hword, hcolon, hname, Bool.false_eq_true, if_false, if_true]

theorem listPart_rest (h : all[i]? = some (.sign "...")) (hj : i + 1 < j) :
    (Script.ofTokens ts).listPart ⟨i, j⟩ = ⟨[], some (i + 1)⟩ := by
  have hdots : (Script.ofTokens ts).isPunct i "..." = true := by
    rw [w.isPunct_eq h]
    simp [Piece.kind, Piece.text]
  simp only [Script.listPart, hdots, if_true, hj]

theorem listPart_pattern (p : Phrase .pattern) {r : Bool} (hat : At all i (p.pieces r))
    (hj : i < j) : (Script.ofTokens ts).listPart ⟨i, j⟩ = ⟨[], some i⟩ := by
  have hdots : (Script.ofTokens ts).isPunct i "..." = false := by
    cases p <;> simp only [Phrase.pieces, List.cons_append, at_cons] at hat
    case bind => exact (w.isPunct_eq hat.1 _).trans rfl
    case objectPattern => exact (w.isPunct_eq hat.1 _).trans rfl
    case arrayPattern => exact (w.isPunct_eq hat.1 _).trans rfl
  simp only [Script.listPart, hdots, Bool.false_eq_true, if_false, hj, if_true]

end Parts

def Said (s : Script) : {c : Cat} → Phrase c → Nat → Prop
  | .pattern, t, n => s.patternMarks n = t.own n
  | .fields b, t, n =>
    EntriesSay s (fun e => s.partMarks (s.objectPart e)) b n (n + t.size) (t.own n)
  | .params b, t, n =>
    EntriesSay s (fun e => s.partMarks (s.listPart e)) b n (n + t.size) (t.own n)
  | .specs true b, t, n => EntriesSay s s.importedMarks b n (n + t.size) (t.own n)
  | .specs false b, t, n => EntriesSay s s.exportedMarks b n (n + t.size) (t.own n)
  | _, _, _ => True

section Said

include w

theorem said {c : Cat} (t : Phrase c) (r : Bool) (n : Nat) (hat : At all n (t.pieces r))
    (hend : ∀ b, c = .fields b → (Script.ofTokens ts).isPunct (n + t.size) ":" = false) :
    Said (Script.ofTokens ts) t n := by
  induction t generalizing r n <;> try exact trivial
  all_goals
    simp only [Phrase.pieces, List.cons_append, List.nil_append, List.append_assoc,
      at_cons, at_append, at_nil, and_true, Phrase.length_pieces] at hat
  case bind x => exact w.patternMarks_word hat
  case objectPattern fs ih =>
    obtain ⟨ho, hfs, hcl⟩ := hat
    have hlast : (Script.ofTokens ts).lastOf n = n + 1 + fs.size := by
      simpa using w.lastOf_opening ho hfs (by simpa using hcl) .curly rfl (fs.nested r)
    have hpaired := w.paired_opening ho hfs (by simpa using hcl) .curly rfl (fs.nested r)
    have hentries := ih r (n + 1) hfs fun _ _ => (w.isPunct_eq hcl ":").trans rfl
    simp only [Said, ← hlast] at hentries
    simp only [Said, Phrase.own]
    rw [Script.patternMarks_eq, if_pos (w.lt_size ho), w.isName_eq ho,
      if_neg (by simp [Piece.kind]), Script.patternParts, if_pos hpaired, w.isPunct_eq ho,
      if_pos (by simp [Piece.kind, Piece.text]), List.flatMap_map]
    exact hentries.flatMap_entriesOf
  case arrayPattern ps ih =>
    obtain ⟨ho, hps, hcl⟩ := hat
    have hlast : (Script.ofTokens ts).lastOf n = n + 1 + ps.size := by
      simpa using w.lastOf_opening ho hps (by simpa using hcl) .square rfl (ps.nested r)
    have hpaired := w.paired_opening ho hps (by simpa using hcl) .square rfl (ps.nested r)
    have hentries := ih r (n + 1) hps (by simp)
    simp only [Said, ← hlast] at hentries
    simp only [Said, Phrase.own]
    rw [Script.patternMarks_eq, if_pos (w.lt_size ho), w.isName_eq ho,
      if_neg (by simp [Piece.kind]), Script.patternParts, if_pos hpaired, w.isPunct_eq ho,
      w.isPunct_eq ho, if_neg (by simp [Piece.kind, Piece.text]),
      if_pos (by simp [Piece.kind, Piece.text]), List.flatMap_map]
    exact hentries.flatMap_entriesOf
  case noFields b => exact .nil b
  case restField b x =>
    obtain ⟨hc, hdots, hx⟩ := hat
    have hwalk := (w.walk_single hdots rfl rfl ((w.isPunct_eq hdots ",").trans rfl)).trans
      (w.walk_inner w.walkable_entry hx rfl rfl rfl)
    have hentry := EntriesSay.cons w b hc hwalk (by omega) (Nat.le_refl _) (.nil false)
      (f := fun e => (Script.ofTokens ts).partMarks ((Script.ofTokens ts).objectPart e))
    have hsize : n + (Phrase.restField (b := b) x).size = n + (comma b).length + 1 + 1 := by
      rw [← Phrase.length_pieces _ true]
      simp [Phrase.pieces]
      omega
    simpa only [Said, hsize, Phrase.own, w.objectPart_rest hdots, Script.partMarks,
      w.patternMarks_word hx, List.nil_append, List.append_nil] using hentry
  case field b x d fs _ ih =>
    obtain ⟨hc, hx, hd, hfs⟩ := hat
    have hsize : n + (Phrase.field (b := b) x d fs).size =
        n + (comma b).length + 1 + d.size + fs.size := by
      rw [← Phrase.length_pieces _ true]
      simp [Phrase.pieces]
      omega
    rw [hsize] at hend
    have hwalk := (w.walk_inner w.walkable_entry hx rfl rfl rfl).trans (w.walk_default d hd)
    have hentry := EntriesSay.cons w b hc hwalk (by omega) (Nat.le_add_right _ _)
      (ih r _ hfs fun _ _ => hend b rfl)
    have hcolon := w.isPunct_colon_eq_false d fs hd hfs (hend b rfl)
    simpa only [Said, hsize, Phrase.own, w.objectPart_field hx hcolon, Script.partMarks,
      List.append_nil, List.singleton_append] using hentry
  case keyed b k p d fs ihp _ ih =>
    obtain ⟨hc, hk, hcolon, hp, hd, hfs⟩ := hat
    have hsize : n + (Phrase.keyed (b := b) k p d fs).size =
        n + (comma b).length + 1 + 1 + p.size + d.size + fs.size := by
      rw [← Phrase.length_pieces _ true]
      simp [Phrase.pieces]
      omega
    rw [hsize] at hend
    have hwalk := (w.walk_inner w.walkable_entry hk rfl rfl rfl).trans
      ((w.walk_inner w.walkable_entry hcolon rfl rfl rfl).trans
        ((w.walk_pattern p hp).trans (w.walk_default d hd)))
    have hentry := EntriesSay.cons w b hc hwalk (by omega) (Nat.le_add_right _ _)
      (ih r _ hfs fun _ _ => hend b rfl)
    have hinner : (Script.ofTokens ts).patternMarks (n + (comma b).length + 1 + 1) = _ :=
      ihp r _ hp (by simp)
    simpa only [Said, hsize, Phrase.own, w.objectPart_keyed hk hcolon, Script.partMarks, hinner,
      List.nil_append, List.cons_append, List.append_assoc] using hentry
  case noParams b => exact .nil b
  case restParam b x =>
    obtain ⟨hc, hdots, hx⟩ := hat
    have hwalk := (w.walk_single hdots rfl rfl ((w.isPunct_eq hdots ",").trans rfl)).trans
      (w.walk_inner w.walkable_entry hx rfl rfl rfl)
    have hentry := EntriesSay.cons w b hc hwalk (by omega) (Nat.le_refl _) (.nil false)
      (f := fun e => (Script.ofTokens ts).partMarks ((Script.ofTokens ts).listPart e))
    have hsize : n + (Phrase.restParam (b := b) x).size = n + (comma b).length + 1 + 1 := by
      rw [← Phrase.length_pieces _ true]
      simp [Phrase.pieces]
      omega
    simpa only [Said, hsize, Phrase.own, w.listPart_rest hdots (Nat.lt_succ_self _),
      Script.partMarks, w.patternMarks_word hx, List.nil_append, List.append_nil] using hentry
  case param b p d ps ihp _ ih =>
    obtain ⟨hc, hp, hd, hps⟩ := hat
    have hsize : n + (Phrase.param (b := b) p d ps).size =
        n + (comma b).length + p.size + d.size + ps.size := by
      rw [← Phrase.length_pieces _ true]
      simp [Phrase.pieces]
      omega
    have hpos := p.size_pos
    have hwalk := (w.walk_pattern p hp).trans (w.walk_default d hd)
    have hentry := EntriesSay.cons w b hc hwalk (by omega) (Nat.le_add_right _ _)
      (ih r _ hps (by simp))
    have hinner : (Script.ofTokens ts).patternMarks (n + (comma b).length) = _ :=
      ihp r _ hp (by simp)
    have hpart := w.listPart_pattern p hp
      (by omega : n + (comma b).length < n + (comma b).length + p.size + d.size)
    simpa only [Said, hsize, Phrase.own, hpart, Script.partMarks, hinner, List.nil_append] using
      hentry
  case noSpecs i b => cases i <;> exact .nil b
  case renamed i b x y ss ih =>
    obtain ⟨hc, hx, has, hy, hss⟩ := hat
    have hsize : n + (Phrase.renamed (i := i) (b := b) x y ss).size =
        n + (comma b).length + 1 + 1 + 1 + ss.size := by
      rw [← Phrase.length_pieces _ true]
      simp [Phrase.pieces]
      omega
    have hwalk := (w.walk_inner w.walkable_entry hx rfl rfl rfl).trans
      ((w.walk_inner w.walkable_entry has rfl rfl rfl).trans
        (w.walk_inner w.walkable_entry hy rfl rfl rfl))
    have htext : (Script.ofTokens ts).text (n + (comma b).length + 1) = "as" := w.text_eq has
    have hrest := ih true _ hss (by simp)
    cases i with
    | true =>
      have hentry := EntriesSay.cons w b hc hwalk (by omega) (Nat.le_add_right _ _) hrest
      simpa [Said, hsize, Phrase.own, Script.importedMarks, htext] using hentry
    | false =>
      have hentry := EntriesSay.cons w b hc hwalk (by omega) (Nat.le_add_right _ _) hrest
      simpa [Said, hsize, Phrase.own, Script.exportedMarks, htext] using hentry
  case spec i b x ss ih =>
    obtain ⟨hc, hx, hss⟩ := hat
    have hsize : n + (Phrase.spec (i := i) (b := b) x ss).size =
        n + (comma b).length + 1 + ss.size := by
      rw [← Phrase.length_pieces _ true]
      simp [Phrase.pieces]
      omega
    have hwalk := w.walk_inner w.walkable_entry hx rfl rfl rfl
    have hname : (Script.ofTokens ts).isName (n + (comma b).length) = true := w.isName_eq hx
    have hrest := ih true _ hss (by simp)
    cases i with
    | true =>
      have hentry := EntriesSay.cons w b hc hwalk (by omega) (Nat.le_add_right _ _) hrest
      simpa [Said, hsize, Phrase.own, Script.importedMarks, hname] using hentry
    | false =>
      have hentry := EntriesSay.cons w b hc hwalk (by omega) (Nat.le_add_right _ _) hrest
      simpa [Said, hsize, Phrase.own, Script.exportedMarks] using hentry

theorem patternMarks_pattern (p : Phrase .pattern) {r : Bool} {n : Nat}
    (hat : At all n (p.pieces r)) : (Script.ofTokens ts).patternMarks n = p.own n :=
  w.said p r n hat (by simp)

theorem parameterMarks_params (ps : Phrase (.params true)) {r : Bool} {n : Nat} {c : Piece}
    (ho : all[n]? = some (.sign "(")) (hps : At all (n + 1) (ps.pieces r))
    (hcl : all[n + 1 + ps.size]? = some c) (hoc : Piece.Closes (.sign "(") c) :
    (Script.ofTokens ts).parameterMarks n = ps.own (n + 1) := by
  have hlast : (Script.ofTokens ts).lastOf n = n + 1 + ps.size := by
    simpa using w.lastOf_opening ho hps (by simpa using hcl) hoc rfl (ps.nested r)
  have hentries := w.said ps r (n + 1) hps (by simp)
  simp only [Said, ← hlast] at hentries
  rw [Script.parameterMarks_eq, List.flatMap_map]
  exact hentries.flatMap_entriesOf

theorem parameterMarks_pattern (p : Phrase .pattern) {r : Bool} {n : Nat} {c : Piece}
    (ho : all[n]? = some (.sign "(")) (hp : At all (n + 1) (p.pieces r))
    (hcl : all[n + 1 + p.size]? = some c) (hoc : Piece.Closes (.sign "(") c) :
    (Script.ofTokens ts).parameterMarks n = p.own (n + 1) := by
  have hsize : (Phrase.param (b := true) p .noDefault .noParams).size = p.size := by
    rw [← Phrase.length_pieces _ true]
    simp [Phrase.pieces, comma]
  have hown : (Phrase.param (b := true) p .noDefault .noParams).own (n + 1) = p.own (n + 1) := by
    simp [Phrase.own, comma]
  rw [← hown]
  exact w.parameterMarks_params (r := r) _ ho (by simpa [Phrase.pieces, comma] using hp)
    (by rwa [hsize]) hoc

theorem declaratorMarks_pattern (p : Phrase .pattern) {r : Bool} {n : Nat}
    {x : Identifier} {role : Role}
    (hat : At all n (p.pieces r)) (hend : all[n + p.size]? = some (.word x role)) :
    (Script.ofTokens ts).declaratorMarks n = p.own n := by
  have hlt : n < (Script.ofTokens ts).size := by
    have := w.lt_size hend
    omega
  have hstop (x : String) : (Script.ofTokens ts).isPunct (n + p.size) x = false :=
    w.isPunct_eq hend x
  rw [Script.declaratorMarks, if_pos hlt, Script.declaratorEnd, w.patternEnd_pattern p hat, hstop]
  dsimp only
  rw [if_neg Bool.false_ne_true, hstop, if_neg Bool.false_ne_true, List.append_nil,
    w.patternMarks_pattern p hat]

section Declarator

variable {p : Phrase .pattern} {e : Phrase .expr} {r : Bool} {n : Nat} (hp : At all n (p.pieces r))
  (heq : all[n + p.size]? = some (.sign "=")) (he : At all (n + p.size + 1) (e.pieces true))

include hp heq

theorem declaratorMarks_eq : (Script.ofTokens ts).declaratorMarks n =
    p.own n ++ if (Script.ofTokens ts).isPunct ((Script.ofTokens ts).valueEnd (n + p.size + 1)) ","
      then (Script.ofTokens ts).declaratorMarks
        ((Script.ofTokens ts).valueEnd (n + p.size + 1) + 1)
      else [] := by
  have hlt : n < (Script.ofTokens ts).size := by
    have := w.lt_size heq
    omega
  have heq' : (Script.ofTokens ts).isPunct (n + p.size) "=" = true := by
    rw [w.isPunct_eq heq]
    simp [Piece.kind, Piece.text]
  rw [Script.declaratorMarks, if_pos hlt, Script.declaratorEnd, w.patternEnd_pattern p hp, heq',
    w.patternMarks_pattern p hp]
  rfl

include he

theorem declaratorMarks_of_breaks (hb : e.breaks = true) :
    (Script.ofTokens ts).declaratorMarks n = p.own n := by
  obtain ⟨i, hi, hf⟩ := w.valueEnd_of_breaks e heq he hb
  have hstop : (Script.ofTokens ts).isPunct i "," = false := w.isPunct_eq hf ","
  rw [w.declaratorMarks_eq hp heq, hi, hstop, if_neg Bool.false_ne_true, List.append_nil]

end Declarator

/-- The declarators up to the semicolon behind them, or up to a template that breaks off. -/
theorem declaratorMarks_declarators {c : Cat} (ds : Phrase c) (hds : c = .declarators) (r : Bool)
    (n : Nat) (hat : At all n (ds.pieces r)) (hend : all[n + ds.size]? = some (.sign ";")) :
    (Script.ofTokens ts).declaratorMarks n = ds.own n := by
  induction ds generalizing r n <;> cases hds
  all_goals
    simp only [Phrase.pieces, List.cons_append, List.nil_append, List.append_assoc,
      at_cons, at_append, Phrase.length_pieces] at hat
  case lastDeclarator p e _ _ =>
    obtain ⟨hp, heq, he⟩ := hat
    have hsize : n + (Phrase.lastDeclarator p e).size = n + p.size + 1 + e.size := by
      rw [← Phrase.length_pieces _ true]
      simp [Phrase.pieces]
      omega
    rw [hsize] at hend
    rw [Phrase.own]
    by_cases hb : e.breaks = true
    · exact w.declaratorMarks_of_breaks hp heq he hb
    · have hvalue := w.valueEnd_expr e heq he (by simpa using hb) (by simpa using hend) (.inr rfl)
      have hstop : (Script.ofTokens ts).isPunct (n + p.size + 1 + e.size) "," = false :=
        w.isPunct_eq hend ","
      rw [w.declaratorMarks_eq hp heq, hvalue, Phrase.length_pieces,
        hstop, if_neg Bool.false_ne_true,
        List.append_nil]
  case declarator p e ds _ _ ih =>
    obtain ⟨hp, heq, he, hcomma, hds⟩ := hat
    have hsize : n + (Phrase.declarator p e ds).size = n + p.size + 1 + e.size + 1 + ds.size := by
      rw [← Phrase.length_pieces _ true]
      simp [Phrase.pieces]
      omega
    rw [hsize] at hend
    rw [Phrase.own]
    by_cases hb : e.breaks = true
    · rw [if_pos hb, List.append_nil]
      exact w.declaratorMarks_of_breaks hp heq he hb
    · have hvalue := w.valueEnd_expr e heq he (by simpa using hb) (by simpa using hcomma) (.inl rfl)
      have hgoes : (Script.ofTokens ts).isPunct (n + p.size + 1 + e.size) "," = true := by
        rw [w.isPunct_eq hcomma]
        simp [Piece.kind, Piece.text]
      rw [w.declaratorMarks_eq hp heq, hvalue, Phrase.length_pieces, hgoes, if_pos rfl,
        ih rfl _ _ hds hend, if_neg hb]

end Said

end Written

end MdxLint
