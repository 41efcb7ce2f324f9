import MdxLint.Proofs.Fragment.Own

/-! # What constructs announce

The marks that a script makes at a piece: those of its pattern or of its list of names at a
keyword or an arrow, and none at any other piece.
-/

namespace MdxLint

def Piece.isMute : Piece → Bool
  | word _ role => role ∉ [Role.binds, Role.outer]
  | keyword k _ => k ∉ ["var", "let", "const", "function", "class", "catch", "import", "export"]
  | sign p _ => p ∉ ["=>", ")"]
  | headEnd => false
  | _ => true

namespace Written

variable {all : List Piece} {ts : List Token} (w : Written all ts) {n : Nat} {p : Piece}

include w

section MarksAt

theorem mem_marks (h : all[n]? = some p) {m : Mark} (hm : m ∈ (Script.ofTokens ts).marksAt n) :
    m ∈ (Script.ofTokens ts).marks :=
  List.mem_flatMap.2 ⟨n, List.mem_range.2 (w.lt_size h), hm⟩

theorem marksAt_eq (h : all[n]? = some p) :
    (Script.ofTokens ts).marksAt n =
      match p.kind with
      | .keyword =>
        if p.text ∈ ["var", "let", "const"] then (Script.ofTokens ts).declaratorMarks (n + 1)
        else if p.text = "function" then (Script.ofTokens ts).functionMarks n
        else if p.text = "class" then (Script.ofTokens ts).classMarks n
        else if p.text = "catch" then
          if (Script.ofTokens ts).isPunct (n + 1) "(" then
            (Script.ofTokens ts).parameterMarks (n + 1)
          else []
        else if p.text = "import" then (Script.ofTokens ts).importMarks n
        else if p.text = "export" then (Script.ofTokens ts).exportMarks n
        else []
      | .punctuator =>
        if p.text = "=>" then (Script.ofTokens ts).arrowMarks n
        else if p.text = ")" && (Script.ofTokens ts).isPunct (n + 1) "\x7b" then
          (Script.ofTokens ts).methodMarks n
        else []
      | _ => [] := by
  obtain ⟨t, ht, he⟩ := w.exists_token h
  rw [Prod.mk.injEq] at he
  rw [← he.1, ← he.2, Script.marksAt]
  generalize (Script.ofTokens ts).tokens[n]? = o at ht
  subst ht
  rfl

theorem marksAt_word {x : Identifier} {role : Role} (h : all[n]? = some (.word x role)) :
    (Script.ofTokens ts).marksAt n = [] := w.marksAt_eq h

theorem marksAt_of_isMute (h : all[n]? = some p) (hp : p.isMute = true) :
    (Script.ofTokens ts).marksAt n = [] := by
  rw [w.marksAt_eq h]
  cases p with
  | keyword k hk =>
    have hk' : k ∉ ["var", "let", "const", "function", "class", "catch", "import", "export"] :=
      of_decide_eq_true hp
    simp only [List.mem_cons, not_or] at hk'
    simp [Piece.kind, Piece.text, hk']
  | sign x hx =>
    have hx' : x ∉ ["=>", ")"] := of_decide_eq_true hp
    simp only [List.mem_cons, not_or] at hx'
    simp [Piece.kind, Piece.text, hx']
  | headEnd => cases hp
  | _ => rfl

theorem marksAt_close (h : all[n]? = some (.sign ")"))
    (hnext : all[n + 1]? ≠ some (.sign "\x7b")) : (Script.ofTokens ts).marksAt n = [] := by
  have hbrace : (Script.ofTokens ts).isPunct (n + 1) "\x7b" = false := by
    cases hq : all[n + 1]? with
    | none =>
      have hlen := List.getElem?_eq_none_iff.1 hq
      rw [← w.size_eq, Script.size] at hlen
      simp [Script.isPunct, Array.getElem?_eq_none hlen]
    | some q =>
      rw [w.isPunct_eq hq]
      cases q with
      | sign x hx =>
        have hx' : x ≠ "\x7b" := by
          rintro rfl
          exact hnext hq
        simpa [Piece.kind, Piece.text] using hx'
      | _ => rfl
  rw [w.marksAt_eq h]
  simp [Piece.kind, Piece.text, hbrace]

theorem marksAt_headEnd {ps : List Piece} (ho : all[n]? = some (.sign "("))
    (hps : At all (n + 1) ps) (hc : all[n + 1 + ps.length]? = some .headEnd) (hnest : Nested ps)
    (hm : (Script.ofTokens ts).opensMethod n = false) :
    (Script.ofTokens ts).marksAt (n + 1 + ps.length) = [] := by
  have hmethod : (Script.ofTokens ts).methodMarks (n + 1 + ps.length) = [] := by
    rw [Script.methodMarks, w.partner?_closing ho hps hc .head rfl hnest]
    dsimp only
    rw [hm, if_neg Bool.false_ne_true]
  rw [w.marksAt_eq hc]
  simp [Piece.kind, Piece.text, hmethod]

theorem opensMethod_keyword {k : String} {hk : k ∈ keywords} (h : all[n]? = some (.keyword k hk))
    (hhead : k ∈ blockHeads) : (Script.ofTokens ts).opensMethod (n + 1) = false := by
  obtain ⟨t, ht, he⟩ := w.exists_token h
  rw [Prod.mk.injEq] at he
  have htext : t.text = k := he.2
  rw [Script.opensMethod, Script.before?, ht]
  simp [htext, hhead]

theorem opensMethod_function (h : all[n]? = some .functionWord) (hp : all[n + 1]? = some p) :
    (Script.ofTokens ts).opensMethod (n + 1 + 1) = false := by
  obtain ⟨t, ht, -⟩ := w.exists_token hp
  have hkeyword : (Script.ofTokens ts).text n = "function" := w.text_eq h
  have htext : (Script.ofTokens ts).textBefore (n + 1 + 1) 2 = "function" := by
    rw [Script.textBefore, if_pos (by omega)]
    exact hkeyword
  rw [Script.opensMethod, Script.before?, ht]
  simp [htext]

section Functions

variable (ps : Phrase (.params true)) {c : Piece} (ho : all[n]? = some (.sign "("))
  (hps : At all (n + 1) (ps.pieces true)) (hc : all[n + 1 + ps.size]? = some c)
  (hoc : Piece.Closes (.sign "(") c)

include ho hps hc hoc

theorem marksAt_function {i : Nat} (hi : i + 1 = n)
    (hk : all[i]? = some (.keyword "function")) :
    (Script.ofTokens ts).marksAt i = ps.own (n + 1) := by
  subst hi
  have hname : (Script.ofTokens ts).isName (i + 1) = false := w.isName_eq ho
  have hstar : (Script.ofTokens ts).isPunct (i + 1) "*" = false := by
    rw [w.isPunct_eq ho]
    simp [Piece.kind, Piece.text]
  have hopen : (Script.ofTokens ts).isPunct (i + 1) "(" = true := by
    rw [w.isPunct_eq ho]
    simp [Piece.kind, Piece.text]
  rw [w.marksAt_eq hk, ← w.parameterMarks_params ps ho hps hc hoc]
  simp [Piece.kind, Piece.text, Script.functionMarks, hname, hstar, hopen]

theorem marksAt_function_named {i : Nat} (hi : i + 1 + 1 = n) {x : Identifier} {role : Role}
    (hk : all[i]? = some (.keyword "function")) (hx : all[i + 1]? = some (.word x role)) :
    (Script.ofTokens ts).marksAt i = .declares (i + 1) :: ps.own (n + 1) := by
  subst hi
  have hname : (Script.ofTokens ts).isName (i + 1) = true := w.isName_eq hx
  have hstar : (Script.ofTokens ts).isPunct (i + 1) "*" = false := w.isPunct_eq hx "*"
  have hopen : (Script.ofTokens ts).isPunct (i + 1 + 1) "(" = true := by
    rw [w.isPunct_eq ho]
    simp [Piece.kind, Piece.text]
  rw [w.marksAt_eq hk, ← w.parameterMarks_params ps ho hps hc hoc]
  simp [Piece.kind, Piece.text, Script.functionMarks, hname, hstar, hopen]

theorem marksAt_arrow (hround : c = .sign ")")
    (harrow : all[n + 1 + ps.size + 1]? = some (.sign "=>")) :
    (Script.ofTokens ts).marksAt (n + 1 + ps.size + 1) = ps.own (n + 1) := by
  subst hround
  have hname : (Script.ofTokens ts).isName (n + 1 + ps.size) = false := w.isName_eq hc
  have hclose : (Script.ofTokens ts).isPunct (n + 1 + ps.size) ")" = true := by
    rw [w.isPunct_eq hc]
    simp [Piece.kind, Piece.text]
  have hpartner : (Script.ofTokens ts).partner? (n + 1 + ps.size) = some n := by
    simpa using w.partner?_closing ho hps (by simpa using hc) hoc rfl (ps.nested true)
  rw [w.marksAt_eq harrow, ← w.parameterMarks_params ps ho hps hc hoc]
  simp [Piece.kind, Piece.text, Script.arrowMarks, hname, hclose, hpartner]

end Functions

theorem marksAt_catch (p : Phrase .pattern) {c : Piece} (hk : all[n]? = some (.keyword "catch"))
    (ho : all[n + 1]? = some (.sign "(")) (hp : At all (n + 1 + 1) (p.pieces true))
    (hc : all[n + 1 + 1 + p.size]? = some c) (hoc : Piece.Closes (.sign "(") c) :
    (Script.ofTokens ts).marksAt n = p.own (n + 1 + 1) := by
  have hopen : (Script.ofTokens ts).isPunct (n + 1) "(" = true := by
    rw [w.isPunct_eq ho]
    simp [Piece.kind, Piece.text]
  rw [w.marksAt_eq hk, ← w.parameterMarks_pattern p ho hp hc hoc]
  simp [Piece.kind, Piece.text, hopen]

theorem marksAt_declarator {k : String} {hk : k ∈ keywords} (hd : k ∈ declarators)
    (h : all[n]? = some (.keyword k hk)) :
    (Script.ofTokens ts).marksAt n = (Script.ofTokens ts).declaratorMarks (n + 1) := by
  have hd' : k ∈ ["var", "let", "const"] := hd
  rw [w.marksAt_eq h]
  simp only [Piece.kind, Piece.text, hd', if_true]

section Modules

theorem marksAt_export (ss : Phrase (.specs false true)) (hk : all[n]? = some (.keyword "export"))
    (ho : all[n + 1]? = some (.sign "\x7b")) (hss : At all (n + 1 + 1) (ss.pieces true))
    (hc : all[n + 1 + 1 + ss.size]? = some (.sign "\x7d"))
    (hsemi : all[n + 1 + 1 + ss.size + 1]? = some (.sign ";")) :
    (Script.ofTokens ts).marksAt n = ss.own (n + 1 + 1) := by
  have hlast : (Script.ofTokens ts).lastOf (n + 1) = n + 1 + 1 + ss.size := by
    simpa using w.lastOf_opening ho hss (by simpa using hc) .curly rfl (ss.nested true)
  have hpaired := w.paired_opening ho hss (by simpa using hc) .curly rfl (ss.nested true)
  have hentries := w.said ss true (n + 1 + 1) hss (by simp)
  simp only [Said, ← hlast] at hentries
  have hstar : (Script.ofTokens ts).isPunct (n + 1) "*" = false := by
    rw [w.isPunct_eq ho]
    simp [Piece.kind, Piece.text]
  have hopen : (Script.ofTokens ts).isPunct (n + 1) "\x7b" = true := by
    rw [w.isPunct_eq ho]
    simp [Piece.kind, Piece.text]
  have hfrom : (Script.ofTokens ts).text (n + 1 + 1 + ss.size + 1) = ";" := w.text_eq hsemi
  rw [w.marksAt_eq hk, ← hentries.flatMap_entriesOf]
  simp [Piece.kind, Piece.text, Script.exportMarks, hstar, hopen, hpaired, hlast, hfrom]

theorem marksAt_import (hk : all[n]? = some (.keyword "import")) (h : all[n + 1]? = some p)
    (ho : p ≠ .sign "(") (hdot : p ≠ .sign ".") (hend : p ≠ .headEnd) :
    (Script.ofTokens ts).marksAt n = (Script.ofTokens ts).importMarksFrom (n + 1) := by
  have hsign {x : String} {hx : x ∈ signs} (hne : p ≠ .sign x hx) (hround : x ≠ ")") :
      (Script.ofTokens ts).isPunct (n + 1) x = false := by
    rw [w.isPunct_eq h]
    cases p with
    | sign y hy =>
      have hy' : y ≠ x := by
        rintro rfl
        exact hne rfl
      simpa [Piece.kind, Piece.text] using hy'
    | headEnd => exact (hend rfl).elim
    | _ => rfl
  rw [w.marksAt_eq hk]
  simp [Piece.kind, Piece.text, Script.importMarks, hsign ho (by decide), hsign hdot (by decide)]

theorem importMarksFrom_eq (h : all[n]? = some p) :
    (Script.ofTokens ts).importMarksFrom n =
      if p.kind = .name then
        if p.text = "from" then []
        else .declares n :: (Script.ofTokens ts).importMarksFrom (n + 1)
      else if p.kind = .string || (p.kind == .punctuator && p.text == ";") then []
      else if (p.kind == .punctuator && p.text == "*") &&
          (Script.ofTokens ts).text (n + 1) == "as" then
        (if n + 2 < (Script.ofTokens ts).size then [.declares (n + 2)] else []) ++
          (Script.ofTokens ts).importMarksFrom (n + 3)
      else if p.kind == .punctuator && p.text == "\x7b" then
        (if (Script.ofTokens ts).paired n then
          ((Script.ofTokens ts).entriesOf n).flatMap (Script.ofTokens ts).importedMarks
        else []) ++ (Script.ofTokens ts).importMarksFrom (n + (Script.ofTokens ts).extent n)
      else (Script.ofTokens ts).importMarksFrom (n + 1) := by
  obtain ⟨t, ht, he⟩ := w.exists_token h
  rw [Prod.mk.injEq] at he
  rw [Script.importMarksFrom_eq, ht, ← he.1, ← he.2]
  rfl

theorem importMarksFrom_name {x : Name}
    {role : Role} (h : all[n]? = some (.word x.toIdentifier role)) :
    (Script.ofTokens ts).importMarksFrom n =
      .declares n :: (Script.ofTokens ts).importMarksFrom (n + 1) := by
  have hfrom : x.text ≠ "from" := by
    intro he
    exact absurd x.not_contextual (by rw [he]; decide)
  rw [w.importMarksFrom_eq h]
  simp [Piece.kind, Piece.text, hfrom]

theorem importMarksFrom_from (h : all[n]? = some .fromWord) :
    (Script.ofTokens ts).importMarksFrom n = [] := by
  rw [w.importMarksFrom_eq h]
  simp [Piece.fromWord, Piece.kind, Piece.text]

theorem marksAt_importNames {x : Name} {role : Role} (ss : Phrase (.specs true true))
    (hk : all[n]? = some (.keyword "import")) (hx : all[n + 1]? = some (.word x.toIdentifier role))
    (hcomma : all[n + 1 + 1]? = some (.sign ",")) (ho : all[n + 1 + 1 + 1]? = some (.sign "\x7b"))
    (hss : At all (n + 1 + 1 + 1 + 1) (ss.pieces true))
    (hc : all[n + 1 + 1 + 1 + 1 + ss.size]? = some (.sign "\x7d"))
    (hfrom : all[n + 1 + 1 + 1 + 1 + ss.size + 1]? = some .fromWord) :
    (Script.ofTokens ts).marksAt n = .declares (n + 1) :: ss.own (n + 1 + 1 + 1 + 1) := by
  have hlast : (Script.ofTokens ts).lastOf (n + 1 + 1 + 1) = n + 1 + 1 + 1 + 1 + ss.size := by
    simpa using w.lastOf_opening ho hss (by simpa using hc) .curly rfl (ss.nested true)
  have hpaired := w.paired_opening ho hss (by simpa using hc) .curly rfl (ss.nested true)
  have hextent : n + 1 + 1 + 1 + (Script.ofTokens ts).extent (n + 1 + 1 + 1) =
      n + 1 + 1 + 1 + 1 + ss.size + 1 := by
    rw [w.extent_opening ho hss (by simpa using hc)
    .curly rfl (ss.nested true), Phrase.length_pieces]
    omega
  have hentries := w.said ss true (n + 1 + 1 + 1 + 1) hss (by simp)
  simp only [Said, ← hlast] at hentries
  have hbraces : (Script.ofTokens ts).importMarksFrom (n + 1 + 1 + 1) =
      ss.own (n + 1 + 1 + 1 + 1) := by
    rw [w.importMarksFrom_eq ho, hextent, w.importMarksFrom_from hfrom, hentries.flatMap_entriesOf]
    simp [Piece.kind, Piece.text, hpaired]
  rw [w.marksAt_import hk hx (by simp) (by simp) (by simp), w.importMarksFrom_name hx,
    w.importMarksFrom_eq hcomma, hbraces]
  simp [Piece.kind, Piece.text]

theorem marksAt_importAll {x : Identifier} {role : Role} (hk : all[n]? = some (.keyword "import"))
    (hstar : all[n + 1]? = some (.sign "*")) (has : all[n + 1 + 1]? = some .as)
    (hx : all[n + 1 + 1 + 1]? = some (.word x role))
    (hfrom : all[n + 1 + 1 + 1 + 1]? = some .fromWord) :
    (Script.ofTokens ts).marksAt n = [.declares (n + 1 + 1 + 1)] := by
  have htext : (Script.ofTokens ts).text (n + 1 + 1) = "as" := w.text_eq has
  have hlt : n + 3 < (Script.ofTokens ts).size := w.lt_size hx
  rw [w.marksAt_import hk hstar (by simp) (by simp) (by simp), w.importMarksFrom_eq hstar,
    w.importMarksFrom_from hfrom]
  simp [Piece.kind, Piece.text, htext, hlt]

end Modules

end MarksAt

end Written

end MdxLint
