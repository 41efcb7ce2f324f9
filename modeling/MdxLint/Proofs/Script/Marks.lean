import MdxLint.Script.Declaration

/-! # Marks

The equations of the recursive functions without the proofs that they end, and which tokens can be
declared: names, and what stands behind the word `as` of an import.
-/

namespace MdxLint

def Mark.index : Mark → Nat
  | .declares i => i
  | .silences i => i

namespace Declarations

@[simp] theorem mem_declared_ofMarks {ms : List Mark} {i : Nat} :
    i ∈ (ofMarks ms).declared ↔ Mark.declares i ∈ ms := by
  constructor
  · intro h
    obtain ⟨m, hm, hi⟩ := List.mem_filterMap.1 h
    cases m <;> cases hi
    exact hm
  · exact fun h => List.mem_filterMap.2 ⟨_, h, rfl⟩

@[simp] theorem mem_silent_ofMarks {ms : List Mark} {i : Nat} :
    i ∈ (ofMarks ms).silent ↔ Mark.silences i ∈ ms := by
  constructor
  · intro h
    obtain ⟨m, hm, hi⟩ := List.mem_filterMap.1 h
    cases m <;> cases hi
    exact hm
  · exact fun h => List.mem_filterMap.2 ⟨_, h, rfl⟩

@[simp] theorem excludes_ofMarks {ms : List Mark} {i : Nat} :
    (ofMarks ms).excludes i = true ↔ Mark.declares i ∈ ms ∨ Mark.silences i ∈ ms := by
  simp [excludes]

end Declarations

namespace Script

theorem isPunct_iff {s : Script} {i : Nat} {p : String} :
    s.isPunct i p = true ↔ s.kind? i = some .punctuator ∧ s.text i = p := by
  unfold isPunct kind? text Token.isPunct
  cases s.tokens[i]? <;> simp

theorem exists_token_of_isPunct {s : Script} {i : Nat} {p : String} (h : s.isPunct i p = true) :
    ∃ t, s.tokens[i]? = some t ∧ t.kind = .punctuator ∧ t.text = p := by
  unfold isPunct Token.isPunct at h
  cases ht : s.tokens[i]? with
  | none => simp [ht] at h
  | some t => exact ⟨t, rfl, by simpa [ht] using h⟩

theorem lt_size_of_isName {s : Script} {i : Nat} (h : s.isName i = true) : i < s.size := by
  refine Nat.lt_of_not_le fun hle => ?_
  rw [isName, kind?, Array.getElem?_eq_none hle] at h
  cases h

theorem mem_marks {s : Script} {m : Mark} : m ∈ s.marks ↔ ∃ i, m ∈ s.marksAt i := by
  unfold marks
  rw [List.mem_flatMap]
  constructor
  · rintro ⟨i, -, hi⟩
    exact ⟨i, hi⟩
  · rintro ⟨i, hi⟩
    refine ⟨i, List.mem_range.2 (Nat.lt_of_not_le fun hle => ?_), hi⟩
    rw [marksAt, Array.getElem?_eq_none hle] at hi
    cases hi

theorem mem_declaredNames {s : Script} {x : String} :
    x ∈ s.declaredNames ↔ ∃ j, Mark.declares j ∈ s.marks ∧ s.text j = x := by
  simp [declaredNames, declarations]

def partMarks (s : Script) (p : PatternPart) : List Mark :=
  p.marks ++
    match p.inner with
    | none => []
    | some j => s.patternMarks j

theorem patternMarks_eq (s : Script) (i : Nat) :
    s.patternMarks i =
      if i < s.size then
        if s.isName i then [.declares i] else (s.patternParts i).flatMap s.partMarks
      else [] := by
  rw [patternMarks]
  congr 2
  rw [List.flatMap_subtype (g := s.partMarks), List.unattach_attach]
  intro p _
  unfold partMarks
  dsimp only
  congr 1
  split <;> simp_all

theorem parameterMarks_eq (s : Script) (i : Nat) :
    s.parameterMarks i = ((s.entriesOf i).map s.listPart).flatMap s.partMarks := by
  rw [List.flatMap_map]
  rfl

theorem valueEnd_eq (s : Script) (i : Nat) :
    s.valueEnd i =
      match s.tokens[i]? with
      | none => i
      | some t => if s.endsValue i t then i else s.valueEnd (i + s.extent i) := by
  rw [valueEnd]
  split <;> simp_all

theorem importMarksFrom_eq (s : Script) (i : Nat) :
    s.importMarksFrom i =
      match s.tokens[i]? with
      | none => []
      | some t =>
        if t.kind = .name then
          if t.text = "from" then [] else .declares i :: s.importMarksFrom (i + 1)
        else if t.kind = .string || t.isPunct ";" then []
        else if t.isPunct "*" && s.text (i + 1) == "as" then
          (if i + 2 < s.size then [.declares (i + 2)] else []) ++ s.importMarksFrom (i + 3)
        else if t.isPunct "\x7b" then
          (if s.paired i then (s.entriesOf i).flatMap s.importedMarks else [])
            ++ s.importMarksFrom (i + s.extent i)
        else s.importMarksFrom (i + 1) := by
  rw [importMarksFrom]
  split <;> simp_all

section Declarable

variable (s : Script)

def Declarable (j : Nat) : Prop := s.isName j = true ∨ s.textBefore j 1 = "as"

def Lawful (ms : List Mark) : Prop := ∀ j, Mark.declares j ∈ ms → s.Declarable j

variable {s} {ms ms' : List Mark}

theorem Lawful.nil : s.Lawful [] := nofun

theorem Lawful.append (h : s.Lawful ms) (h' : s.Lawful ms') : s.Lawful (ms ++ ms') :=
  fun j hj => (List.mem_append.1 hj).elim (h j) (h' j)

theorem Lawful.cons_silences (i : Nat) (h : s.Lawful ms) : s.Lawful (.silences i :: ms) :=
  fun j hj => (List.mem_cons.1 hj).elim nofun (h j)

theorem Lawful.cons_declares {i : Nat} (hi : s.Declarable i) (h : s.Lawful ms) :
    s.Lawful (.declares i :: ms) := by
  intro j hj
  rcases List.mem_cons.1 hj with hj | hj
  · cases hj
    exact hi
  · exact h j hj

theorem Lawful.flatMap {α : Type} {l : List α} {f : α → List Mark}
    (h : ∀ a ∈ l, s.Lawful (f a)) : s.Lawful (l.flatMap f) := by
  intro j hj
  obtain ⟨a, ha, hj⟩ := List.mem_flatMap.1 hj
  exact h a ha j hj

theorem Lawful.ite {c : Prop} [Decidable c] (h : c → s.Lawful ms) :
    s.Lawful (if c then ms else []) := by
  split
  case isTrue hc => exact h hc
  case isFalse => exact .nil

theorem lawful_listPart (e : Span) : s.Lawful (s.listPart e).marks := .nil

theorem lawful_objectPart (e : Span) : s.Lawful (s.objectPart e).marks := by
  unfold objectPart
  split
  · exact .nil
  split
  · exact .nil
  split
  · exact .cons_silences _ .nil
  split
  case isTrue hn => exact .cons_declares (.inl hn) .nil
  case isFalse => exact .nil

theorem lawful_patternMarks (i : Nat) : s.Lawful (s.patternMarks i) := by
  generalize hn : s.size - i = n
  induction n using Nat.strongRecOn generalizing i with
  | ind n ih =>
    rw [patternMarks_eq]
    refine .ite fun hlt => ?_
    split
    case isTrue hname => exact .cons_declares (.inl hname) .nil
    case isFalse =>
      refine .flatMap fun p hp => .append ?_ ?_
      · unfold patternParts at hp
        split at hp
        · split at hp
          · obtain ⟨e, -, rfl⟩ := List.mem_map.1 hp
            exact lawful_objectPart e
          split at hp
          · obtain ⟨e, -, rfl⟩ := List.mem_map.1 hp
            exact lawful_listPart e
          · cases hp
        · cases hp
      · split
        · exact .nil
        case h_2 j hj =>
          have := lt_inner_patternParts hp hj
          exact ih (s.size - j) (by omega) j rfl

theorem lawful_parameterMarks (i : Nat) : s.Lawful (s.parameterMarks i) := by
  refine .flatMap fun e _ => ?_
  split
  · exact .nil
  · exact lawful_patternMarks _

theorem lawful_declaratorMarks (i : Nat) : s.Lawful (s.declaratorMarks i) := by
  fun_induction declaratorMarks s i with
  | case1 i hlt j ih => exact .append (lawful_patternMarks i) (.ite fun _ => ih)
  | case2 => exact .nil

theorem lawful_functionMarks (i : Nat) : s.Lawful (s.functionMarks i) :=
  .append (.ite fun hn => .cons_declares (.inl hn) .nil)
    (.ite fun _ => lawful_parameterMarks _)

theorem lawful_memberMarks (stop i : Nat) : s.Lawful (s.memberMarks stop i) := by
  fun_induction memberMarks s stop i with
  | case1 i hlt ih => exact .append (.ite fun _ => .cons_silences _ .nil) ih
  | case2 => exact .nil

theorem lawful_classMarks (i : Nat) : s.Lawful (s.classMarks i) :=
  .append (.ite fun hn => .cons_declares (.inl hn) .nil) (.ite fun _ => lawful_memberMarks _ _)

theorem lawful_arrowMarks (i : Nat) : s.Lawful (s.arrowMarks i) := by
  unfold arrowMarks
  split
  · exact .nil
  · split
    case isTrue hn => exact .cons_declares (.inl hn) .nil
    case isFalse =>
      refine .ite fun _ => ?_
      split
      · exact lawful_parameterMarks _
      · exact .nil

theorem lawful_methodMarks (i : Nat) : s.Lawful (s.methodMarks i) := by
  unfold methodMarks
  split
  · exact .nil
  · exact .ite fun _ => .cons_silences _ (lawful_parameterMarks _)

theorem lawful_importedMarks (e : Span) : s.Lawful (s.importedMarks e) := by
  unfold importedMarks
  split
  case isTrue h =>
    rw [Bool.and_eq_true, beq_iff_eq] at h
    exact .cons_silences _ (.cons_declares (.inr (by simpa [textBefore] using h.2)) .nil)
  case isFalse => exact .ite fun hn => .cons_declares (.inl hn) .nil

theorem lawful_importMarksFrom (i : Nat) : s.Lawful (s.importMarksFrom i) := by
  fun_induction importMarksFrom s i with
  | case1 => exact .nil
  | case2 => exact .nil
  | case3 i t ht hk _ ih => exact .cons_declares (.inl (by simp [isName, kind?, ht, hk])) ih
  | case4 => exact .nil
  | case5 i t ht _ _ has ih =>
    rw [Bool.and_eq_true, beq_iff_eq] at has
    refine .append (.ite fun _ => .cons_declares (.inr ?_) .nil) ih
    simpa [textBefore] using has.2
  | case6 i t ht _ _ _ _ ih =>
    exact .append (.ite fun _ => .flatMap fun e _ => lawful_importedMarks e) ih
  | case7 i t ht _ _ _ _ ih => exact ih

theorem lawful_importMarks (i : Nat) : s.Lawful (s.importMarks i) := by
  unfold importMarks
  split
  · exact .nil
  · exact lawful_importMarksFrom _

theorem lawful_exportedMarks (e : Span) : s.Lawful (s.exportedMarks e) :=
  .ite fun _ => .cons_silences _ .nil

theorem lawful_exportMarks (i : Nat) : s.Lawful (s.exportMarks i) := by
  unfold exportMarks
  dsimp only
  split
  · exact .ite fun _ => .cons_silences _ .nil
  · refine .ite fun _ => .flatMap fun e _ => .append (lawful_exportedMarks e) ?_
    exact .ite fun _ => .cons_silences _ .nil

theorem lawful_marksAt (i : Nat) : s.Lawful (s.marksAt i) := by
  unfold marksAt
  split
  · exact .nil
  · split
    · split
      · exact lawful_declaratorMarks _
      split
      · exact lawful_functionMarks _
      split
      · exact lawful_classMarks _
      split
      · exact .ite fun _ => lawful_parameterMarks _
      split
      · exact lawful_importMarks _
      split
      · exact lawful_exportMarks _
      · exact .nil
    · split
      · exact lawful_arrowMarks _
      · exact .ite fun _ => lawful_methodMarks _
    · exact .nil

theorem declarable_of_mem_marks {j : Nat} (h : Mark.declares j ∈ s.marks) : s.Declarable j := by
  obtain ⟨i, -, hi⟩ := List.mem_flatMap.1 h
  exact lawful_marksAt i j hi

end Declarable

end Script

end MdxLint
