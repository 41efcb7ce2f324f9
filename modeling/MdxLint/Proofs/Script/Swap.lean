import MdxLint.Proofs.Script.Marks
import MdxLint.Proofs.Script.Parallel
import MdxLint.Proofs.Script.Reading
import MdxLint.Script.Reference

/-! # A name in place of a keyword

A keyword of a script is exchanged for a name that the script does not contain, and the two
scripts are compared. They have the same punctuators, so their brackets and groups agree. Every
construct but the one that the keyword itself announces says the same in both, apart from what it
says of the exchanged token.
-/

namespace MdxLint

/-- A keyword of a scanned text and a name that is nowhere in the text. -/
structure Swap where
  code : String
  tokens : List Token
  scanned : scan code = .ok tokens
  index : Nat
  keyword : Token
  found : tokens[index]? = some keyword
  kind_eq : keyword.kind = .keyword
  fresh : String
  isName : scan fresh = .ok [⟨.name, fresh, .origin⟩]
  not_contextual : fresh ∉ contextualKeywords
  unused : ∀ t ∈ tokens, t.text ≠ fresh

def comparedTexts : List String :=
  contextualKeywords ++ ["(", ".", "\x7b", ";", "\x7d", ",", "*", "=", "#"]

theorem not_mem_comparedTexts_of_keyword {x : String} (h : x ∈ keywords) : x ∉ comparedTexts :=
  (by decide : ∀ x ∈ keywords, x ∉ comparedTexts) x h

theorem not_mem_comparedTexts_of_scan {x : String} (h : scan x = .ok [⟨.name, x, .origin⟩])
    (hx : x ∉ contextualKeywords) : x ∉ comparedTexts := by
  intro hm
  rcases List.mem_append.1 hm with hm | hm
  · exact hx hm
  · have none_is_name : ∀ y ∈ ["(", ".", "\x7b", ";", "\x7d", ",", "*", "=", "#"],
        scan y ≠ .ok [⟨.name, y, .origin⟩] := by decide +kernel
    exact none_is_name x hm h

namespace Swap

variable (w : Swap)

def name : Token := ⟨.name, w.fresh, w.keyword.place⟩

/-- The script as it is. -/
def before : Script := .ofTokens w.tokens

/-- The script with the name in place of the keyword. -/
def after : Script := .ofTokens (w.tokens.set w.index w.name)

section Tokens

theorem keyword_ne_punctuator : w.keyword.kind ≠ .punctuator := by simp [w.kind_eq]

theorem name_ne_punctuator : w.name.kind ≠ .punctuator := by simp [name]

theorem index_lt : w.index < w.tokens.length := by
  by_contra h
  have := w.found
  rw [List.getElem?_eq_none (Nat.le_of_not_lt h)] at this
  cases this

theorem text_mem_keywords : w.keyword.text ∈ keywords :=
  mem_keywords_of_scan w.scanned (List.mem_of_getElem? w.found) w.kind_eq

@[simp] theorem tokens_before (j : Nat) : w.before.tokens[j]? = w.tokens[j]? := by
  simp [before, Script.ofTokens]

theorem tokens_after_self : w.after.tokens[w.index]? = some w.name := by
  simp [after, Script.ofTokens, w.index_lt]

theorem tokens_after {j : Nat} (h : j ≠ w.index) : w.after.tokens[j]? = w.before.tokens[j]? := by
  simp [after, Script.ofTokens, List.getElem?_set_ne (Ne.symm h)]

theorem exists_token_after {j : Nat} {t : Token} (h : w.before.tokens[j]? = some t) :
    ∃ t', w.after.tokens[j]? = some t' := by
  by_cases hj : j = w.index
  · exact ⟨_, hj ▸ w.tokens_after_self⟩
  · exact ⟨t, by rw [w.tokens_after hj, h]⟩

@[simp] theorem size_after : w.after.size = w.before.size := by
  simp [after, before, Script.ofTokens, Script.size]

theorem index_lt_size : w.index < w.before.size := by
  simpa [before, Script.ofTokens, Script.size] using w.index_lt

theorem partners_after : w.after.partners = w.before.partners := by
  have flags : (w.tokens.set w.index w.name).map (fun t => (t.opens, t.closes)) =
      w.tokens.map fun t => (t.opens, t.closes) := by
    refine List.ext_getElem? fun j => ?_
    rw [List.getElem?_map, List.getElem?_map]
    by_cases h : w.index = j
    · subst h
      rw [List.getElem?_set_self w.index_lt, w.found]
      simp [Token.opens_of_kind_ne, Token.closes_of_kind_ne, w.keyword_ne_punctuator,
        w.name_ne_punctuator]
    · rw [List.getElem?_set_ne h]
  simp [after, before, Script.ofTokens, bracketPairs_congr flags]

@[simp] theorem isPunct_after (j : Nat) (p : String) :
    w.after.isPunct j p = w.before.isPunct j p := by
  unfold Script.isPunct
  by_cases h : j = w.index
  · subst h
    rw [w.tokens_after_self, w.tokens_before, w.found]
    simp [Token.isPunct_of_kind_ne, w.keyword_ne_punctuator, w.name_ne_punctuator]
  · rw [w.tokens_after h]

theorem parallel : w.before.Parallel w.after := ⟨w.size_after, w.isPunct_after, w.partners_after⟩

@[simp] theorem partner?_after (j : Nat) : w.after.partner? j = w.before.partner? j :=
  w.parallel.partner? j

@[simp] theorem paired_after (j : Nat) : w.after.paired j = w.before.paired j :=
  w.parallel.paired j

@[simp] theorem extent_after (j : Nat) : w.after.extent j = w.before.extent j :=
  w.parallel.extent j

@[simp] theorem lastOf_after (j : Nat) : w.after.lastOf j = w.before.lastOf j :=
  w.parallel.lastOf j

@[simp] theorem entriesOf_after (j : Nat) : w.after.entriesOf j = w.before.entriesOf j :=
  w.parallel.entriesOf j

@[simp] theorem patternEnd_after (j : Nat) : w.after.patternEnd j = w.before.patternEnd j :=
  w.parallel.patternEnd j

@[simp] theorem bodyStart_after (j : Nat) : w.after.bodyStart j = w.before.bodyStart j :=
  w.parallel.bodyStart j

theorem isName_after {j : Nat} (h : j ≠ w.index) : w.after.isName j = w.before.isName j := by
  rw [Script.isName, Script.isName, Script.kind?, Script.kind?, w.tokens_after h]

@[simp] theorem isName_after_self : w.after.isName w.index = true := by
  simp [Script.isName, Script.kind?, w.tokens_after_self, name]

@[simp] theorem isName_before_self : w.before.isName w.index = false := by
  simp [Script.isName, Script.kind?, w.found, w.kind_eq]

@[simp] theorem isPunct_before_self (p : String) : w.before.isPunct w.index p = false := by
  simp [Script.isPunct, Token.isPunct, w.found, w.kind_eq]

theorem text_after {j : Nat} (h : j ≠ w.index) : w.after.text j = w.before.text j := by
  rw [Script.text, Script.text, w.tokens_after h]

@[simp] theorem text_after_self : w.after.text w.index = w.fresh := by
  simp [Script.text, w.tokens_after_self, name]

@[simp] theorem text_before_self : w.before.text w.index = w.keyword.text := by
  simp [Script.text, w.found]

theorem text_after_eq_iff {x : String} (hx : x ∈ comparedTexts) (j : Nat) :
    w.after.text j = x ↔ w.before.text j = x := by
  by_cases h : j = w.index
  · subst h
    rw [text_after_self, text_before_self]
    constructor
    · rintro rfl
      exact (not_mem_comparedTexts_of_scan w.isName w.not_contextual hx).elim
    · rintro rfl
      exact (not_mem_comparedTexts_of_keyword w.text_mem_keywords hx).elim
  · rw [w.text_after h]

theorem text_after_mem_iff {l : List String} (hl : l ⊆ comparedTexts) (j : Nat) :
    w.after.text j ∈ l ↔ w.before.text j ∈ l := by
  constructor
  · intro h
    exact (w.text_after_eq_iff (hl h) j).1 rfl ▸ h
  · intro h
    exact (w.text_after_eq_iff (hl h) j).2 rfl ▸ h

theorem textBefore_after_mem_iff {l : List String} (hl : l ⊆ comparedTexts) (j k : Nat) :
    w.after.textBefore j k ∈ l ↔ w.before.textBefore j k ∈ l := by
  unfold Script.textBefore
  split
  · exact w.text_after_mem_iff hl _
  · rfl

theorem before?_after {j : Nat} (h : j ≠ w.index + 1) : w.after.before? j = w.before.before? j := by
  cases j with
  | zero => rfl
  | succ j => exact w.tokens_after (by omega)

@[simp] theorem any_before?_after (j : Nat) (p : String) :
    (w.after.before? j).any (·.isPunct p) = (w.before.before? j).any (·.isPunct p) := by
  cases j with
  | zero => rfl
  | succ j => exact w.isPunct_after j p

end Tokens

section Patterns

def kept (ms : List Mark) : List Mark := ms.filter fun m => m.index ≠ w.index

@[simp] theorem kept_nil : w.kept [] = [] := rfl

@[simp] theorem kept_append (ms ms' : List Mark) : w.kept (ms ++ ms') = w.kept ms ++ w.kept ms' :=
  List.filter_append ..

theorem kept_cons (m : Mark) {ms ms' : List Mark} (h : w.kept ms = w.kept ms') :
    w.kept (m :: ms) = w.kept (m :: ms') := by
  rw [← List.singleton_append, ← List.singleton_append (l := ms'), kept_append, kept_append, h]

@[simp] theorem kept_declares_cons (ms : List Mark) :
    w.kept (.declares w.index :: ms) = w.kept ms := by simp [kept, Mark.index]

@[simp] theorem kept_declares : w.kept [.declares w.index] = [] := by simp [kept, Mark.index]

@[simp] theorem kept_silences : w.kept [.silences w.index] = [] := by simp [kept, Mark.index]

theorem kept_flatMap {α : Type} (l : List α) (f : α → List Mark) :
    w.kept (l.flatMap f) = l.flatMap fun a => w.kept (f a) := by
  induction l with
  | nil => rfl
  | cons a l ih => rw [List.flatMap_cons, List.flatMap_cons, kept_append, ih]

theorem kept_flatMap_congr {α : Type} {l : List α} {f g : α → List Mark}
    (h : ∀ a ∈ l, w.kept (f a) = w.kept (g a)) : w.kept (l.flatMap f) = w.kept (l.flatMap g) := by
  rw [kept_flatMap, kept_flatMap, List.flatMap_def, List.flatMap_def, List.map_congr_left h]

theorem kept_if {c : Prop} [Decidable c] {ms ms' : List Mark} (h : w.kept ms = w.kept ms') :
    w.kept (if c then ms else []) = w.kept (if c then ms' else []) := by
  split
  · exact h
  · rfl

theorem listPart_after (e : Span) : w.after.listPart e = w.before.listPart e :=
  w.parallel.listPart e

theorem inner_objectPart_after (e : Span) :
    (w.after.objectPart e).inner = (w.before.objectPart e).inner := by
  unfold Script.objectPart
  simp only [isPunct_after, lastOf_after]
  repeat' split
  all_goals rfl

theorem kept_objectPart_after (e : Span) :
    w.kept (w.after.objectPart e).marks = w.kept (w.before.objectPart e).marks := by
  unfold Script.objectPart
  simp only [isPunct_after, lastOf_after]
  split
  · rfl
  split
  · rfl
  split
  · rfl
  by_cases h : e.start = w.index
  · simp [h]
  · rw [w.isName_after h]

/-- The parts of a pattern are the same apart from marks about the exchanged token. -/
theorem kept_flatMap_parts {l : List Span} {f g : Span → PatternPart}
    (hm : ∀ e, w.kept (f e).marks = w.kept (g e).marks) (hi : ∀ e, (f e).inner = (g e).inner)
    (ih : ∀ e ∈ l, ∀ j, (g e).inner = some j →
      w.kept (w.after.patternMarks j) = w.kept (w.before.patternMarks j)) :
    w.kept ((l.map f).flatMap w.after.partMarks) =
      w.kept ((l.map g).flatMap w.before.partMarks) := by
  rw [List.flatMap_map, List.flatMap_map]
  refine w.kept_flatMap_congr fun e he => ?_
  unfold Script.partMarks
  rw [kept_append, kept_append, hm, hi]
  congr 1
  cases hj : (g e).inner with
  | none => rfl
  | some j => exact ih e he j hj

theorem kept_patternMarks (j : Nat) :
    w.kept (w.after.patternMarks j) = w.kept (w.before.patternMarks j) := by
  generalize hn : w.before.size - j = n
  induction n using Nat.strongRecOn generalizing j with
  | ind n ih =>
    rw [Script.patternMarks_eq, Script.patternMarks_eq, size_after]
    by_cases hlt : j < w.before.size
    · rw [if_pos hlt, if_pos hlt]
      by_cases hj : j = w.index
      · subst hj
        simp [Script.patternParts]
      · have inner {k : Nat} (hk : j < k) := ih (w.before.size - k) (by omega) k rfl
        rw [w.isName_after hj]
        split
        · rfl
        unfold Script.patternParts
        simp only [paired_after, isPunct_after, entriesOf_after]
        split
        · split
          · refine w.kept_flatMap_parts w.kept_objectPart_after w.inner_objectPart_after ?_
            intro e he k hk
            exact inner (Nat.lt_of_lt_of_le (Script.lt_start_of_mem_entriesOf he)
              (Script.le_inner_objectPart hk))
          · split
            · refine w.kept_flatMap_parts (fun e => by rw [listPart_after])
                (fun e => by rw [listPart_after]) ?_
              intro e he k hk
              exact inner (Nat.lt_of_lt_of_le (Script.lt_start_of_mem_entriesOf he)
                (Script.le_inner_listPart hk))
            · rfl
        · rfl
    · rw [if_neg hlt, if_neg hlt]

theorem kept_parameterMarks (j : Nat) :
    w.kept (w.after.parameterMarks j) = w.kept (w.before.parameterMarks j) := by
  rw [Script.parameterMarks_eq, Script.parameterMarks_eq, entriesOf_after]
  exact w.kept_flatMap_parts (fun e => by rw [listPart_after]) (fun e => by rw [listPart_after])
    fun _ _ k _ => w.kept_patternMarks k

end Patterns

def nameLeads : List String := [".", "?.", "\x7b", ","]

structure Harmless : Prop where
  lead : ∃ j, w.index = j + 1 ∧ ∃ p ∈ nameLeads, w.before.isPunct j p = true
  values : ∀ j, w.before.isPunct j "=" = true →
    w.after.valueEnd (j + 1) = w.before.valueEnd (j + 1)
  methods : ∀ j o, w.before.isPunct j ")" = true → w.before.partner? j = some o →
    w.after.opensMethod o = w.before.opensMethod o
  no_use : ∀ d, w.after.isUse d w.index = false

section Constructs

variable {w}

theorem Harmless.succ_ne (h : w.Harmless) {j : Nat}
    (hj : w.before.kind? j = some .keyword ∨ w.before.isPunct j "*" = true) : j + 1 ≠ w.index := by
  obtain ⟨k, hk, p, hp, hpk⟩ := h.lead
  rintro he
  obtain rfl : j = k := by omega
  obtain ⟨hkind, htext⟩ := Script.isPunct_iff.1 hpk
  rcases hj with hj | hj
  · rw [hj] at hkind
    cases hkind
  · rw [← htext, (Script.isPunct_iff.1 hj).2] at hp
    exact absurd hp (by decide)

theorem Harmless.declaratorEnd_eq (h : w.Harmless) (j : Nat) :
    w.after.declaratorEnd j = w.before.declaratorEnd j := by
  simp only [Script.declaratorEnd, patternEnd_after, isPunct_after]
  split
  case isTrue hp => exact h.values _ hp
  case isFalse => rfl

theorem Harmless.kept_declaratorMarks (h : w.Harmless) (j : Nat) :
    w.kept (w.after.declaratorMarks j) = w.kept (w.before.declaratorMarks j) := by
  fun_induction Script.declaratorMarks w.before j with
  | case1 j hlt k ih =>
    rw [Script.declaratorMarks, size_after, if_pos hlt]
    dsimp only
    rw [h.declaratorEnd_eq, isPunct_after, kept_append, kept_append, w.kept_patternMarks]
    exact congrArg _ (w.kept_if ih)
  | case2 j hlt => rw [Script.declaratorMarks, size_after, if_neg hlt]

theorem Harmless.kept_functionMarks (h : w.Harmless) {j : Nat}
    (hj : w.before.kind? j = some .keyword) :
    w.kept (w.after.functionMarks j) = w.kept (w.before.functionMarks j) := by
  have name_ne : (if w.before.isPunct (j + 1) "*" then j + 2 else j + 1) ≠ w.index := by
    split
    case isTrue hs => exact h.succ_ne (.inr hs)
    case isFalse => exact h.succ_ne (.inl hj)
  unfold Script.functionMarks
  simp only [isPunct_after]
  rw [w.isName_after name_ne, kept_append, kept_append]
  exact congrArg _ (w.kept_if (w.kept_parameterMarks _))

theorem isMemberName_after {j : Nat} (hj : j ≠ w.index) :
    w.after.isMemberName j = w.before.isMemberName j := by
  have leads : memberLeads ⊆ comparedTexts := by decide
  have trails : memberTrails ⊆ comparedTexts := by decide
  simp only [Script.isMemberName, w.isName_after hj, w.textBefore_after_mem_iff leads,
    w.text_after_mem_iff trails, any_before?_after]

theorem kept_memberMarks (stop j : Nat) :
    w.kept (w.after.memberMarks stop j) = w.kept (w.before.memberMarks stop j) := by
  fun_induction Script.memberMarks w.before stop j with
  | case1 j hlt ih =>
    rw [Script.memberMarks, if_pos hlt, extent_after, kept_append, kept_append, ih]
    congr 1
    by_cases hj : j = w.index
    · subst hj
      split <;> split <;> simp
    · rw [isMemberName_after hj]
  | case2 j hlt => rw [Script.memberMarks, if_neg hlt]

theorem Harmless.kept_classMarks (h : w.Harmless) {j : Nat}
    (hj : w.before.kind? j = some .keyword) :
    w.kept (w.after.classMarks j) = w.kept (w.before.classMarks j) := by
  unfold Script.classMarks
  simp only [bodyStart_after, paired_after, lastOf_after]
  rw [w.isName_after (h.succ_ne (.inl hj)), kept_append, kept_append]
  exact congrArg _ (w.kept_if (kept_memberMarks _ _))

theorem kept_arrowMarks (j : Nat) :
    w.kept (w.after.arrowMarks j) = w.kept (w.before.arrowMarks j) := by
  cases j with
  | zero => rfl
  | succ j =>
    simp only [Script.arrowMarks, isPunct_after, partner?_after]
    by_cases hj : j = w.index
    · subst hj
      simp
    · rw [w.isName_after hj]
      split
      · rfl
      split
      · split
        · exact w.kept_parameterMarks _
        · rfl
      · rfl

theorem Harmless.kept_methodMarks (h : w.Harmless) {j : Nat} (hj : w.before.isPunct j ")" = true) :
    w.kept (w.after.methodMarks j) = w.kept (w.before.methodMarks j) := by
  unfold Script.methodMarks
  rw [partner?_after]
  cases ho : w.before.partner? j with
  | none => rfl
  | some o =>
    dsimp only
    rw [h.methods j o hj ho]
    split
    · exact w.kept_cons _ (w.kept_parameterMarks o)
    · rfl

theorem kept_importedMarks (e : Span) :
    w.kept (w.after.importedMarks e) = w.kept (w.before.importedMarks e) := by
  have has := w.text_after_eq_iff (x := "as") (by decide) (e.start + 1)
  unfold Script.importedMarks
  simp only [beq_iff_eq, Bool.and_eq_true, decide_eq_true_eq, has]
  split
  · rfl
  by_cases he : e.start = w.index
  · simp [he]
  · rw [w.isName_after he]

theorem kept_importMarksFrom (j : Nat) :
    w.kept (w.after.importMarksFrom j) = w.kept (w.before.importMarksFrom j) := by
  generalize hn : w.before.size - j = n
  induction n using Nat.strongRecOn generalizing j with
  | ind n ih =>
    have behind {k : Nat} (hj : j < w.before.size) (hk : j < k) :=
      ih (w.before.size - k) (by omega) k rfl
    rw [w.after.importMarksFrom_eq j, w.before.importMarksFrom_eq j]
    by_cases hj : j = w.index
    · subst hj
      have from_ne : w.fresh ≠ "from" := fun h => w.not_contextual (h ▸ by decide)
      rw [w.tokens_after_self, w.tokens_before, w.found]
      simp [name, w.kind_eq, from_ne, Token.isPunct_of_kind_ne w.keyword_ne_punctuator,
        behind w.index_lt_size (Nat.lt_succ_self _)]
    · rw [w.tokens_after hj]
      cases ht : w.before.tokens[j]? with
      | none => rfl
      | some t =>
        have hlt : j < w.before.size := (Array.getElem?_eq_some_iff.1 ht).1
        have has : (w.after.text (j + 1) == "as") = (w.before.text (j + 1) == "as") := by
          rw [Bool.eq_iff_iff, beq_iff_eq, beq_iff_eq, w.text_after_eq_iff (by decide)]
        simp only [has, size_after, paired_after, entriesOf_after, extent_after]
        split
        · split
          · rfl
          · exact w.kept_cons _ (behind hlt (by omega))
        split
        · rfl
        split
        · rw [kept_append, kept_append, behind hlt (by omega)]
        split
        · have := w.before.extent_pos j
          rw [kept_append, kept_append, behind hlt (by omega)]
          exact congrArg (· ++ _) (w.kept_if (w.kept_flatMap_congr fun e _ => kept_importedMarks e))
        · exact behind hlt (by omega)

theorem kept_importMarks (j : Nat) :
    w.kept (w.after.importMarks j) = w.kept (w.before.importMarks j) := by
  simp only [Script.importMarks, isPunct_after]
  split
  · rfl
  · exact kept_importMarksFrom _

theorem exportMarks_after (j : Nat) : w.after.exportMarks j = w.before.exportMarks j := by
  have has (k : Nat) : (w.after.text k == "as") = (w.before.text k == "as") := by
    rw [Bool.eq_iff_iff, beq_iff_eq, beq_iff_eq, w.text_after_eq_iff (by decide)]
  have hfrom (k : Nat) : (w.after.text k == "from") = (w.before.text k == "from") := by
    rw [Bool.eq_iff_iff, beq_iff_eq, beq_iff_eq, w.text_after_eq_iff (by decide)]
  simp only [Script.exportMarks, Script.exportedMarks, isPunct_after, paired_after, lastOf_after,
    entriesOf_after, has, hfrom]

theorem Harmless.kept_marksAt (h : w.Harmless) {j : Nat} (hj : j ≠ w.index) :
    w.kept (w.after.marksAt j) = w.kept (w.before.marksAt j) := by
  unfold Script.marksAt
  rw [w.tokens_after hj]
  cases ht : w.before.tokens[j]? with
  | none => rfl
  | some t =>
    dsimp only
    cases hk : t.kind with
    | keyword =>
      have hkey : w.before.kind? j = some .keyword := by simp [Script.kind?, ht, hk]
      dsimp only
      split
      · exact h.kept_declaratorMarks _
      split
      · exact h.kept_functionMarks hkey
      split
      · exact h.kept_classMarks hkey
      split
      · rw [isPunct_after]
        exact w.kept_if (w.kept_parameterMarks _)
      split
      · exact kept_importMarks _
      split
      · rw [exportMarks_after]
      · rfl
    | punctuator =>
      dsimp only
      split
      · exact kept_arrowMarks _
      · rw [isPunct_after]
        split
        case isTrue hp =>
          rw [Bool.and_eq_true, decide_eq_true_eq] at hp
          exact h.kept_methodMarks (by simp [Script.isPunct, Token.isPunct, ht, hk, hp.1])
        case isFalse => rfl
    | name => rfl
    | number => rfl
    | string => rfl
    | template => rfl
    | regex => rfl

theorem marksAt_after_self : w.after.marksAt w.index = [] := by
  simp [Script.marksAt, w.tokens_after_self, name]

/-- The script says what it says with the name, and what the keyword announces. -/
theorem Harmless.mem_marks_iff (h : w.Harmless) {m : Mark} (hm : m.index ≠ w.index) :
    m ∈ w.before.marks ↔ m ∈ w.after.marks ∨ m ∈ w.before.marksAt w.index := by
  have mem_kept {ms : List Mark} : m ∈ w.kept ms ↔ m ∈ ms := by simp [kept, hm]
  simp only [Script.marks, List.mem_flatMap, List.mem_range, size_after]
  constructor
  · rintro ⟨j, hlt, hj⟩
    by_cases he : j = w.index
    · exact .inr (he ▸ hj)
    · exact .inl ⟨j, hlt, by rwa [← mem_kept, h.kept_marksAt he, mem_kept]⟩
  · rintro (⟨j, hlt, hj⟩ | hj)
    · by_cases he : j = w.index
      · rw [he, marksAt_after_self] at hj
        cases hj
      · exact ⟨j, hlt, by rwa [← mem_kept, ← h.kept_marksAt he, mem_kept]⟩
    · exact ⟨w.index, w.index_lt_size, hj⟩

end Constructs

end Swap

end MdxLint
