import MdxLint.Proofs.Script.Brackets
import MdxLint.Proofs.Script.Marks
import MdxLint.Proofs.Script.Parallel
import MdxLint.Script.Reference

/-! # Scripts that look alike

The analysis looks at the kinds of tokens, at the texts of keywords and punctuators, and at whether
a text is one of a few words and signs. Scripts that agree on all this, with the same tokens at the
beginning of lines, say the same about their names, whatever these are.
-/

namespace MdxLint

def toldTexts : List String :=
  keywords ++ contextualKeywords ++ ["(", ".", "\x7b", ";", "\x7d", ",", "*", "="]

/-- The tokens look alike: names and literals may differ as long as none of the told texts is
involved. -/
structure Token.Resembles (t t' : Token) : Prop where
  kind : t'.kind = t.kind
  text : t.kind = .keyword ∨ t.kind = .punctuator → t'.text = t.text
  told : ∀ x ∈ toldTexts, t'.text = x ↔ t.text = x

namespace Token.Resembles

variable {t t' : Token} (h : t.Resembles t')

include h

theorem isPunct (p : String) : t'.isPunct p = t.isPunct p := by
  by_cases hk : t.kind = .punctuator
  · rw [Token.isPunct, Token.isPunct, h.kind, h.text (by simp [hk])]
  · rw [Token.isPunct_of_kind_ne hk, Token.isPunct_of_kind_ne (by rwa [h.kind])]

theorem closes : t'.closes = t.closes := by
  by_cases hk : t.kind = .punctuator
  · rw [Token.closes, Token.closes, h.kind, h.text (by simp [hk])]
  · rw [Token.closes_of_kind_ne hk, Token.closes_of_kind_ne (by rwa [h.kind])]

theorem opens : t'.opens = t.opens := by
  by_cases hk : t.kind = .punctuator
  · rw [Token.opens, Token.opens, h.kind, h.text (by simp [hk])]
  · rw [Token.opens_of_kind_ne hk, Token.opens_of_kind_ne (by rwa [h.kind])]

theorem text_mem_iff {l : List String} (hl : l ⊆ toldTexts) : t'.text ∈ l ↔ t.text ∈ l := by
  constructor
  · intro hm
    rwa [← (h.told _ (hl hm)).1 rfl] at hm
  · intro hm
    rwa [(h.told _ (hl hm)).2 rfl]

end Token.Resembles

/-- Lists that are related entry by entry have related entries, or none, at every index. -/
theorem getElem?_of_forall₂ {α β : Type} {R : α → β → Prop} {as : List α} {bs : List β}
    (h : List.Forall₂ R as bs) (i : Nat) : (as[i]? = none ∧ bs[i]? = none) ∨
      ∃ a b, as[i]? = some a ∧ bs[i]? = some b ∧ R a b := by
  induction h generalizing i with
  | nil => exact .inl ⟨rfl, rfl⟩
  | @cons a b _ _ hab _ ih =>
    cases i with
    | zero => exact .inr ⟨a, b, rfl, rfl, hab⟩
    | succ i => exact ih i

namespace Script

/-- The tokens of the scripts look alike, with the same partners, and the same of them begin below
the token before. -/
structure Resembles (s s' : Script) : Prop where
  tokens : ∀ i : Nat, (s.tokens[i]? = none ∧ s'.tokens[i]? = none) ∨
    ∃ t t', s.tokens[i]? = some t ∧ s'.tokens[i]? = some t' ∧ t.Resembles t'
  partners : s'.partners = s.partners
  lines : ∀ i t u t' u', s.tokens[i]? = some t → s.tokens[i + 1]? = some u →
    s'.tokens[i]? = some t' → s'.tokens[i + 1]? = some u' →
    (t'.place.line < u'.place.line ↔ t.place.line < u.place.line)

/-- Tokens that are exchanged one for one for tokens that look alike, in the same lines. -/
theorem resembles_ofTokens {ts ts' : List Token}
    (h : List.Forall₂ (fun t t' => t.Resembles t' ∧ t'.place.line = t.place.line) ts ts') :
    (ofTokens ts).Resembles (ofTokens ts') := by
  constructor
  case tokens =>
    intro i
    rw [tokens_ofTokens, tokens_ofTokens]
    refine (getElem?_of_forall₂ h i).imp_right ?_
    exact fun ⟨t, t', ht, ht', hlike, _⟩ => ⟨t, t', ht, ht', hlike⟩
  case partners =>
    have hbrackets : ts'.map (fun t => (t.opens, t.closes)) =
        ts.map fun t => (t.opens, t.closes) := by
      induction h with
      | nil => rfl
      | cons ht _ ih => rw [List.map_cons, List.map_cons, ht.1.opens, ht.1.closes, ih]
    simp only [ofTokens, h.length_eq, bracketPairs_congr hbrackets]
  case lines =>
    intro i t u t' u' ht hu ht' hu'
    rw [tokens_ofTokens] at ht hu ht' hu'
    obtain ⟨hnone, -⟩ | ⟨_, _, hi, hi', -, hline⟩ := getElem?_of_forall₂ h i
    · rw [ht] at hnone
      cases hnone
    obtain ⟨hnone, -⟩ | ⟨_, _, hj, hj', -, hnext⟩ := getElem?_of_forall₂ h (i + 1)
    · rw [hu] at hnone
      cases hnone
    cases ht.symm.trans hi
    cases ht'.symm.trans hi'
    cases hu.symm.trans hj
    cases hu'.symm.trans hj'
    rw [hline, hnext]

namespace Resembles

variable {s s' : Script} (h : s.Resembles s')

include h

theorem text_eq_iff {x : String} (hx : x ∈ toldTexts) (i : Nat) :
    s'.text i = x ↔ s.text i = x := by
  unfold Script.text
  obtain ⟨ht, ht'⟩ | ⟨t, t', ht, ht', hlike⟩ := h.tokens i
  · rw [ht, ht']
  · rw [ht, ht']
    exact hlike.told x hx

theorem text_beq {x : String} (hx : x ∈ toldTexts) (i : Nat) :
    (s'.text i == x) = (s.text i == x) := by
  rw [Bool.eq_iff_iff, beq_iff_eq, beq_iff_eq, h.text_eq_iff hx]

theorem text_mem_iff {l : List String} (hl : l ⊆ toldTexts) (i : Nat) :
    s'.text i ∈ l ↔ s.text i ∈ l := by
  constructor
  · intro hm
    rwa [← (h.text_eq_iff (hl hm) i).1 rfl] at hm
  · intro hm
    rwa [(h.text_eq_iff (hl hm) i).2 rfl]

theorem textBefore_beq {x : String} (hx : x ∈ toldTexts) (i k : Nat) :
    (s'.textBefore i k == x) = (s.textBefore i k == x) := by
  unfold Script.textBefore
  split
  · exact h.text_beq hx _
  · rfl

theorem textBefore_mem_iff {l : List String} (hl : l ⊆ toldTexts) (i k : Nat) :
    s'.textBefore i k ∈ l ↔ s.textBefore i k ∈ l := by
  unfold Script.textBefore
  split
  · exact h.text_mem_iff hl _
  · rfl

theorem isName (i : Nat) : s'.isName i = s.isName i := by
  unfold Script.isName Script.kind?
  obtain ⟨ht, ht'⟩ | ⟨t, t', ht, ht', hlike⟩ := h.tokens i
  · rw [ht, ht']
  · rw [ht, ht', Option.map_some, Option.map_some, hlike.kind]

/-- A test that comes out alike for tokens that look alike comes out alike at every index. -/
theorem any_token {f : Token → Bool} (hf : ∀ t t', t.Resembles t' → f t' = f t) (i : Nat) :
    s'.tokens[i]?.any f = s.tokens[i]?.any f := by
  obtain ⟨ht, ht'⟩ | ⟨t, t', ht, ht', hlike⟩ := h.tokens i
  · rw [ht, ht']
  · rw [ht, ht', Option.any_some, Option.any_some, hf t t' hlike]

theorem before?_cases (i : Nat) : (s.before? i = none ∧ s'.before? i = none) ∨
    ∃ t t', s.before? i = some t ∧ s'.before? i = some t' ∧ t.Resembles t' := by
  cases i with
  | zero => exact .inl ⟨rfl, rfl⟩
  | succ i => exact h.tokens i

theorem any_before? {f : Token → Bool} (hf : ∀ t t', t.Resembles t' → f t' = f t) (i : Nat) :
    (s'.before? i).any f = (s.before? i).any f := by
  cases i with
  | zero => rfl
  | succ i => exact h.any_token hf i

theorem parallel : s.Parallel s' where
  size := by
    have hlt (i : Nat) : i < s'.size ↔ i < s.size := by
      have hnone : s'.tokens[i]? = none ↔ s.tokens[i]? = none := by
        obtain ⟨ht, ht'⟩ | ⟨t, t', ht, ht', -⟩ := h.tokens i
        · rw [ht, ht']
        · simp [ht, ht']
      rw [Array.getElem?_eq_none_iff, Array.getElem?_eq_none_iff, ← not_iff_not, Nat.not_le,
        Nat.not_le] at hnone
      exact hnone
    exact Nat.le_antisymm (Nat.le_of_not_lt fun hgt => Nat.lt_irrefl _ ((hlt _).1 hgt))
      (Nat.le_of_not_lt fun hgt => Nat.lt_irrefl _ ((hlt _).2 hgt))
  isPunct i p := h.any_token (fun _ _ hlike => hlike.isPunct p) i
  partners := h.partners

/-! ## Patterns and values -/

theorem objectPart (e : Span) : s'.objectPart e = s.objectPart e := by
  simp only [Script.objectPart, h.parallel.isPunct, h.parallel.lastOf, h.isName]

theorem patternParts (i : Nat) : s'.patternParts i = s.patternParts i := by
  have hobject : s'.objectPart = s.objectPart := funext h.objectPart
  have hlist : s'.listPart = s.listPart := funext h.parallel.listPart
  simp only [Script.patternParts, h.parallel.paired, h.parallel.isPunct, h.parallel.entriesOf,
    hobject, hlist]

theorem patternMarks (i : Nat) : s'.patternMarks i = s.patternMarks i := by
  generalize hn : s.size - i = n
  induction n using Nat.strongRecOn generalizing i with
  | ind n ih =>
    rw [patternMarks_eq, patternMarks_eq, h.parallel.size, h.isName, h.patternParts]
    by_cases hi : i < s.size
    · rw [if_pos hi, if_pos hi]
      congr 1
      rw [List.flatMap_def, List.flatMap_def]
      congr 1
      refine List.map_congr_left fun p hp => ?_
      unfold partMarks
      split
      case h_1 => rfl
      case h_2 j hj =>
        have hlt := lt_inner_patternParts hp hj
        rw [ih (s.size - j) (by omega) j rfl]
    · rw [if_neg hi, if_neg hi]

theorem parameterMarks (i : Nat) : s'.parameterMarks i = s.parameterMarks i := by
  simp only [Script.parameterMarks, h.parallel.entriesOf, h.parallel.listPart, h.patternMarks]

theorem startsStatement {i : Nat} {t t' : Token} (ht : s.tokens[i]? = some t)
    (ht' : s'.tokens[i]? = some t') : s'.startsStatement i t' = s.startsStatement i t := by
  unfold Script.startsStatement
  obtain ⟨hu, hu'⟩ | ⟨u, u', hu, hu', hlike⟩ := h.before?_cases i
  · rw [hu, hu']
  · cases i with
    | zero => cases hu
    | succ i =>
      have hline := h.lines i u t u' t' hu ht hu' ht'
      rw [← not_iff_not, Nat.not_lt, Nat.not_lt] at hline
      simp only [hu, hu', hlike.kind, hline]
      congr 1
      cases hk : u.kind <;> simp only [hlike.text, hk, reduceCtorEq, or_true, true_or]

theorem endsValue {i : Nat} {t t' : Token} (ht : s.tokens[i]? = some t)
    (ht' : s'.tokens[i]? = some t') (hlike : t.Resembles t') :
    s'.endsValue i t' = s.endsValue i t := by
  have hround := h.text_beq (x := "(") (by decide) (i + 1)
  have hpoint := h.text_beq (x := ".") (by decide) (i + 1)
  unfold Script.endsValue
  rw [hlike.kind]
  cases hk : t.kind <;>
    simp only [hlike.text, hk, hlike.closes, hround, hpoint, h.startsStatement ht ht', reduceCtorEq,
      or_true, true_or]

theorem valueEnd (i : Nat) : s'.valueEnd i = s.valueEnd i := by
  generalize hn : s.size - i = n
  induction n using Nat.strongRecOn generalizing i with
  | ind n ih =>
    rw [valueEnd_eq, valueEnd_eq s]
    obtain ⟨ht, ht'⟩ | ⟨t, t', ht, ht', hlike⟩ := h.tokens i
    · rw [ht, ht']
    · have hi : i < s.size := (Array.getElem?_eq_some_iff.1 ht).1
      have hextent := s.extent_pos i
      simp only [ht, ht', h.endsValue ht ht' hlike, h.parallel.extent]
      rw [ih (s.size - (i + s.extent i)) (by omega) (i + s.extent i) rfl]

/-! ## Constructs -/

theorem declaratorEnd (i : Nat) : s'.declaratorEnd i = s.declaratorEnd i := by
  simp only [Script.declaratorEnd, h.parallel.patternEnd, h.parallel.isPunct, h.valueEnd]

theorem declaratorMarks (i : Nat) : s'.declaratorMarks i = s.declaratorMarks i := by
  fun_induction Script.declaratorMarks s i with
  | case1 i hi j ih =>
    rw [Script.declaratorMarks, h.parallel.size, if_pos hi]
    simp only [h.patternMarks, h.declaratorEnd, h.parallel.isPunct]
    exact congrArg (s.patternMarks i ++ if s.isPunct j "," then · else []) ih
  | case2 i hi => rw [Script.declaratorMarks, h.parallel.size, if_neg hi]

theorem functionMarks (i : Nat) : s'.functionMarks i = s.functionMarks i := by
  simp only [Script.functionMarks, h.parallel.isPunct, h.isName, h.parameterMarks]

theorem isMemberName (i : Nat) : s'.isMemberName i = s.isMemberName i := by
  have hlead := h.textBefore_mem_iff (l := memberLeads) (by decide) i 1
  have htrail := h.text_mem_iff (l := memberTrails) (by decide) (i + 1)
  have hhash := h.any_before? (fun _ _ hlike => hlike.isPunct "#") i
  simp only [Script.isMemberName, h.isName, hlead, htrail, hhash]

theorem memberMarks (stop i : Nat) : s'.memberMarks stop i = s.memberMarks stop i := by
  fun_induction Script.memberMarks s stop i with
  | case1 i hi ih => rw [Script.memberMarks, if_pos hi, h.isMemberName, h.parallel.extent, ih]
  | case2 i hi => rw [Script.memberMarks, if_neg hi]

theorem classMarks (i : Nat) : s'.classMarks i = s.classMarks i := by
  simp only [Script.classMarks, h.parallel.bodyStart, h.isName, h.parallel.paired,
    h.parallel.lastOf, h.memberMarks]

theorem arrowMarks (i : Nat) : s'.arrowMarks i = s.arrowMarks i := by
  cases i with
  | zero => rfl
  | succ i =>
    simp only [Script.arrowMarks, h.isName, h.parallel.isPunct, h.parallel.partner?,
      h.parameterMarks]

theorem opensMethod (i : Nat) : s'.opensMethod i = s.opensMethod i := by
  unfold Script.opensMethod
  obtain ⟨ht, ht'⟩ | ⟨t, t', ht, ht', hlike⟩ := h.before?_cases i
  · rw [ht, ht']
  · have hheads := hlike.text_mem_iff (l := blockHeads) (by decide)
    have hleads := h.textBefore_mem_iff (l := memberLeads) (by decide) i 2
    have hstar := h.textBefore_beq (x := "*") (by decide) i 2
    have hword := h.textBefore_beq (x := "function") (by decide) i
    simp only [ht, ht', hlike.kind, hheads, hleads, hstar, hword, bne]

theorem methodMarks (i : Nat) : s'.methodMarks i = s.methodMarks i := by
  simp only [Script.methodMarks, h.parallel.partner?, h.opensMethod, h.parameterMarks]

theorem importedMarks (e : Span) : s'.importedMarks e = s.importedMarks e := by
  simp only [Script.importedMarks, h.text_beq (x := "as") (by decide), h.isName]

theorem importMarksFrom (i : Nat) : s'.importMarksFrom i = s.importMarksFrom i := by
  generalize hn : s.size - i = n
  induction n using Nat.strongRecOn generalizing i with
  | ind n ih =>
    rw [importMarksFrom_eq, importMarksFrom_eq s]
    obtain ⟨ht, ht'⟩ | ⟨t, t', ht, ht', hlike⟩ := h.tokens i
    · rw [ht, ht']
    · have hi : i < s.size := (Array.getElem?_eq_some_iff.1 ht).1
      have hextent := s.extent_pos i
      have behind {k : Nat} (hk : i < k) : s'.importMarksFrom k = s.importMarksFrom k :=
        ih (s.size - k) (by omega) k rfl
      simp only [ht, ht', hlike.kind, hlike.told "from" (by decide), hlike.isPunct,
        h.text_beq (x := "as") (by decide), h.parallel.size, h.parallel.paired,
        h.parallel.entriesOf, h.parallel.extent, funext h.importedMarks,
        behind (Nat.lt_add_one i), behind (show i < i + 3 by omega),
        behind (show i < i + s.extent i by omega)]

theorem importMarks (i : Nat) : s'.importMarks i = s.importMarks i := by
  simp only [Script.importMarks, h.parallel.isPunct, h.importMarksFrom]

theorem exportMarks (i : Nat) : s'.exportMarks i = s.exportMarks i := by
  simp only [Script.exportMarks, Script.exportedMarks, h.parallel.isPunct, h.parallel.paired,
    h.parallel.entriesOf, h.parallel.lastOf, h.text_beq (x := "as") (by decide),
    h.text_beq (x := "from") (by decide)]

theorem marksAt (i : Nat) : s'.marksAt i = s.marksAt i := by
  unfold Script.marksAt
  obtain ⟨ht, ht'⟩ | ⟨t, t', ht, ht', hlike⟩ := h.tokens i
  · rw [ht, ht']
  · simp only [ht, ht', hlike.kind]
    cases hk : t.kind <;>
      simp only [hlike.text, hk, reduceCtorEq, or_true, true_or, h.declaratorMarks,
        h.functionMarks, h.classMarks, h.parallel.isPunct, h.parameterMarks, h.importMarks,
        h.exportMarks, h.arrowMarks, h.methodMarks]

theorem declarations : s'.declarations = s.declarations := by
  simp only [Script.declarations, Script.marks, h.parallel.size, funext h.marksAt]

/-! ## Uses -/

theorem isKeyOrLabel (i : Nat) : s'.isKeyOrLabel i = s.isKeyOrLabel i := by
  unfold Script.isKeyOrLabel
  obtain ⟨ht, ht'⟩ | ⟨t, t', ht, ht', hlike⟩ := h.before?_cases i
  · rw [ht, ht', h.parallel.isPunct]
  · have htext := hlike.text_mem_iff (l := ["\x7b", ",", ";", "\x7d"]) (by decide)
    simp only [ht, ht', hlike.kind, htext, h.parallel.isPunct]

theorem isUse (d : Declarations) (i : Nat) : s'.isUse d i = s.isUse d i := by
  have hbefore (k : TokenKind) (hk : k = .keyword ∨ k = .punctuator) (l : List String) :
      (s'.before? i).any (fun t => t.kind == k && t.text ∈ l) =
        (s.before? i).any fun t => t.kind == k && t.text ∈ l := by
    refine h.any_before? (fun t t' hlike => ?_) i
    rw [hlike.kind]
    by_cases htk : t.kind = k
    · rw [hlike.text (by rwa [htk])]
    · rw [beq_false_of_ne htk, Bool.false_and, Bool.false_and]
  have hproperty : s'.isProperty i = s.isProperty i := hbefore .punctuator (by decide) _
  have hlabel : s'.isJumpLabel i = s.isJumpLabel i := hbefore .keyword (by decide) _
  have hword := h.text_mem_iff (l := contextualKeywords) (by decide) i
  simp only [Script.isUse, hword, hproperty, hlabel, h.isKeyOrLabel]

/-- If the names of one script are the same wherever those of the other are, then the same tokens
use a name that is declared nowhere. -/
theorem freeUses (hnames : ∀ i j, s.isName i = true → j ∈ s.declarations.declared →
    (s'.text j = s'.text i ↔ s.text j = s.text i)) : s'.freeUses = s.freeUses := by
  simp only [Script.freeUses, h.parallel.size, h.isName, h.declarations, h.isUse]
  refine List.filter_congr fun i _ => ?_
  cases hi : s.isName i with
  | false => rfl
  | true =>
    have hdeclared : s'.text i ∈ s.declarations.declared.map s'.text ↔
        s.text i ∈ s.declarations.declared.map s.text := by
      simp only [List.mem_map]
      exact exists_congr fun j => and_congr_right fun hj => hnames i j hi hj
    simp only [hdeclared]

end Resembles

end Script

end MdxLint
