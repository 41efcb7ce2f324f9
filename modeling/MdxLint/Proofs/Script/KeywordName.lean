import MdxLint.Proofs.Script.Agreement
import MdxLint.Proofs.Script.SwapEffect

/-! # Keywords as names of members and keys

Behind a point, and as the key of an object entry, a keyword is a plain name. The analysis looks
at the keyword alone. This states what a keyword does in these places, and for which keywords it
never does anything.
-/

namespace MdxLint

namespace Swap

/-- The exchange of the token at `index`, if that is a keyword and the name is fresh. -/
def of? (code : String) (index : Nat) (fresh : String) : Option Swap :=
  match scanned : scan code with
  | .error _ => none
  | .ok tokens =>
    match found : tokens[index]? with
    | none => none
    | some keyword =>
      if h : keyword.kind = .keyword ∧ scan fresh = .ok [⟨.name, fresh, .origin⟩] ∧
          fresh ∉ contextualKeywords ∧ ∀ t ∈ tokens, t.text ≠ fresh then
        some ⟨code, tokens, scanned, index, keyword, found, h.1, fresh, h.2.1, h.2.2.1, h.2.2.2⟩
      else none

/-- The exchange leaves the declared names and the free names as they are, the fresh name apart. -/
def Inert (w : Swap) : Prop :=
  (∀ x, x ≠ w.fresh → (x ∈ w.after.declaredNames ↔ x ∈ w.before.declaredNames)) ∧
    w.after.freeNames = w.before.freeNames

/-- The keyword is the name of a member. -/
def isMember (w : Swap) : Bool :=
  w.index ≠ 0 &&
    (w.before.isPunct (w.index - 1) "." || w.before.isPunct (w.index - 1) "?.")

/-- The keyword is the key of an object entry. -/
def isKey (w : Swap) : Bool :=
  w.index ≠ 0 &&
    (w.before.isPunct (w.index - 1) "\x7b" || w.before.isPunct (w.index - 1) ",") &&
    w.before.isPunct (w.index + 1) ":"

/-- Where a value ends does not depend on the exchange: the keyword does not end one, and the token
behind it ends one behind the keyword if it does behind the name. -/
def keepsValues (w : Swap) : Bool :=
  !w.before.endsValue w.index w.keyword &&
    (w.tokens[w.index + 1]?).all fun t =>
      w.after.endsValue (w.index + 1) t == w.before.endsValue (w.index + 1) t

/-- The keyword and the token behind it begin a generator. -/
def startsGenerator (w : Swap) : Bool :=
  w.keyword.text == "function" && w.before.text (w.index + 1) == "*"

variable {w : Swap}

section Values

theorem endsValue_after {j : Nat} (h : j ≠ w.index + 1) (t : Token) :
    w.after.endsValue j t = w.before.endsValue j t := by
  have htext {x : String} (hx : x ∈ comparedTexts) :
      (w.after.text (j + 1) == x) = (w.before.text (j + 1) == x) := by
    rw [Bool.eq_iff_iff, beq_iff_eq, beq_iff_eq, w.text_after_eq_iff hx]
  unfold Script.endsValue Script.startsStatement
  rw [htext (by decide), htext (by decide), w.before?_after h]

/-- Values end alike from an index on if they do at every index that is met on the way. -/
theorem valueEnd_after {P : Nat → Prop}
    (agree : ∀ j t t', P j → w.before.tokens[j]? = some t → w.after.tokens[j]? = some t' →
      w.after.endsValue j t' = w.before.endsValue j t)
    (step : ∀ j t, P j → w.before.tokens[j]? = some t → w.before.endsValue j t = false →
      P (j + w.before.extent j)) {j : Nat} (hj : P j) :
    w.after.valueEnd j = w.before.valueEnd j := by
  fun_induction Script.valueEnd w.before j with
  | case1 j ht =>
    have hne : j ≠ w.index := by
      rintro rfl
      rw [w.tokens_before, w.found] at ht
      cases ht
    rw [Script.valueEnd_eq, w.tokens_after hne, ht]
  | case2 j t ht he =>
    obtain ⟨t', ht'⟩ := w.exists_token_after ht
    rw [Script.valueEnd_eq, ht']
    dsimp only
    rw [agree j t t' hj ht ht', if_pos he]
  | case3 j t ht he ih =>
    obtain ⟨t', ht'⟩ := w.exists_token_after ht
    rw [Script.valueEnd_eq, ht']
    dsimp only
    rw [agree j t t' hj ht ht', if_neg he, w.extent_after]
    exact ih (step j t hj ht (by simpa using he))

theorem keepsValues_iff :
    w.keepsValues = true ↔ w.before.endsValue w.index w.keyword = false ∧
      ∀ t, w.tokens[w.index + 1]? = some t →
        w.after.endsValue (w.index + 1) t = w.before.endsValue (w.index + 1) t := by
  unfold keepsValues
  cases w.tokens[w.index + 1]? <;> simp

theorem valueEnd_eq_of_keepsValues (h : w.keepsValues = true) (j : Nat) :
    w.after.valueEnd j = w.before.valueEnd j := by
  obtain ⟨hends, hnext⟩ := keepsValues_iff.1 h
  refine valueEnd_after (P := fun _ => True) (fun j t t' _ ht ht' => ?_) (fun _ _ _ _ _ => trivial)
    trivial
  by_cases hj : j = w.index
  · subst hj
    rw [w.tokens_after_self] at ht'
    rw [w.tokens_before, w.found] at ht
    cases ht
    cases ht'
    rw [hends]
    rfl
  · rw [w.tokens_after hj, ht] at ht'
    cases ht'
    by_cases hj' : j = w.index + 1
    · subst hj'
      exact hnext t (by rwa [w.tokens_before] at ht)
    · exact endsValue_after hj' t

end Values

section Methods

theorem fresh_not_mem_keywords (w : Swap) : w.fresh ∉ keywords := by
  intro h
  have none_is_name : ∀ x ∈ keywords, scan x ≠ .ok [⟨.name, x, .origin⟩] := by decide +kernel
  exact none_is_name _ h w.isName

theorem opensMethod_after {o : Nat} (h₀ : w.index ≠ 0) (h₁ : o ≠ w.index + 1)
    (h₃ : o = w.index + 3 → w.startsGenerator = false) :
    w.after.opensMethod o = w.before.opensMethod o := by
  have leads : memberLeads ⊆ comparedTexts := by decide
  have not_lead {x : String} (hx : x ∉ comparedTexts) : x ∉ memberLeads := fun h => hx (leads h)
  unfold Script.opensMethod
  rw [w.before?_after h₁]
  cases w.before.before? o with
  | none => rfl
  | some name =>
    dsimp only
    by_cases h₂ : o = w.index + 2
    · -- the exchanged token is no lead of a method
      subst h₂
      have hkey := not_lead (not_mem_comparedTexts_of_keyword w.text_mem_keywords)
      have hname := not_lead (not_mem_comparedTexts_of_scan w.isName w.not_contextual)
      have hlt : ¬w.index + 2 < 2 := fun h => h₀ (by omega)
      simp [Script.textBefore, hkey, hname, hlt]
    · have hlead : w.after.textBefore o 2 = w.before.textBefore o 2 := by
        unfold Script.textBefore
        split
        · exact w.text_after (by omega)
        · rfl
      rw [hlead]
      by_cases h₃' : o = w.index + 3
      · subst h₃'
        have hfun : w.fresh ≠ "function" := fun h => w.fresh_not_mem_keywords (by rw [h]; decide)
        have hgen := h₃ rfl
        unfold startsGenerator at hgen
        simp only [Script.textBefore, Nat.le_add_left, if_true, Nat.add_sub_cancel,
          show w.index + 3 - 2 = w.index + 1 by omega, text_after_self, text_before_self]
        grind
      · have hfar : w.after.textBefore o 3 = w.before.textBefore o 3 := by
          unfold Script.textBefore
          split
          · exact w.text_after (by omega)
          · rfl
        rw [hfar]

end Methods

/-- A keyword that announces nothing, and is no jump in front of a name, is inert. -/
theorem Harmless.inert (h : w.Harmless) (hm : w.before.marksAt w.index = [])
    (hj : w.before.isName (w.index + 1) = true → w.before.isJumpLabel (w.index + 1) = false) :
    w.Inert := by
  have announced_eq : w.announced = [] := by rw [announced, hm]; rfl
  refine ⟨fun x hx => ?_, h.freeNames_eq fun j hju => ?_⟩
  · rw [h.mem_declaredNames_iff, announced_eq]
    simp [hx]
  · by_contra hh
    rw [Bool.not_eq_false, hides_iff, announced_eq, hm] at hh
    rcases hh with hh | hh | ⟨rfl, hl⟩
    · cases hh
    · cases hh
    · have hname := (List.mem_filter.1 hju).2
      rw [Bool.and_eq_true, Bool.and_eq_true, w.isName_after (by omega)] at hname
      rw [hj hname.1.1] at hl
      cases hl

section Member

theorem lead_of_isMember (hm : w.isMember = true) :
    ∃ j, w.index = j + 1 ∧ (w.before.isPunct j "." = true ∨ w.before.isPunct j "?." = true) := by
  simp only [isMember, ne_eq, Bool.and_eq_true, Bool.or_eq_true, decide_eq_true_eq] at hm
  exact ⟨w.index - 1, by omega, hm.2⟩

theorem opensMethod_eq_false {s : Script} {j : Nat} (hj : s.text j ∉ memberLeads) :
    s.opensMethod (j + 2) = false := by
  unfold Script.opensMethod
  split
  · rfl
  · simp [Script.textBefore, hj]

theorem isProperty_of_isPunct {s : Script} {j : Nat} {p : String} (h : s.isPunct j p = true)
    (hp : p ∈ [".", "?.", "#"]) : s.isProperty (j + 1) = true := by
  obtain ⟨t, ht, hk, rfl⟩ := Script.exists_token_of_isPunct h
  unfold Script.isProperty Script.before?
  simp only [ht, Option.any_some, hk, hp, beq_self_eq_true, decide_true, Bool.and_self]

theorem harmless_of_isMember (hm : w.isMember = true) (hv : w.keepsValues = true)
    (hg : w.startsGenerator = false) : w.Harmless := by
  obtain ⟨j, hj, hp⟩ := lead_of_isMember hm
  have htext : w.before.text j ∉ memberLeads := by
    rcases hp with hp | hp
    · rw [(Script.isPunct_iff.1 hp).2]
      decide
    · rw [(Script.isPunct_iff.1 hp).2]
      decide
  refine ⟨⟨j, hj, ?_⟩, fun k _ => valueEnd_eq_of_keepsValues hv (k + 1),
    fun k o _ _ => ?_, fun d => ?_⟩
  · rcases hp with hp | hp
    · exact ⟨".", by decide, hp⟩
    · exact ⟨"?.", by decide, hp⟩
  · by_cases ho : o = w.index + 1
    · rw [ho, hj, opensMethod_eq_false htext, opensMethod_eq_false]
      rwa [w.text_after (by omega)]
    · exact opensMethod_after (by omega) ho fun _ => hg
  · have hprop : w.after.isProperty w.index = true := by
      rw [isProperty_after, hj]
      rcases hp with hp | hp
      · exact isProperty_of_isPunct hp (by decide)
      · exact isProperty_of_isPunct hp (by decide)
    simp [Script.isUse, hprop]

theorem keepsValues_of_mem_valueKeywords (hk : w.keyword.text ∈ valueKeywords) :
    w.keepsValues = true := by
  have hne : ∀ x ∈ valueKeywords, x ∉ declarationKeywords ∧ x ∉ statementKeywords := by decide
  obtain ⟨hd, hs⟩ := hne _ hk
  refine keepsValues_iff.2 ⟨by simp [Script.endsValue, w.kind_eq, hd, hs], fun t _ => ?_⟩
  have hstart : w.after.startsStatement (w.index + 1) t =
      w.before.startsStatement (w.index + 1) t := by
    simp [Script.startsStatement, Script.before?, w.tokens_after_self, w.found, w.kind_eq, hk, name]
  have htext : w.after.text (w.index + 1 + 1) = w.before.text (w.index + 1 + 1) :=
    w.text_after (by omega)
  rw [Script.endsValue, Script.endsValue, hstart, htext]

theorem inert_of_mem_valueKeywords (hm : w.isMember = true) (hk : w.keyword.text ∈ valueKeywords) :
    w.Inert := by
  have hne : ∀ x ∈ valueKeywords, x ∉ ["var", "let", "const"] ∧ x ≠ "function" ∧ x ≠ "class" ∧
      x ≠ "catch" ∧ x ≠ "import" ∧ x ≠ "export" ∧ x ∉ ["break", "continue"] := by decide
  obtain ⟨hvar, hfun, hclass, hcatch, himport, hexport, hjump⟩ := hne _ hk
  have hg : w.startsGenerator = false := by simp [startsGenerator, hfun]
  have h := harmless_of_isMember hm (keepsValues_of_mem_valueKeywords hk) hg
  refine h.inert ?_ fun _ => ?_
  · simp only [Script.marksAt, w.tokens_before, w.found, w.kind_eq]
    rw [if_neg hvar, if_neg hfun, if_neg hclass, if_neg hcatch, if_neg himport, if_neg hexport]
  · simp only [Script.isJumpLabel, Script.before?, w.tokens_before, w.found, Option.any_some]
    simp only [hjump, decide_false, Bool.and_false]

/-- A text with the keyword `k` as the name of a member that is not inert, unless the keyword is a
complete value. -/
def memberCase (k : String) : Option Swap :=
  if k ∈ declarationKeywords then of? ("a." ++ k ++ " \x7bb as c\x7d") 2 "z"
  else of? ("let u = a." ++ k ++ "\nif, d") 5 "z"

theorem exists_not_inert_member {k : String} (hk : k ∈ keywords) (hv : k ∉ valueKeywords) :
    ∃ w : Swap, w.isMember = true ∧ w.keyword.text = k ∧
      w.after.freeNames ≠ w.before.freeNames := by
  have cases_differ : ∀ k ∈ keywords, k ∉ valueKeywords → (memberCase k).any (fun w =>
      w.isMember && w.keyword.text == k && w.after.freeNames != w.before.freeNames) = true := by
    -- one evaluation for each keyword
    simp only [keywords, List.forall_mem_cons]
    and_intros
    all_goals decide +kernel
  obtain ⟨w, -, hw⟩ := (Option.any_eq_true _ _).1 (cases_differ k hk hv)
  simp only [Bool.and_eq_true, beq_iff_eq, bne_iff_ne] at hw
  exact ⟨w, hw.1.1, hw.1.2, hw.2⟩

/-- What a keyword does as the name of a member. If the exchange moves no end of a value and begins
no generator, the keyword declares the names that its own construct announces and hides the uses
that this construct takes away, and does nothing else. It is inert wherever it is the name of a
member exactly if it is a complete value. -/
theorem member_keyword_exact (w : Swap) (hm : w.isMember = true) :
    (w.keepsValues = true → w.startsGenerator = false →
      (∀ x, x ∈ w.before.declaredNames ↔
        (x ∈ w.after.declaredNames ∧ x ≠ w.fresh) ∨ x ∈ w.announced) ∧
      w.before.freeUses = w.after.freeUses.filter fun j => !w.hides j) ∧
    ((∀ v : Swap, v.isMember = true → v.keyword.text = w.keyword.text → v.Inert) ↔
      w.keyword.text ∈ valueKeywords) := by
  refine ⟨fun hv hg => ?_, fun h => ?_, fun hk v hm hv => ?_⟩
  · have h := harmless_of_isMember hm hv hg
    exact ⟨fun x => h.mem_declaredNames_iff, h.freeUses_before⟩
  · by_contra hk
    obtain ⟨v, hm, hv, hne⟩ := exists_not_inert_member w.text_mem_keywords hk
    exact hne (h v hm hv).2
  · exact inert_of_mem_valueKeywords hm (hv ▸ hk)

/-- The call `p.catch(handler)`: with the keyword, `handler` counts as declared. -/
def catchCall : Swap := (of? "p.catch(handler);" 2 "z").get (by decide +kernel)

theorem member_keyword_exact_catchCall :
    (catchCall.before.freeNames = ["p"] ∧ catchCall.after.freeNames = ["p", "handler"]) ∧
      catchCall.before.freeUses =
        catchCall.after.freeUses.filter fun j => !catchCall.hides j :=
  ⟨by decide +kernel, ((member_keyword_exact catchCall (by decide +kernel)).1 (by decide +kernel)
    (by decide +kernel)).2⟩

end Member

section Key

theorem lead_of_isKey (hk : w.isKey = true) :
    ∃ j, w.index = j + 1 ∧ (w.before.isPunct j "\x7b" = true ∨ w.before.isPunct j "," = true) ∧
      w.before.isPunct (w.index + 1) ":" = true := by
  simp only [isKey, ne_eq, Bool.and_eq_true, Bool.or_eq_true, decide_eq_true_eq] at hk
  exact ⟨w.index - 1, by omega, hk.1.2, hk.2⟩

theorem closes_of_endsValue {s : Script} {m : Nat} {t : Token} (h : s.endsValue m t = false) :
    t.closes = false := by
  unfold Script.endsValue at h
  cases hk : t.kind with
  | punctuator =>
    rw [hk] at h
    simp only [Bool.or_eq_false_iff] at h
    exact h.2
  | _ => exact Token.closes_of_kind_ne (by simp [hk])

theorem ends_or_paired_of_isKey (hk : w.isKey = true) {j : Nat} (hj : w.index = j + 1) {t : Token}
    (ht : w.before.tokens[j]? = some t) :
    w.before.endsValue j t = true ∨ w.before.paired j = true := by
  obtain ⟨j', hj', hp, -⟩ := lead_of_isKey hk
  obtain rfl : j = j' := by omega
  rcases hp with hp | hp
  · refine .inr (Script.paired_of_scan w.scanned ?_)
    obtain ⟨t, ht, hkind, htext⟩ := Script.exists_token_of_isPunct hp
    rw [w.tokens_before] at ht
    simp [ht, Token.isBracket, Token.opens, hkind, htext, Bracket.ofOpener?]
  · obtain ⟨t', ht', hkind, htext⟩ := Script.exists_token_of_isPunct hp
    rw [ht] at ht'
    cases ht'
    simp [Script.endsValue, hkind, htext]

theorem not_closes_lead (hk : w.isKey = true) {j : Nat} (hj : w.index = j + 1) :
    ¬(w.tokens[j]?).any Token.closes = true := by
  obtain ⟨j', hj', hp, -⟩ := lead_of_isKey hk
  obtain rfl : j = j' := by omega
  rcases hp with hp | hp
  · obtain ⟨t, ht, hkind, htext⟩ := Script.exists_token_of_isPunct hp
    rw [w.tokens_before] at ht
    simp [ht, Token.closes, htext, Bracket.ofCloser?]
  · obtain ⟨t, ht, hkind, htext⟩ := Script.exists_token_of_isPunct hp
    rw [w.tokens_before] at ht
    simp [ht, Token.closes, htext, Bracket.ofCloser?]

/-- No value reaches a key: what stands before it ends a value or opens a group that holds the
key. -/
theorem valueEnd_eq_of_isKey (hk : w.isKey = true) {k : Nat} (he : w.before.isPunct k "=" = true) :
    w.after.valueEnd (k + 1) = w.before.valueEnd (k + 1) := by
  obtain ⟨j, hj, hp, -⟩ := lead_of_isKey hk
  refine valueEnd_after (P := fun m => m ≠ w.index ∧ m ≠ w.index + 1) ?_ ?_ ⟨?_, ?_⟩
  · rintro m t t' ⟨hm, hm'⟩ ht ht'
    rw [w.tokens_after hm, ht] at ht'
    cases ht'
    exact endsValue_after hm' t
  · rintro m t ⟨hm, hm'⟩ ht hends
    have htm : w.tokens[m]? = some t := by rwa [w.tokens_before] at ht
    have hopen : t.closes = false := closes_of_endsValue hends
    unfold Script.extent
    cases ho : w.before.partner? m with
    | none =>
      dsimp only
      refine ⟨fun h => ?_, fun h => hm (by omega)⟩
      obtain rfl : m = j := by omega
      exact absurd (ends_or_paired_of_isKey hk hj ht) (by simp [hends, Script.paired, ho])
    | some o =>
      dsimp only
      rcases Script.partner?_cases ho with ⟨hlt, -, hc⟩ | ⟨-, hc, -⟩
      · have hoj : o ≠ j := fun h => not_closes_lead hk hj (h ▸ hc)
        have hoi : o ≠ w.index := fun h => by
          simp [h, w.found, Token.closes_of_kind_ne w.keyword_ne_punctuator] at hc
        omega
      · simp [htm, hopen] at hc
  · rintro hkj
    obtain rfl : k = j := by omega
    have := (Script.isPunct_iff.1 he).2
    rcases hp with hp | hp
    · simp [(Script.isPunct_iff.1 hp).2] at this
    · simp [(Script.isPunct_iff.1 hp).2] at this
  · rintro hkj
    obtain rfl : k = w.index := by omega
    simp at he

theorem harmless_of_isKey (hk : w.isKey = true) : w.Harmless := by
  obtain ⟨j, hj, hp, hcolon⟩ := lead_of_isKey hk
  obtain ⟨t, ht, hkind, htext⟩ := Script.exists_token_of_isPunct hcolon
  refine ⟨⟨j, hj, ?_⟩, fun k he => valueEnd_eq_of_isKey hk he, fun k o hc ho => ?_, fun d => ?_⟩
  · rcases hp with hp | hp
    · exact ⟨"\x7b", by decide, hp⟩
    · exact ⟨",", by decide, hp⟩
  · have hopens : (w.tokens[o]?).any Token.opens = true := by
      rcases Script.partner?_cases ho with ⟨-, hk, -⟩ | ⟨-, -, hk⟩
      · obtain ⟨t, ht, -, htext⟩ := Script.exists_token_of_isPunct hc
        rw [w.tokens_before] at ht
        simp [ht, Token.opens, htext, Bracket.ofOpener?] at hk
      · exact hk
    refine opensMethod_after (by omega) ?_ ?_
    · rintro rfl
      rw [w.tokens_before] at ht
      simp [ht, Token.opens, htext, Bracket.ofOpener?] at hopens
    · intro _
      simp [startsGenerator, (Script.isPunct_iff.1 hcolon).2]
  · have hkey : w.after.isKeyOrLabel w.index = true := by
      rw [isKeyOrLabel_after, Script.isKeyOrLabel, hcolon, hj, Script.before?, Bool.true_and]
      rcases hp with hp | hp
      · obtain ⟨t, ht, hkind, htext⟩ := Script.exists_token_of_isPunct hp
        simp [ht, hkind, htext]
      · obtain ⟨t, ht, hkind, htext⟩ := Script.exists_token_of_isPunct hp
        simp [ht, hkind, htext]
    simp [Script.isUse, hkey]

/-- A text in which the members of a class are looked for in the block behind an object. -/
def classKeyCode : String := "f(\x7bclass:a\x7d);if(x)\x7by=1;\x7d"

/-- A text with the keyword `k` as the key of an object entry, for those keywords that are not
inert there. -/
def keyCase (k : String) : Option Swap :=
  if k = "class" then of? classKeyCode 3 "z"
  else if k = "import" then of? "f(\x7bimport:x\x7d)" 3 "z"
  else of? ("f(\x7b" ++ k ++ ":,b\x7d)") 3 "z"

/-- The keywords whose construct takes what stands behind a colon for its own. -/
def reachingKeywords : List String := ["class", "import", "const", "let", "var"]

theorem isName_eq_false_of_isPunct {s : Script} {j : Nat} {p : String} (h : s.isPunct j p = true) :
    s.isName j = false := by
  rw [Script.isName, (Script.isPunct_iff.1 h).1]
  rfl

theorem isPunct_eq_false_of_isPunct {s : Script} {j : Nat} {p q : String}
    (h : s.isPunct j p = true) (hpq : p ≠ q) : s.isPunct j q = false := by
  by_contra hq
  rw [Bool.not_eq_false] at hq
  exact hpq ((Script.isPunct_iff.1 h).2.symm.trans (Script.isPunct_iff.1 hq).2)

theorem marksAt_of_isKey (hk : w.isKey = true) (hr : w.keyword.text ∉ reachingKeywords) :
    w.before.marksAt w.index = [] := by
  obtain ⟨-, -, -, hcolon⟩ := lead_of_isKey hk
  have hpunct {q : String} (hq : ":" ≠ q) := isPunct_eq_false_of_isPunct hcolon hq
  have hname := isName_eq_false_of_isPunct hcolon
  have reaching {x : String} (hx : x ∈ reachingKeywords) : w.keyword.text ≠ x :=
    fun h => hr (h ▸ hx)
  have hvar : w.keyword.text ∉ ["var", "let", "const"] := by
    intro h
    exact hr ((by decide : ["var", "let", "const"] ⊆ reachingKeywords) h)
  simp only [Script.marksAt, w.tokens_before, w.found, w.kind_eq]
  rw [if_neg hvar, if_neg (reaching (x := "class") (by decide)),
    if_neg (reaching (x := "import") (by decide))]
  split
  · simp [Script.functionMarks, hpunct, hname]
  split
  · simp [hpunct]
  split
  · simp [Script.exportMarks, hpunct]
  · rfl

theorem exists_not_inert_key {k : String} (hk : k ∈ reachingKeywords) :
    ∃ w : Swap, w.isKey = true ∧ w.keyword.text = k ∧ w.after.freeNames ≠ w.before.freeNames := by
  have cases_differ : ∀ k ∈ reachingKeywords, (keyCase k).any (fun w =>
      w.isKey && w.keyword.text == k && w.after.freeNames != w.before.freeNames) = true := by
    decide +kernel
  obtain ⟨w, -, hw⟩ := (Option.any_eq_true _ _).1 (cases_differ k hk)
  simp only [Bool.and_eq_true, beq_iff_eq, bne_iff_ne] at hw
  exact ⟨w, hw.1.1, hw.1.2, hw.2⟩

/-- What a keyword does as the key of an object entry: it declares the names that its own construct
announces and hides the uses that this construct takes away, and does nothing else. It is inert
wherever it is a key exactly if its construct does not reach behind the colon. -/
theorem key_keyword_exact (w : Swap) (hk : w.isKey = true) :
    ((∀ x, x ∈ w.before.declaredNames ↔
        (x ∈ w.after.declaredNames ∧ x ≠ w.fresh) ∨ x ∈ w.announced) ∧
      w.before.freeUses = w.after.freeUses.filter fun j => !w.hides j) ∧
    ((∀ v : Swap, v.isKey = true → v.keyword.text = w.keyword.text →
        v.after.freeNames = v.before.freeNames) ↔ w.keyword.text ∉ reachingKeywords) := by
  have h := harmless_of_isKey hk
  refine ⟨⟨fun x => h.mem_declaredNames_iff, h.freeUses_before⟩, fun hv hr => ?_,
    fun hr v hk hv => ?_⟩
  · obtain ⟨v, hk, hw, hne⟩ := exists_not_inert_key hr
    exact hne (hv v hk hw)
  · have hname := isName_eq_false_of_isPunct (lead_of_isKey hk).choose_spec.2.2
    refine ((harmless_of_isKey hk).inert (marksAt_of_isKey hk (hv ▸ hr)) fun hn => ?_).2
    rw [hname] at hn
    cases hn

def classKey : Swap := (of? classKeyCode 3 "z").get (by decide +kernel)

theorem key_keyword_exact_classKey :
    (classKey.before.freeNames = ["f", "a", "x"] ∧
        classKey.after.freeNames = ["f", "a", "x", "y"]) ∧
      classKey.before.freeUses = classKey.after.freeUses.filter fun j => !classKey.hides j :=
  ⟨by decide +kernel, (key_keyword_exact classKey (by decide +kernel)).1.2⟩

end Key

end Swap

end MdxLint
