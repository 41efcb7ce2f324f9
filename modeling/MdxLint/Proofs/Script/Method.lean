import MdxLint.Proofs.Script.Binder
import MdxLint.Script.Reference
import MdxLint.Script.Tokens

/-! # Parameters of methods

A method is told by the parenthesis that closes its parameters, a brace behind it, and the three
tokens before its parameters. That is enough for a name that is a word, a text or a number, if a
brace, a semicolon, a comma, a star or one of the words before a member stands before it. The
parameters of every other method are declared only where something else declares them.
-/

namespace MdxLint

namespace Script

variable {s : Script} {i : Nat}

/-- The names that stand for a value somewhere. -/
def usedNames (s : Script) : List String :=
  ((List.range s.size).filter fun i => s.isName i && s.isUse s.declarations i).map s.text

theorem mem_usedNames {x : String} :
    x ∈ s.usedNames ↔ ∃ i, (s.isName i = true ∧ s.isUse s.declarations i = true) ∧ s.text i = x := by
  simp only [usedNames, List.mem_map, List.mem_filter, List.mem_range, Bool.and_eq_true]
  exact exists_congr fun i => and_congr_left fun _ =>
    and_iff_right_of_imp fun h => lt_size_of_isName h.1

theorem mem_freeUses :
    i ∈ s.freeUses ↔ s.text i ∉ s.declaredNames ∧ s.isName i = true ∧
      s.isUse s.declarations i = true := by
  simp only [freeUses, List.mem_filter, List.mem_range, Bool.and_eq_true, decide_eq_true_eq]
  rw [and_iff_right_of_imp fun h => lt_size_of_isName h.1.1, and_comm (a := s.isName i = true),
    and_assoc]
  rfl

theorem mem_freeNames {x : String} :
    x ∈ s.freeNames ↔ x ∈ s.usedNames ∧ x ∉ s.declaredNames := by
  rw [freeNames, List.mem_eraseDups, List.mem_map, mem_usedNames]
  simp only [mem_freeUses]
  constructor
  · rintro ⟨i, ⟨hx, h⟩, rfl⟩
    exact ⟨⟨i, h, rfl⟩, hx⟩
  · rintro ⟨⟨i, h, rfl⟩, hx⟩
    exact ⟨i, ⟨hx, h⟩, rfl⟩

end Script

inductive MethodName where
  | plain (t : Token) (ht : t.kind ∈ [TokenKind.name, .keyword, .string, .number])
  /-- A private name. -/
  | hidden (hash t : Token) (hhash : hash.isPunct "#" = true)
    (ht : t.kind ∈ [TokenKind.name, .keyword])
  /-- An expression in brackets. -/
  | computed (o : Token) (e : List Token) (c : Token) (ho : o.isPunct "[" = true) (he : Nest e)
    (hc : c.isPunct "]" = true)

namespace MethodName

def tokens : MethodName → List Token
  | plain t _ => [t]
  | hidden hash t _ _ => [hash, t]
  | computed o e c _ _ _ => o :: (e ++ [c])

/-- The name that stands on its own. -/
def plain? : MethodName → Option Token
  | plain t _ => some t
  | hidden _ _ _ _ => none
  | computed _ _ _ _ _ _ => none

/-- The indices of the tokens of a name that stands at `n`, those of an expression left out. -/
def own : MethodName → Nat → List Nat
  | plain _ _, n => [n]
  | hidden _ _ _ _, n => [n, n + 1]
  | computed _ e _ _ _ _, n => [n, n + 1 + e.length]

end MethodName

/-- A script with a method in it: what stands before it, the token in front of its name, its name
and its parameters, and what stands behind the brace that opens its body. -/
structure Method where
  before : List Token
  lead : Token
  name : MethodName
  opener : Token
  params : Binder (.entries false)
  closer : Token
  brace : Token
  behind : List Token
  opener_isPunct : opener.isPunct "(" = true
  closer_isPunct : closer.isPunct ")" = true
  brace_isPunct : brace.isPunct "\x7b" = true

namespace Method

variable (m : Method)

def group : List Token := m.opener :: (m.params.toks ++ [m.closer])

def tokens : List Token :=
  m.before ++ m.lead :: (m.name.tokens ++ (m.group ++ m.brace :: m.behind))

def script : Script := .ofTokens m.tokens

/-- The index of the name. -/
def start : Nat := m.before.length + 1

def openAt : Nat := m.start + m.name.tokens.length

/-- The index of the closing parenthesis. -/
def closeAt : Nat := m.openAt + 1 + m.params.toks.length

/-- The method is told from a call and from a control statement. -/
def told : Bool :=
  m.name.plain?.any (·.text ∉ blockHeads)
    && m.lead.text ∈ memberLeads
    && !(m.lead.text == "*" && m.before.getLast?.any (·.text == "function"))

/-- Another construct declares the name. -/
def Elsewhere (x : String) : Prop :=
  ∃ i, i ≠ m.closeAt ∧ ∃ j, Mark.declares j ∈ m.script.marksAt i ∧ m.script.text j = x

/-! ## The tokens of a method -/

theorem stands :
    m.tokens[m.before.length]? = some m.lead ∧ Stands m.tokens m.start m.name.tokens ∧
      Stands m.tokens m.openAt m.group ∧ m.tokens[m.closeAt + 1]? = some m.brace := by
  have h : Stands m.tokens 0
      (m.before ++ m.lead :: (m.name.tokens ++ (m.group ++ m.brace :: m.behind))) :=
    List.prefix_rfl
  rw [stands_append, stands_cons, stands_append, stands_append, stands_cons, Nat.zero_add] at h
  obtain ⟨-, hlead, hname, hgroup, hbrace, -⟩ := h
  have hlen : m.closeAt + 1 = m.openAt + m.group.length := by
    simp only [closeAt, group, List.length_cons, List.length_append, List.length_nil]
    omega
  exact ⟨hlead, hname, hgroup, hlen ▸ hbrace⟩

theorem stands_group : Stands m.tokens m.openAt m.group := m.stands.2.2.1

theorem stands_params : Stands m.tokens (m.openAt + 1) m.params.toks :=
  (stands_append.1 (stands_cons.1 m.stands_group).2).1

theorem token_closeAt : m.tokens[m.closeAt]? = some m.closer :=
  (stands_cons.1 (stands_append.1 (stands_cons.1 m.stands_group).2).2).1

theorem opener_opens : m.opener.opens = true :=
  (Token.opens_of_isPunct (b := .round) (by decide) m.opener_isPunct).1

theorem closer_closes : m.closer.opens = false ∧ m.closer.closes = true :=
  Token.closes_of_isPunct (b := .round) (by decide) m.closer_isPunct

theorem partner?_closeAt : m.script.partner? m.closeAt = some m.openAt :=
  Script.partner?_comm.1 (Script.partner?_of_stands m.stands_group m.opener_opens m.closer_closes
    m.params.nest)

/-! ## What the method says -/

/-- The token three places before the parameters, behind which a word and the name stand. -/
theorem textBefore_three (hopen : m.openAt = m.before.length + 2) :
    (m.script.textBefore m.openAt 3 == "function") =
      m.before.getLast?.any (·.text == "function") := by
  rw [hopen, Script.textBefore, List.getLast?_eq_getElem?]
  by_cases hlen : 0 < m.before.length
  · have hlast : m.before[m.before.length - 1]? = some m.before[m.before.length - 1] :=
      List.getElem?_eq_getElem (by omega)
    have htok : m.tokens[m.before.length - 1]? = some m.before[m.before.length - 1] := by
      rw [tokens, List.getElem?_append_left (by omega), hlast]
    rw [if_pos (by omega), show m.before.length + 2 - 3 = m.before.length - 1 by omega, hlast,
      script, Script.text_of_stands htok, Option.any_some]
  · rw [if_neg (by omega), List.getElem?_eq_none (by omega)]
    rfl

theorem opensMethod_openAt : m.script.opensMethod m.openAt = m.told := by
  obtain ⟨hlead, hname, -, -⟩ := m.stands
  rw [told, Script.opensMethod]
  cases hm : m.name with
  | plain t ht =>
    rw [hm] at hname
    have hopen : m.openAt = m.before.length + 2 := by simp [openAt, hm, start, MethodName.tokens]
    have hbefore : m.script.before? m.openAt = some t := by
      rw [hopen]
      exact Script.tokens_ofTokens.trans (stands_cons.1 hname).1
    have htwo : m.script.textBefore m.openAt 2 = m.lead.text := by
      rw [hopen, Script.textBefore, if_pos (by omega)]
      exact Script.text_of_stands hlead
    have hword : m.lead.text ∈ memberLeads → (m.lead.text != "function") = true := by
      refine fun h => bne_iff_ne.2 fun heq => ?_
      rw [heq] at h
      revert h
      decide
    rw [hbefore, htwo, m.textBefore_three hopen]
    by_cases hl : m.lead.text ∈ memberLeads
    · simp [ht, hl, hword hl, MethodName.plain?]
    · simp [hl, show ¬ m.openAt < 2 by omega]
  | hidden hash t hhash ht =>
    rw [hm] at hname
    have hopen : m.openAt = m.before.length + 3 := by simp [openAt, hm, start, MethodName.tokens]
    have htwo : m.script.textBefore m.openAt 2 = "#" := by
      rw [hopen, Script.textBefore, if_pos (by omega)]
      refine (Script.text_of_stands (stands_cons.1 hname).1).trans ?_
      exact beq_iff_eq.1 (Bool.and_eq_true_iff.1 hhash).2
    rw [htwo, show decide (m.openAt < 2) = false from decide_eq_false (by omega)]
    cases m.script.before? m.openAt <;> simp [memberLeads, MethodName.plain?]
  | computed o e c ho he hc =>
    rw [hm] at hname
    have hopen : m.openAt = m.start + 1 + e.length + 1 := by
      simp [openAt, hm, MethodName.tokens]
      omega
    have hbefore : m.script.before? m.openAt = some c := by
      rw [hopen]
      refine Script.tokens_ofTokens.trans ?_
      rw [MethodName.tokens, stands_cons, stands_append, stands_cons] at hname
      exact hname.2.2.1
    have hkind : c.kind = .punctuator := beq_iff_eq.1 (Bool.and_eq_true_iff.1 hc).1
    rw [hbefore]
    simp [hkind, MethodName.plain?]

theorem marksAt_closeAt :
    m.script.marksAt m.closeAt =
      if m.told then .silences (m.openAt - 1) :: m.script.parameterMarks m.openAt else [] := by
  have hclose := m.closer_isPunct
  rw [Token.isPunct, Bool.and_eq_true, beq_iff_eq, beq_iff_eq] at hclose
  have hbrace : m.script.isPunct (m.closeAt + 1) "\x7b" = true :=
    (Script.isPunct_of_stands m.stands.2.2.2 _).trans m.brace_isPunct
  have htoken : m.script.tokens[m.closeAt]? = some m.closer :=
    Script.tokens_ofTokens.trans m.token_closeAt
  rw [Script.marksAt, htoken]
  simp [hclose, hbrace, Script.methodMarks, m.partner?_closeAt, m.opensMethod_openAt]

theorem declares_mem_parameterMarks {i : Nat} (hi : i ∈ m.params.spots (m.openAt + 1)) :
    .declares i ∈ m.script.parameterMarks m.openAt := by
  rw [Script.parameterMarks_eq]
  exact (m.params.heard m.stands_params).mem_group m.stands_group m.opener_opens m.closer_closes hi

/-- A name that the parameters bind is declared iff the method is told or something else declares
it. -/
theorem mem_declaredNames_iff {x : String} (hx : x ∈ m.params.names) :
    x ∈ m.script.declaredNames ↔ m.told = true ∨ m.Elsewhere x := by
  rw [Script.mem_declaredNames]
  constructor
  · rintro ⟨j, hj, hjx⟩
    obtain ⟨i, hi⟩ := Script.mem_marks.1 hj
    by_cases hclose : i = m.closeAt
    · subst hclose
      rw [m.marksAt_closeAt] at hi
      by_cases htold : m.told = true
      · exact .inl htold
      · rw [if_neg htold] at hi
        cases hi
    · exact .inr ⟨i, hclose, j, hi, hjx⟩
  · rintro (htold | ⟨i, -, j, hj, hjx⟩)
    · rw [← m.params.map_text_spots m.stands_params] at hx
      obtain ⟨j, hj, hjx⟩ := List.mem_map.1 hx
      refine ⟨j, Script.mem_marks.2 ⟨m.closeAt, ?_⟩, hjx⟩
      rw [m.marksAt_closeAt, if_pos htold]
      exact List.mem_cons_of_mem _ (m.declares_mem_parameterMarks hj)
    · exact ⟨j, Script.mem_marks.2 ⟨i, hj⟩, hjx⟩

/-! ## Uses -/

/-- The tokens of the name itself are free uses only if it stands on its own and the method is not
told. -/
theorem not_told_of_mem_freeUses {i : Nat} (hi : i ∈ m.name.own m.start)
    (huse : i ∈ m.script.freeUses) : m.name.plain?.isSome = true ∧ m.told = false := by
  obtain ⟨-, hisName, hisUse⟩ := Script.mem_freeUses.1 huse
  -- signs are no names
  have sign {k : Nat} {t : Token} {x : String} (ht : m.tokens[k]? = some t)
      (hx : t.isPunct x = true) : i ≠ k := by
    rintro rfl
    have hname := (Script.isName_of_stands ht).symm.trans hisName
    rw [beq_iff_eq] at hname
    rw [Token.isPunct_of_kind_ne (by simp [hname])] at hx
    cases hx
  have hname := m.stands.2.1
  cases hm : m.name <;> rw [hm] at hi hname <;> rw [MethodName.tokens, stands_cons] at hname
  case plain t ht =>
    refine ⟨rfl, Bool.eq_false_iff.2 fun htold => ?_⟩
    have hopen : m.openAt - 1 = i := by
      rw [List.mem_singleton.1 hi]
      simp [openAt, hm, MethodName.tokens]
    have hsilent : .silences i ∈ m.script.marks := by
      refine Script.mem_marks.2 ⟨m.closeAt, ?_⟩
      rw [m.marksAt_closeAt, if_pos htold, hopen]
      exact List.mem_cons_self ..
    rw [Script.isUse, Script.declarations,
      Declarations.excludes_ofMarks.2 (.inr hsilent)] at hisUse
    simp at hisUse
  case hidden hash t hhash ht =>
    rcases List.mem_cons.1 hi with hi | hi
    · exact (sign hname.1 hhash hi).elim
    · have hproperty : m.script.isProperty i = true := by
        rw [List.mem_singleton.1 hi, Script.isProperty]
        rw [Token.isPunct, Bool.and_eq_true, beq_iff_eq, beq_iff_eq] at hhash
        change (m.script.tokens[m.start]?).any _ = true
        rw [script, Script.tokens_ofTokens, hname.1]
        simp [hhash]
      rw [Script.isUse, hproperty] at hisUse
      simp at hisUse
  case computed o e c ho he hc =>
    rcases List.mem_cons.1 hi with hi | hi
    · exact (sign hname.1 ho hi).elim
    · rw [stands_append, stands_cons] at hname
      exact (sign hname.2.2.1 hc (List.mem_singleton.1 hi)).elim

/-- The names that the parameters bind are declared, and so no use of them is free, iff the method
is told or something else declares them; and the name of the method is a free use only if it stands
on its own and the method is not told. -/
theorem params_iff_told :
    (∀ x ∈ m.params.names,
      (x ∈ m.script.declaredNames ↔ m.told = true ∨ m.Elsewhere x) ∧
      (x ∈ m.script.freeNames ↔
        x ∈ m.script.usedNames ∧ ¬ (m.told = true ∨ m.Elsewhere x))) ∧
    ∀ i ∈ m.name.own m.start, i ∈ m.script.freeUses →
      m.name.plain?.isSome = true ∧ m.told = false := by
  refine ⟨fun x hx => ⟨m.mem_declaredNames_iff hx, ?_⟩, fun i => m.not_told_of_mem_freeUses⟩
  rw [Script.mem_freeNames, m.mem_declaredNames_iff hx]

end Method

def hiddenMethod : Method where
  before := [⟨.keyword, "class", ⟨0, 1, 1⟩⟩, ⟨.name, "C", ⟨6, 1, 7⟩⟩]
  lead := ⟨.punctuator, "\x7b", ⟨8, 1, 9⟩⟩
  name := .hidden ⟨.punctuator, "#", ⟨10, 1, 11⟩⟩ ⟨.name, "m", ⟨11, 1, 12⟩⟩ rfl (.head _)
  opener := ⟨.punctuator, "(", ⟨12, 1, 13⟩⟩
  params := .last (.item (.name ⟨.name, "a", ⟨13, 1, 14⟩⟩ rfl) ⟨[], nofun, .nil⟩)
  closer := ⟨.punctuator, ")", ⟨14, 1, 15⟩⟩
  brace := ⟨.punctuator, "\x7b", ⟨16, 1, 17⟩⟩
  behind :=
    [⟨.keyword, "return", ⟨18, 1, 19⟩⟩, ⟨.name, "a", ⟨25, 1, 26⟩⟩,
      ⟨.punctuator, "\x7d", ⟨27, 1, 28⟩⟩, ⟨.punctuator, "\x7d", ⟨29, 1, 30⟩⟩]
  opener_isPunct := rfl
  closer_isPunct := rfl
  brace_isPunct := rfl

/-- Nothing declares the parameter of a private method, and its use is free. -/
theorem Method.params_iff_told_hidden :
    scan "class C \x7b #m(a) \x7b return a \x7d \x7d" = .ok hiddenMethod.tokens ∧
      hiddenMethod.told = false ∧ ¬ hiddenMethod.Elsewhere "a" ∧
      "a" ∈ hiddenMethod.script.freeNames := by
  obtain ⟨hdeclared, hfree⟩ :=
    (Method.params_iff_told hiddenMethod).1 "a" (List.mem_singleton.2 rfl)
  have hnot : "a" ∉ hiddenMethod.script.declaredNames := by decide +kernel
  rw [hdeclared] at hnot
  refine ⟨by decide +kernel, by decide +kernel, fun h => hnot (.inr h), hfree.2 ⟨?_, hnot⟩⟩
  decide +kernel

end MdxLint
