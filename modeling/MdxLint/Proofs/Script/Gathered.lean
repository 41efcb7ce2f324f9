import MdxLint.Proofs.Script.Gathering
import MdxLint.Proofs.Script.Marks
import MdxLint.Proofs.Script.Matching

/-! # Every pass ends well

Whatever the tokens are, a pass over them ends without a misstep, and what it has gathered is what
the script declares. Each step is described by what it comes to and by the marks it adds; a loop
takes the steps that the recursion for its marks takes, so it ends where that recursion does.
-/

namespace MdxLint

def Gathered.with (s : Script) (g : Gathered) (ms : List Mark) : Gathered where
  names := g.names ++ (Declarations.ofMarks ms).declared.map s.text
  declared := g.declared ++ (Declarations.ofMarks ms).declared
  silent := g.silent ++ (Declarations.ofMarks ms).silent

theorem Declarations.ofMarks_append (ms ms' : List Mark) :
    ofMarks (ms ++ ms') =
      ⟨(ofMarks ms).declared ++ (ofMarks ms').declared,
        (ofMarks ms).silent ++ (ofMarks ms').silent⟩ := by
  simp [ofMarks, List.filterMap_append]

namespace Gathered

variable (s : Script) (g : Gathered)

@[simp] theorem with_nil : g.with s [] = g := by
  simp [Gathered.with, Declarations.ofMarks]

@[simp] theorem with_append (ms ms' : List Mark) :
    g.with s (ms ++ ms') = (g.with s ms).with s ms' := by
  simp [Gathered.with, Declarations.ofMarks_append]

end Gathered

open Gather

namespace Script

/-- The step ends well, comes to `a` and gathers what the marks say; the tokens they declare are
there. -/
structure Says {α : Type} (s : Script) (m : Gather α) (a : α) (ms : List Mark) : Prop where
  run : ∀ g, (m.run g).run = some (.ok (a, g.with s ms))
  inside : ∀ j, Mark.declares j ∈ ms → j < s.size

namespace Says

variable {α β : Type} {s : Script} {m : Gather α} {k : α → Gather β} {a : α} {b : β}
  {ms ms' : List Mark} {i j : Nat} {t : Token}

theorem pure (a : α) : s.Says (pure a) a [] := by
  constructor
  · intro g
    rw [Gathered.with_nil]
    rfl
  · exact nofun

theorem bind (hm : s.Says m a ms) (hk : s.Says (k a) b ms') : s.Says (m >>= k) b (ms ++ ms') := by
  constructor
  · intro g
    rw [StateT.run_bind, ExceptT.run_bind, hm.run g, Gathered.with_append, ← hk.run]
    rfl
  · intro j hj
    rcases List.mem_append.1 hj with hj | hj
    · exact hm.inside j hj
    · exact hk.inside j hj

theorem quiet_bind (hm : s.Says m a []) (hk : s.Says (k a) b ms) : s.Says (m >>= k) b ms :=
  hm.bind hk

theorem bind_quiet (hm : s.Says m a ms) (hk : s.Says (k a) b []) : s.Says (m >>= k) b ms := by
  have h := hm.bind hk
  rwa [List.append_nil] at h

theorem tokenAt (h : s.tokens[i]? = some t) : s.Says (s.tokenAt i) t [] := by
  rw [Script.tokenAt, h]
  exact pure t

theorem partnerOf (h : s.partner? i = some j) : s.Says (s.partnerOf i) j [] := by
  rw [Script.partnerOf, h]
  exact pure j

theorem declare (h : s.tokens[i]? = some t) : s.Says (declare i t) () [.declares i] := by
  constructor
  · intro g
    have htext : s.text i = t.text := by rw [text, h, Option.map_some, Option.getD_some]
    simp [Gather.declare, Gathered.with, Declarations.ofMarks, htext]
  · intro j hj
    cases List.mem_singleton.1 hj
    exact (Array.getElem?_eq_some_iff.1 h).1

theorem silence (i : Nat) : s.Says (silence i) () [.silences i] := by
  constructor
  · intro g
    simp [Gather.silence, Gathered.with, Declarations.ofMarks]
  · intro j hj
    cases List.mem_singleton.1 hj

theorem forM {l : List α} {f : α → Gather Unit} {g : α → List Mark}
    (h : ∀ a ∈ l, s.Says (f a) () (g a)) : s.Says (l.forM f) () (l.flatMap g) := by
  induction l with
  | nil => exact pure ()
  | cons a l ih =>
    rw [List.forall_mem_cons] at h
    rw [List.flatMap_cons]
    exact h.1.bind (ih h.2)

end Says

/-- Every bracket with a partner is on the right side of it, and both are there. -/
structure Ordered (s : Script) : Prop where
  lt_size : ∀ {i j}, s.partner? i = some j → i < s.size ∧ j < s.size
  opens_iff : ∀ {i j t}, s.partner? i = some j → s.tokens[i]? = some t →
    t.kind = .punctuator ∧ (t.opens = true ↔ i < j)

theorem ordered_ofTokens (ts : List Token) : (ofTokens ts).Ordered := by
  have there {i : Nat} {p : Token → Bool} (h : (ts[i]?).any p = true) :
      i < (ofTokens ts).size := by
    by_contra hlt
    rw [List.getElem?_eq_none (by simpa [size, ofTokens] using hlt)] at h
    cases h
  constructor
  case lt_size =>
    intro i j h
    rcases partner?_cases h with ⟨-, hi, hj⟩ | ⟨-, hi, hj⟩
    · exact ⟨there hi, there hj⟩
    · exact ⟨there hi, there hj⟩
  case opens_iff =>
    intro i j t h ht
    rw [tokens_ofTokens] at ht
    rcases partner?_cases h with ⟨hij, hi, -⟩ | ⟨hji, hi, -⟩
    · rw [ht, Option.any_some] at hi
      exact ⟨by_contra fun hk => by simp [Token.opens_of_kind_ne hk] at hi, by simp [hi, hij]⟩
    · rw [ht, Option.any_some] at hi
      have hno : t.opens = false := by
        cases ho : t.opens with
        | false => rfl
        | true => rw [Token.closes_eq_false_of_opens ho] at hi; cases hi
      exact ⟨by_contra fun hk => by simp [Token.closes_of_kind_ne hk] at hi,
        by simp [hno]; omega⟩

theorem exists_token {s : Script} {i : Nat} (h : i < s.size) : ∃ t, s.tokens[i]? = some t :=
  ⟨_, Array.getElem?_eq_getElem h⟩

theorem isName_iff {s : Script} {i : Nat} {t : Token} (h : s.tokens[i]? = some t) :
    s.isName i = true ↔ t.kind = .name := by
  simp [isName, kind?, h]

theorem isName_eq_false_of_le {s : Script} {i : Nat} (h : s.size ≤ i) : s.isName i = false := by
  simp [isName, kind?, Array.getElem?_eq_none h]

theorem patternEnd_of_le {s : Script} {i : Nat} (h : s.size ≤ i) : s.patternEnd i = i := by
  simp [patternEnd, isPunct, Array.getElem?_eq_none h, Nat.not_lt.2 h]

theorem stop_le_of_mem_spansFrom {s : Script} {stop start i : Nat} {e : Span}
    (h : e ∈ s.spansFrom stop start i) : e.stop ≤ stop := by
  fun_induction spansFrom s stop start i with
  | case1 start i hlt _ ih =>
    rcases List.mem_cons.1 h with rfl | h
    · exact Nat.le_of_lt hlt
    · exact ih h
  | case2 start i _ _ ih => exact ih h
  | case3 start i _ =>
    rw [List.mem_singleton] at h
    subst h
    exact Nat.le_refl _

theorem isPunct_bodyStart {s : Script} {i : Nat} (h : s.bodyStart i < s.size) :
    s.isPunct (s.bodyStart i) "\x7b" = true := by
  fun_induction bodyStart s i with
  | case1 i _ hcurly => exact hcurly
  | case2 i _ _ ih => exact ih h
  | case3 i hge => exact absurd h hge

theorem opensMethod_succ {s : Script} {j : Nat} {t : Token} (h : s.tokens[j]? = some t) :
    s.opensMethod (j + 1) =
      (!(t.kind ∉ [TokenKind.name, .keyword, .string, .number] || t.text ∈ blockHeads)
        && !(s.textBefore (j + 1) 2 = "function"
          || s.textBefore (j + 1) 2 = "*" && s.textBefore (j + 1) 3 = "function")
        && !(2 ≤ j + 1 && s.textBefore (j + 1) 2 ∉ memberLeads)) := by
  have hbefore : s.before? (j + 1) = some t := h
  have hlt : (decide (j + 1 < 2) : Bool) = !decide (2 ≤ j + 1) := by
    rw [← decide_not, decide_eq_decide]
    exact Nat.not_le.symm
  simp only [opensMethod, hbefore, hlt, Bool.not_or, Bool.not_and, decide_not, Bool.not_not, bne,
    Bool.beq_eq_decide_eq, Bool.and_assoc]

/-! ## Groups -/

section Groups

variable {α : Type} {s : Script} {i j : Nat} {t : Token} {a : α} {ms : List Mark}

theorem partner?_of_one_lt_extent (h : 1 < s.extent i) : s.partner? i = some (s.lastOf i) := by
  unfold lastOf
  unfold extent at h ⊢
  split at h
  case h_1 j hj =>
    simp only [hj, Option.some.injEq]
    omega
  case h_2 => omega

theorem lastOf_add_one (s : Script) (i : Nat) : s.lastOf i + 1 = i + s.extent i := by
  have := s.extent_pos i
  unfold lastOf
  omega

theorem Says.partnerOf_of_one_lt (h : 1 < s.extent i) :
    s.Says (s.partnerOf i) (s.lastOf i) [] :=
  .partnerOf (partner?_of_one_lt_extent h)

theorem one_lt_extent_iff (hp : s.partner? i = some j) : 1 < s.extent i ↔ i < j := by
  rw [extent, hp]
  dsimp only
  omega

theorem says_gatherName (i : Nat) :
    s.Says (s.gatherName i) (s.isName i) (if s.isName i then [.declares i] else []) := by
  unfold gatherName
  split
  case isTrue h =>
    have ht : s.tokens[i]? = some s.tokens[i] := Array.getElem?_eq_getElem h
    refine (Says.tokenAt ht).quiet_bind ?_
    by_cases hk : s.tokens[i].kind = .name
    · rw [if_pos hk, (isName_iff ht).2 hk, if_pos rfl]
      exact (Says.declare ht).bind_quiet (.pure true)
    · rw [if_neg hk, Bool.eq_false_iff.2 (mt (isName_iff ht).1 hk)]
      exact .pure false
  case isFalse h =>
    rw [isName_eq_false_of_le (Nat.le_of_not_lt h)]
    exact .pure false

theorem says_beginsStatement (ht : s.tokens[i]? = some t) :
    s.Says (s.beginsStatement i) (s.startsStatement i t) [] := by
  unfold beginsStatement startsStatement
  cases i with
  | zero => exact .pure true
  | succ i =>
    have hlt := (Array.getElem?_eq_some_iff.1 ht).1
    have hprev : s.tokens[i]? = some s.tokens[i] := Array.getElem?_eq_getElem (by omega)
    rw [if_neg (Nat.succ_ne_zero i), before?, hprev]
    refine (Says.tokenAt hprev).quiet_bind ((Says.tokenAt ht).quiet_bind ?_)
    dsimp only
    split
    · exact .pure false
    · cases s.tokens[i].kind <;> exact .pure _

theorem says_stopsValue (ht : s.tokens[i]? = some t) :
    s.Says (s.stopsValue i t) (s.endsValue i t) [] := by
  unfold stopsValue endsValue
  cases t.kind
  case punctuator => exact .pure _
  case keyword =>
    dsimp only
    split
    case isTrue h =>
      rw [h, Bool.true_or]
      exact .pure true
    case isFalse h =>
      rw [Bool.eq_false_iff.2 h, Bool.false_or]
      split
      case isTrue hk =>
        rw [decide_eq_true hk, Bool.true_and]
        exact says_beginsStatement ht
      case isFalse hk =>
        rw [decide_eq_false hk, Bool.false_and]
        exact .pure false
  all_goals exact .pure false

theorem opens_eq_false_of_endsValue (h : s.endsValue i t = true) : t.opens = false := by
  unfold endsValue at h
  split at h
  case h_1 =>
    simp only [Bool.or_eq_true, beq_iff_eq] at h
    rcases h with (h | h) | h
    · simp [Token.opens, h, Bracket.ofOpener?]
    · simp [Token.opens, h, Bracket.ofOpener?]
    · cases ho : t.opens with
      | false => rfl
      | true => rw [Token.closes_eq_false_of_opens ho] at h; cases h
  case h_2 hk => exact Token.opens_of_kind_ne (by simp [hk])
  case h_3 => cases h

/-- What going over the inner patterns of an entry says, if going over patterns behind `i` says
what these say. -/
theorem says_gatherItem {e : Span}
    (ih : ∀ j, i < j → s.Says (s.gatherPattern j) (s.patternEnd j) (s.patternMarks j))
    (h : i < e.start) : s.Says (s.gatherItem e) () (s.partMarks (s.listPart e)) := by
  rw [gatherItem]
  unfold partMarks listPart
  dsimp only
  generalize hj : (if s.isPunct e.start "..." then e.start + 1 else e.start) = j
  have hlt : i < j := by split at hj <;> omega
  split
  · exact (ih j hlt).bind_quiet (.pure ())
  · exact .pure ()

namespace Ordered

variable (hs : s.Ordered)

include hs

theorem opens_and_paired (ht : s.tokens[i]? = some t) :
    (t.opens && s.paired i) = decide (1 < s.extent i) := by
  cases hp : s.partner? i with
  | none => simp [paired, extent, hp]
  | some j =>
    rw [Bool.eq_iff_iff, decide_eq_true_iff, one_lt_extent_iff hp, ← (hs.opens_iff hp ht).2]
    simp [paired, hp]

theorem says_beginsGroup (i : Nat) : s.Says (s.beginsGroup i) (decide (1 < s.extent i)) [] := by
  unfold beginsGroup
  split
  case isTrue h =>
    obtain ⟨j, hj⟩ := Option.isSome_iff_exists.1 h
    have ht := Array.getElem?_eq_getElem (hs.lt_size hj).1
    refine (Says.tokenAt ht).quiet_bind ?_
    have hgroup := hs.opens_and_paired ht
    rw [h, Bool.and_true] at hgroup
    rw [← hgroup, Token.opens, (hs.opens_iff hj ht).1]
    exact .pure _
  case isFalse h =>
    have hone : s.extent i = 1 := by
      simp only [paired, Option.not_isSome_iff_eq_none] at h
      rw [extent, h]
    rw [hone]
    exact .pure false

omit hs in
theorem says_pass {k : Nat → Gather α} {m : Gather α}
    (hgroup : 1 < s.extent i → s.Says (k (i + s.extent i)) a ms)
    (hsingle : s.extent i = 1 → s.Says m a ms) :
    s.Says (if decide (1 < s.extent i) then do k ((← s.partnerOf i) + 1) else m) a ms := by
  by_cases h : 1 < s.extent i
  · rw [if_pos (decide_eq_true h)]
    refine (Says.partnerOf_of_one_lt h).quiet_bind ?_
    rw [lastOf_add_one]
    exact hgroup h
  · rw [if_neg (by simpa using h)]
    have := s.extent_pos i
    exact hsingle (by omega)

theorem extent_eq_one {p : String} (h : s.isPunct i p = true) (hp : Bracket.ofOpener? p = none) :
    s.extent i = 1 := by
  obtain ⟨t, ht, -, rfl⟩ := exists_token_of_isPunct h
  have hgroup := hs.opens_and_paired ht
  have := s.extent_pos i
  simp [Token.opens, hp] at hgroup
  omega

theorem getD_partner? {p : String} (h : s.isPunct i p = true)
    (hp : (Bracket.ofOpener? p).isSome = true) : (s.partner? i).getD i = s.lastOf i := by
  obtain ⟨t, ht, hk, rfl⟩ := exists_token_of_isPunct h
  cases hpart : s.partner? i with
  | none => simp [lastOf, extent, hpart]
  | some j =>
    have hij := (hs.opens_iff hpart ht).2.1 (by simp [Token.opens, hk, hp])
    rw [← one_lt_extent_iff hpart] at hij
    rw [← hpart, partner?_of_one_lt_extent hij]
    rfl

theorem says_gatherSpans (stop start i : Nat) :
    s.Says (s.gatherSpans stop start i) (s.spansFrom stop start i) [] := by
  fun_induction spansFrom s stop start i with
  | case1 start i hlt hcomma ih =>
    rw [gatherSpans, if_pos hlt]
    refine (hs.says_beginsGroup i).quiet_bind (says_pass ?_ ?_)
    · rw [hs.extent_eq_one hcomma rfl]
      exact fun h => absurd h (Nat.lt_irrefl 1)
    · intro _
      rw [if_pos hcomma]
      exact ih.quiet_bind (.pure _)
  | case2 start i hlt hcomma ih =>
    rw [gatherSpans, if_pos hlt]
    refine (hs.says_beginsGroup i).quiet_bind (says_pass (fun _ => ih) fun hone => ?_)
    rw [if_neg hcomma, ← hone]
    exact ih
  | case3 start i hlt =>
    rw [gatherSpans, if_neg hlt]
    exact .pure _

theorem says_gatherEntries (i : Nat) : s.Says (s.gatherEntries i) (s.entriesOf i) [] := by
  -- a token that begins no group has no entries, even if it closes one
  have hempty (stop : Nat) (h : stop ≤ i) :
      (s.spansFrom stop (i + 1) (i + 1)).filter (fun e => e.start < e.stop) = [] := by
    rw [spansFrom, if_neg (by omega)]
    simp; omega
  have hentries : (s.spansFrom ((s.partner? i).getD i) (i + 1) (i + 1)).filter
      (fun e => e.start < e.stop) = s.entriesOf i := by
    by_cases h : 1 < s.extent i
    · rw [partner?_of_one_lt_extent h]
      rfl
    · have hone := s.extent_pos i
      rw [entriesOf, hempty (s.lastOf i) (by unfold lastOf; omega)]
      apply hempty
      cases hp : s.partner? i with
      | none => exact Nat.le_refl i
      | some j =>
        rw [one_lt_extent_iff hp] at h
        exact Nat.le_of_not_lt h
  rw [← hentries]
  exact (hs.says_gatherSpans _ _ _).quiet_bind (.pure _)

theorem stop_lt_of_mem_entriesOf {e : Span} (h : e ∈ s.entriesOf i) :
    e.start < e.stop ∧ e.stop < s.size := by
  obtain ⟨hspan, hne⟩ := List.mem_filter.1 h
  have hne : e.start < e.stop := by simpa using hne
  have hlt := lt_start_of_mem_entriesOf h
  have hstop := stop_le_of_mem_spansFrom hspan
  have hgroup : 1 < s.extent i := by
    have := lastOf_add_one s i
    omega
  have := (hs.lt_size (partner?_of_one_lt_extent hgroup)).2
  exact ⟨hne, by omega⟩

/-! ## Patterns -/

theorem says_gatherField {e : Span}
    (ih : ∀ j, i < j → s.Says (s.gatherPattern j) (s.patternEnd j) (s.patternMarks j))
    (h : e ∈ s.entriesOf i) : s.Says (s.gatherField e) () (s.partMarks (s.objectPart e)) := by
  have hlt := lt_start_of_mem_entriesOf h
  obtain ⟨hne, hstop⟩ := hs.stop_lt_of_mem_entriesOf h
  obtain ⟨t, ht⟩ := exists_token (Nat.lt_trans hne hstop)
  rw [gatherField]
  unfold partMarks objectPart
  split
  · exact (ih _ (by omega)).bind_quiet (.pure ())
  split
  case isTrue hsquare =>
    rw [hs.getD_partner? hsquare rfl]
    dsimp only
    split
    · exact (ih _ (by have := s.le_lastOf e.start; omega)).bind_quiet (.pure ())
    · exact .pure ()
  case isFalse =>
    split
    · exact (Says.silence _).bind ((ih _ (by omega)).bind_quiet (.pure ()))
    · refine (Says.tokenAt ht).quiet_bind ?_
      by_cases hk : t.kind = .name
      · rw [if_pos hk, if_pos ((isName_iff ht).2 hk)]
        exact .declare ht
      · rw [if_neg hk, if_neg (mt (isName_iff ht).1 hk)]
        exact .pure ()

/-- A bracket that opens a pattern and has a partner: its entries, and the index behind it. -/
theorem says_bracketPattern (ht : s.tokens[i]? = some t)
    (hb : (t.isPunct "\x7b" || t.isPunct "[") = true) (hpair : s.paired i = true)
    (ih : ∀ j, i < j → s.Says (s.gatherPattern j) (s.patternEnd j) (s.patternMarks j)) :
    s.Says (do
      (← s.gatherEntries i).forM fun e =>
        if t.text = "\x7b" then s.gatherField e else s.gatherItem e
      return (← s.partnerOf i) + 1)
      (i + s.extent i) ((s.patternParts i).flatMap s.partMarks) := by
  have hopens : t.opens = true := by
    simp only [Token.isPunct, Bool.or_eq_true, Bool.and_eq_true, beq_iff_eq] at hb
    rcases hb with ⟨hk, htext⟩ | ⟨hk, htext⟩ <;> simp [Token.opens, hk, htext, Bracket.ofOpener?]
  have hgroup : 1 < s.extent i := by
    simpa [hopens, hpair] using hs.opens_and_paired ht
  have hbehind : s.Says (do return (← s.partnerOf i) + 1) (i + s.extent i) [] := by
    rw [← lastOf_add_one]
    exact (Says.partnerOf_of_one_lt hgroup).quiet_bind (.pure _)
  have hpunct (p : String) : s.isPunct i p = t.isPunct p := by rw [isPunct, ht, Option.any_some]
  refine (hs.says_gatherEntries i).quiet_bind (Says.bind_quiet (a := ()) ?_ hbehind)
  rw [patternParts, if_pos hpair, hpunct, hpunct]
  by_cases hcurly : t.isPunct "\x7b" = true
  · have htext : t.text = "\x7b" := beq_iff_eq.1 (Bool.and_eq_true_iff.1 hcurly).2
    simp only [if_pos hcurly, if_pos htext, List.flatMap_map]
    exact .forM fun e he => hs.says_gatherField ih he
  · rw [Bool.eq_false_iff.2 hcurly, Bool.false_or] at hb
    have htext : t.text = "[" := beq_iff_eq.1 (Bool.and_eq_true_iff.1 hb).2
    simp only [if_neg hcurly, if_pos hb, htext, List.flatMap_map]
    exact .forM fun e he => says_gatherItem ih (lt_start_of_mem_entriesOf he)

theorem says_gatherPattern (i : Nat) :
    s.Says (s.gatherPattern i) (s.patternEnd i) (s.patternMarks i) := by
  generalize hn : s.size - i = n
  induction n using Nat.strongRecOn generalizing i with
  | ind n ih =>
    rw [gatherPattern, patternMarks_eq]
    by_cases hlt : i < s.size
    case neg =>
      rw [if_neg hlt, if_neg hlt, patternEnd_of_le (Nat.le_of_not_lt hlt)]
      exact .pure i
    have ht : s.tokens[i]? = some s.tokens[i] := Array.getElem?_eq_getElem hlt
    generalize s.tokens[i] = t at ht
    have hpunct (p : String) : s.isPunct i p = t.isPunct p := by
      rw [isPunct, ht, Option.any_some]
    rw [if_pos hlt, if_pos hlt, patternEnd, hpunct, hpunct, if_pos hlt]
    refine (Says.tokenAt ht).quiet_bind ?_
    by_cases hk : t.kind = .name
    case pos =>
      rw [if_pos hk, if_pos ((isName_iff ht).2 hk)]
      simp only [Token.isPunct, hk]
      exact (Says.declare ht).bind_quiet (.pure (i + 1))
    rw [if_neg hk, if_neg (mt (isName_iff ht).1 hk)]
    by_cases hb : (t.isPunct "\x7b" || t.isPunct "[") = true
    case neg =>
      have hparts : s.patternParts i = [] := by
        rw [Bool.not_eq_true, Bool.or_eq_false_iff] at hb
        simp [patternParts, hpunct, hb]
      rw [if_neg hb, if_pos (by simp [Bool.eq_false_iff.2 hb]), hparts]
      exact .pure (i + 1)
    rw [if_pos hb]
    by_cases hpair : s.paired i = true
    case neg =>
      have hone : s.extent i = 1 := by
        rw [paired, Option.not_isSome_iff_eq_none] at hpair
        rw [extent, hpair]
      rw [if_pos (by simp [Bool.eq_false_iff.2 hpair]), patternParts, if_neg hpair, hone]
      exact .pure (i + 1)
    rw [if_neg (by simp [hb, hpair])]
    exact hs.says_bracketPattern ht hb hpair fun j hj => ih (s.size - j) (by omega) j rfl

theorem says_gatherParameters (i : Nat) :
    s.Says (s.gatherParameters i) () (s.parameterMarks i) := by
  rw [gatherParameters, parameterMarks_eq, List.flatMap_map]
  refine (hs.says_gatherEntries i).quiet_bind (.forM fun e he => ?_)
  exact says_gatherItem (fun j _ => hs.says_gatherPattern j) (lt_start_of_mem_entriesOf he)

/-! ## Declarators -/

theorem says_gatherValue (i : Nat) : s.Says (s.gatherValue i) (s.valueEnd i) [] := by
  fun_induction valueEnd s i with
  | case1 i hnone =>
    rw [gatherValue, if_neg (by simpa [size] using hnone)]
    exact .pure i
  | case2 i t ht hends =>
    have hlt : i < s.size := (Array.getElem?_eq_some_iff.1 ht).1
    rw [gatherValue, if_pos hlt]
    refine (Says.tokenAt ht).quiet_bind ?_
    rw [if_neg (by simp [opens_eq_false_of_endsValue hends])]
    refine (says_stopsValue ht).quiet_bind ?_
    rw [if_pos hends]
    exact .pure i
  | case3 i t ht hends ih =>
    have hlt : i < s.size := (Array.getElem?_eq_some_iff.1 ht).1
    rw [gatherValue, if_pos hlt]
    refine (Says.tokenAt ht).quiet_bind ?_
    rw [hs.opens_and_paired ht]
    refine says_pass (fun _ => ih) fun hone => (says_stopsValue ht).quiet_bind ?_
    rw [if_neg hends, ← hone]
    exact ih

theorem says_gatherDeclarator (i : Nat) :
    s.Says (s.gatherDeclarator i) (s.declaratorEnd i) (s.patternMarks i) := by
  refine (hs.says_gatherPattern i).bind_quiet ?_
  unfold declaratorEnd
  dsimp only
  split
  · exact hs.says_gatherValue _
  · exact .pure _

theorem says_gatherDeclarators (i : Nat) :
    s.Says (s.gatherDeclarators i) () (s.declaratorMarks i) := by
  fun_induction declaratorMarks s i with
  | case1 i hlt j ih =>
    rw [gatherDeclarators, if_pos hlt]
    refine (hs.says_gatherDeclarator i).bind ?_
    split
    · exact ih
    · exact .pure ()
  | case2 i hlt =>
    rw [gatherDeclarators, if_neg hlt]
    exact .pure ()

/-! ## Functions, classes and methods -/

theorem says_gatherFunction (i : Nat) : s.Says (s.gatherFunction i) () (s.functionMarks i) := by
  unfold gatherFunction functionMarks
  refine (says_gatherName _).bind ?_
  dsimp only
  generalize (if s.isName _ = true then _ else _) = k
  split
  · exact hs.says_gatherParameters k
  · exact .pure ()

theorem says_gatherBody (i : Nat) : s.Says (s.gatherBody i) (s.bodyStart i) [] := by
  fun_induction bodyStart s i with
  | case1 i hlt hcurly =>
    rw [gatherBody, if_pos hlt, if_pos hcurly]
    exact .pure i
  | case2 i hlt hcurly ih =>
    rw [gatherBody, if_pos hlt, if_neg hcurly]
    refine (hs.says_beginsGroup i).quiet_bind (says_pass (fun _ => ih) fun hone => ?_)
    rw [← hone]
    exact ih
  | case3 i hlt =>
    rw [gatherBody, if_neg hlt]
    exact .pure i

theorem says_gatherMembers {stop : Nat} (hstop : stop ≤ s.size) (i : Nat) :
    s.Says (s.gatherMembers stop i) () (s.memberMarks stop i) := by
  fun_induction memberMarks s stop i with
  | case1 i hlt ih =>
    obtain ⟨t, ht⟩ := exists_token (Nat.lt_of_lt_of_le hlt hstop)
    have hmember : s.isMemberName i =
        (t.kind = .name && (s.textBefore i 1 ∈ memberLeads || (s.before? i).any (·.isPunct "#"))
          && s.text (i + 1) ∈ memberTrails) := by
      rw [isMemberName, Bool.eq_iff_iff.2 ((isName_iff ht).trans decide_eq_true_iff.symm)]
    rw [gatherMembers, if_pos hlt]
    refine (Says.tokenAt ht).quiet_bind ?_
    rw [hs.opens_and_paired ht]
    refine says_pass (fun hgroup => ?_) fun hone => ?_
    · -- a bracket is no name
      have hopens : t.opens = true := by
        have := hs.opens_and_paired ht
        rw [decide_eq_true hgroup, Bool.and_eq_true] at this
        exact this.1
      have hk : t.kind ≠ .name := fun hk => by simp [Token.opens, hk] at hopens
      rw [hmember, decide_eq_false hk, Bool.false_and]
      exact ih
    · rw [← hone]
      refine Says.bind (a := ()) ?_ ih
      rw [hmember, gatherMember]
      split
      · exact .silence i
      · exact .pure ()
  | case2 i hlt =>
    rw [gatherMembers, if_neg hlt]
    exact .pure ()

theorem says_gatherClass (i : Nat) : s.Says (s.gatherClass i) () (s.classMarks i) := by
  unfold gatherClass classMarks
  refine (says_gatherName _).bind ((hs.says_gatherBody _).quiet_bind ?_)
  split
  case isTrue h =>
    obtain ⟨j, hj⟩ := Option.isSome_iff_exists.1 h
    obtain ⟨hlt, hle⟩ := hs.lt_size hj
    have hlast := hs.getD_partner? (isPunct_bodyStart hlt) rfl
    rw [hj, Option.getD_some] at hlast
    rw [← hlast]
    exact (Says.partnerOf hj).quiet_bind (hs.says_gatherMembers (Nat.le_of_lt hle) _)
  case isFalse => exact .pure ()

theorem says_gatherArrow (hlt : i < s.size) : s.Says (s.gatherArrow i) () (s.arrowMarks i) := by
  unfold gatherArrow arrowMarks
  cases i with
  | zero => exact .pure ()
  | succ j =>
    obtain ⟨t, ht⟩ := exists_token (Nat.lt_of_succ_lt hlt)
    rw [if_neg (Nat.succ_ne_zero j), Nat.add_sub_cancel]
    refine (Says.tokenAt ht).quiet_bind ?_
    dsimp only
    by_cases hk : t.kind = .name
    · rw [if_pos hk, if_pos ((isName_iff ht).2 hk)]
      exact .declare ht
    rw [if_neg hk, if_neg (mt (isName_iff ht).1 hk)]
    by_cases hclose : s.isPunct j ")" = true
    · rw [if_pos hclose, hclose, Bool.true_and, paired]
      cases hp : s.partner? j with
      | none => exact .pure ()
      | some o => exact (Says.partnerOf hp).quiet_bind (hs.says_gatherParameters o)
    · rw [if_neg hclose, Bool.eq_false_iff.2 hclose, Bool.false_and]
      exact .pure ()

theorem says_gatherMethod (i : Nat) : s.Says (s.gatherMethod i) () (s.methodMarks i) := by
  unfold gatherMethod methodMarks
  cases hp : s.partner? i with
  | none => exact .pure ()
  | some o =>
    cases o with
    | zero => exact .pure ()
    | succ j =>
      obtain ⟨t, ht⟩ := exists_token (Nat.lt_of_succ_lt (hs.lt_size hp).2)
      refine (Says.tokenAt ht).quiet_bind ?_
      have hparams : s.Says (do silence j; s.gatherParameters (j + 1)) ()
          (.silences j :: s.parameterMarks (j + 1)) :=
        (Says.silence j).bind (hs.says_gatherParameters (j + 1))
      dsimp only
      rw [opensMethod_succ ht]
      split
      case isTrue h =>
        rw [h]
        exact .pure ()
      case isFalse h₁ =>
        split
        case isTrue h =>
          rw [h, Bool.not_true, Bool.and_false, Bool.false_and]
          exact .pure ()
        case isFalse h₂ =>
          split
          case isTrue h =>
            rw [h, Bool.not_true, Bool.and_false]
            exact .pure ()
          case isFalse h₃ =>
            rw [Bool.eq_false_iff.2 h₁, Bool.eq_false_iff.2 h₂, Bool.eq_false_iff.2 h₃]
            exact hparams

/-! ## Imports and exports -/

theorem says_gatherImported {e : Span} (h : e ∈ s.entriesOf i) :
    s.Says (s.gatherImported e) () (s.importedMarks e) := by
  obtain ⟨hne, hstop⟩ := hs.stop_lt_of_mem_entriesOf h
  unfold gatherImported importedMarks
  split
  case isTrue hc =>
    simp only [Bool.and_eq_true, decide_eq_true_eq] at hc
    obtain ⟨t, ht⟩ := exists_token (show e.start + 2 < s.size by omega)
    rw [if_pos (by simpa using hc)]
    exact (Says.silence _).bind ((Says.tokenAt ht).quiet_bind (.declare ht))
  case isFalse hc =>
    obtain ⟨t, ht⟩ := exists_token (Nat.lt_trans hne hstop)
    rw [if_neg (by simpa using hc)]
    refine (Says.tokenAt ht).quiet_bind ?_
    by_cases hk : t.kind = .name
    · rw [if_pos hk, if_pos ((isName_iff ht).2 hk)]
      exact .declare ht
    · rw [if_neg hk, if_neg (mt (isName_iff ht).1 hk)]
      exact .pure ()

omit hs in
theorem says_gatherAlias (i : Nat) :
    s.Says (s.gatherAlias i) () (if i < s.size then [.declares i] else []) := by
  unfold gatherAlias
  split
  case isTrue h =>
    obtain ⟨t, ht⟩ := exists_token h
    exact (Says.tokenAt ht).quiet_bind (.declare ht)
  case isFalse => exact .pure ()

theorem says_gatherImportFrom (i : Nat) :
    s.Says (s.gatherImportFrom i) () (s.importMarksFrom i) := by
  have lt {i : Nat} {t : Token} (ht : s.tokens[i]? = some t) : i < s.size :=
    (Array.getElem?_eq_some_iff.1 ht).1
  fun_induction importMarksFrom s i with
  | case1 i hnone =>
    rw [gatherImportFrom, if_neg (by simpa [size] using hnone)]
    exact .pure ()
  | case2 i t ht hk hfrom =>
    rw [gatherImportFrom, if_pos (lt ht)]
    refine (Says.tokenAt ht).quiet_bind ?_
    rw [if_pos (by simp [hk, hfrom])]
    exact .pure ()
  | case3 i t ht hk hfrom ih =>
    rw [gatherImportFrom, if_pos (lt ht)]
    refine (Says.tokenAt ht).quiet_bind ?_
    rw [if_neg (by simp [hfrom]), if_neg (by simp [hk, Token.isPunct]), if_pos hk]
    exact (Says.declare ht).bind ih
  | case4 i t ht hk hend =>
    rw [gatherImportFrom, if_pos (lt ht)]
    refine (Says.tokenAt ht).quiet_bind ?_
    rw [if_neg (by simp [hk]), if_pos hend]
    exact .pure ()
  | case5 i t ht hk hend has ih =>
    rw [gatherImportFrom, if_pos (lt ht)]
    refine (Says.tokenAt ht).quiet_bind ?_
    rw [if_neg (by simp [hk]), if_neg hend, if_neg hk, if_pos has]
    exact (says_gatherAlias (i + 2)).bind ih
  | case6 i t ht hk hend has hcurly ih =>
    rw [gatherImportFrom, if_pos (lt ht)]
    refine (Says.tokenAt ht).quiet_bind ?_
    rw [if_neg (by simp [hk]), if_neg hend, if_neg hk, if_neg has, hcurly, Bool.true_and]
    split
    case isTrue hpair =>
      have hpunct : s.isPunct i "\x7b" = true := by rw [isPunct, ht, Option.any_some, hcurly]
      obtain ⟨j, hj⟩ := Option.isSome_iff_exists.1 hpair
      have hlast := hs.getD_partner? hpunct rfl
      rw [hj, Option.getD_some] at hlast
      rw [← lastOf_add_one, ← hlast] at ih ⊢
      refine (hs.says_gatherEntries i).quiet_bind (Says.bind (a := ()) ?_ ?_)
      · exact .forM fun e he => hs.says_gatherImported he
      · exact (Says.partnerOf hj).quiet_bind ih
    case isFalse hpair =>
      have hone : s.extent i = 1 := by
        rw [paired, Option.not_isSome_iff_eq_none] at hpair
        rw [extent, hpair]
      rw [hone] at ih ⊢
      exact ih
  | case7 i t ht hk hend has hcurly ih =>
    rw [gatherImportFrom, if_pos (lt ht)]
    refine (Says.tokenAt ht).quiet_bind ?_
    rw [if_neg (by simp [hk]), if_neg hend, if_neg hk, if_neg has, if_neg (by simp [hcurly])]
    exact ih

theorem says_gatherImport (i : Nat) : s.Says (s.gatherImport i) () (s.importMarks i) := by
  unfold gatherImport importMarks
  split
  · exact .pure ()
  · exact hs.says_gatherImportFrom _

omit hs in
theorem says_gatherEntry (provided : Bool) (e : Span) :
    s.Says (s.gatherEntry provided e) ()
      (s.exportedMarks e ++ if provided then [.silences e.start] else []) := by
  have hexported : s.Says (s.gatherExported e) () (s.exportedMarks e) := by
    unfold gatherExported exportedMarks
    split
    case isTrue h =>
      rw [if_pos (by simpa using h)]
      exact .silence _
    case isFalse h =>
      rw [if_neg (by simpa using h)]
      exact .pure ()
  refine hexported.bind ?_
  cases provided with
  | true => exact .silence _
  | false => exact .pure ()

theorem says_gatherExport (i : Nat) : s.Says (s.gatherExport i) () (s.exportMarks i) := by
  unfold gatherExport exportMarks
  dsimp only
  split
  case isTrue =>
    split
    case isTrue h =>
      rw [if_pos (by simpa using h)]
      exact .silence _
    case isFalse h =>
      rw [if_neg (by simpa using h)]
      exact .pure ()
  case isFalse =>
    split
    case isTrue h =>
      obtain ⟨hcurly, hpair⟩ := Bool.and_eq_true_iff.1 h
      obtain ⟨j, hj⟩ := Option.isSome_iff_exists.1 hpair
      have hlast := hs.getD_partner? hcurly rfl
      rw [hj, Option.getD_some] at hlast
      rw [← hlast, Bool.beq_eq_decide_eq]
      refine (Says.partnerOf hj).quiet_bind ((hs.says_gatherEntries _).quiet_bind ?_)
      exact .forM fun e _ => says_gatherEntry _ e
    case isFalse => exact .pure ()

/-! ## The pass -/

theorem says_gatherAt (hlt : i < s.size) : s.Says (s.gatherAt i) () (s.marksAt i) := by
  obtain ⟨t, ht⟩ := exists_token hlt
  unfold gatherAt marksAt
  rw [ht]
  refine (Says.tokenAt ht).quiet_bind ?_
  dsimp only
  cases t.kind
  case keyword =>
    dsimp only
    split
    · exact hs.says_gatherDeclarators _
    split
    · exact hs.says_gatherFunction i
    split
    · exact hs.says_gatherClass i
    by_cases hcatch : t.text = "catch"
    · rw [if_pos hcatch, decide_eq_true hcatch, Bool.true_and]
      split
      · exact hs.says_gatherParameters _
      · rw [if_neg (by rw [hcatch]; decide), if_neg (by rw [hcatch]; decide)]
        exact .pure ()
    · rw [if_neg hcatch, if_neg (by simp [hcatch])]
      split
      · exact hs.says_gatherImport i
      split
      · exact hs.says_gatherExport i
      · exact .pure ()
  case punctuator =>
    dsimp only
    split
    · exact hs.says_gatherArrow hlt
    split
    · exact hs.says_gatherMethod i
    · exact .pure ()
  all_goals exact .pure ()

theorem says_gather : s.Says s.gather () s.marks :=
  .forM fun _ hi => hs.says_gatherAt (List.mem_range.1 hi)

end Ordered

end Groups

/-- Whatever the tokens are, a pass over them ends without a misstep. Every token that it finds to
declare a name is there, and the names are the texts of these tokens; and it finds what the script
declares. -/
theorem gathered_ofTokens (ts : List Token) :
    ∃ g, (ofTokens ts).gathered = some (.ok g) ∧ (∀ i ∈ g.declared, i < ts.length) ∧
      (∀ name, name ∈ g.names ↔ ∃ i ∈ g.declared, (ts[i]?).map Token.text = some name) ∧
      g.names = (ofTokens ts).declaredNames ∧
      (⟨g.declared, g.silent⟩ : Declarations) = (ofTokens ts).declarations := by
  obtain ⟨hrun, hinside⟩ := (ordered_ofTokens ts).says_gather
  have hsize : (ofTokens ts).size = ts.length := by simp [size, ofTokens]
  have hlt : ∀ i ∈ (ofTokens ts).declarations.declared, i < ts.length := by
    intro i hi
    rw [← hsize]
    exact hinside i (Declarations.mem_declared_ofMarks.1 hi)
  refine ⟨⟨(ofTokens ts).declaredNames, (ofTokens ts).declarations.declared,
    (ofTokens ts).declarations.silent⟩, ?_, hlt, ?_, rfl, rfl⟩
  · rw [gathered, hrun]
    rfl
  · intro name
    rw [declaredNames, List.mem_map]
    constructor
    · rintro ⟨i, hi, rfl⟩
      refine ⟨i, hi, ?_⟩
      rw [text, tokens_ofTokens, List.getElem?_eq_getElem (hlt i hi)]
      rfl
    · rintro ⟨i, hi, htext⟩
      refine ⟨i, hi, ?_⟩
      rw [text, tokens_ofTokens, htext]
      rfl

end Script

end MdxLint
