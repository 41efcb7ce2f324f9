import MdxLint.Proofs.Script.Gathered
import MdxLint.Proofs.Script.Retold

/-! # A script among others

A script may stand in a longer one, parted by semicolons from what is before and behind it. Nothing
that the analysis looks back or ahead for is found beyond a semicolon, so that the script says there
of its tokens what it says alone, if only the indices are moved.
-/

namespace MdxLint

def Mark.shift (n : Nat) : Mark → Mark
  | .declares i => .declares (n + i)
  | .silences i => .silences (n + i)

theorem Mark.shift_zero : Mark.shift 0 = id := by
  funext m
  cases m <;> simp [Mark.shift]

theorem Mark.index_shift (n : Nat) (m : Mark) : (m.shift n).index = n + m.index := by
  cases m <;> rfl

def Span.shift (n : Nat) (e : Span) : Span := ⟨n + e.start, n + e.stop⟩

def PatternPart.shift (n : Nat) (p : PatternPart) : PatternPart :=
  ⟨p.marks.map (Mark.shift n), p.inner.map (n + ·)⟩

namespace Script

/-- The marks of the second list are those of the first one, moved by `n` tokens, and none of these
is about a token beyond the end of the script. -/
structure Shifted (s : Script) (n : Nat) (ms ms' : List Mark) : Prop where
  eq : ms' = ms.map (Mark.shift n)
  within : ∀ m ∈ ms, m.index ≤ s.size

namespace Shifted

variable {s : Script} {n i : Nat} {ms ms' ls ls' : List Mark}

theorem nil : s.Shifted n [] [] := ⟨rfl, nofun⟩

theorem declares (hi : i ≤ s.size) : s.Shifted n [.declares i] [.declares (n + i)] :=
  ⟨rfl, List.forall_mem_singleton.2 hi⟩

theorem silences (hi : i ≤ s.size) : s.Shifted n [.silences i] [.silences (n + i)] :=
  ⟨rfl, List.forall_mem_singleton.2 hi⟩

theorem append (h : s.Shifted n ms ms') (hl : s.Shifted n ls ls') :
    s.Shifted n (ms ++ ls) (ms' ++ ls') := by
  constructor
  · rw [h.eq, hl.eq, List.map_append]
  · exact List.forall_mem_append.2 ⟨h.within, hl.within⟩

theorem ite {b b' : Bool} (hb : b' = b) (h : b = true → s.Shifted n ms ms') :
    s.Shifted n (if b then ms else []) (if b' then ms' else []) := by
  subst hb
  split
  case isTrue hb => exact h hb
  case isFalse => exact nil

theorem flatMap {α : Type} {l : List α} {g : α → α} {f f' : α → List Mark}
    (h : ∀ a ∈ l, s.Shifted n (f a) (f' (g a))) :
    s.Shifted n (l.flatMap f) ((l.map g).flatMap f') := by
  induction l with
  | nil => exact nil
  | cons a l ih =>
    rw [List.forall_mem_cons] at h
    exact h.1.append (ih h.2)

end Shifted

theorem lt_size_of_isPunct {s : Script} {i : Nat} {p : String} (h : s.isPunct i p = true) :
    i < s.size := by
  obtain ⟨t, ht, -⟩ := exists_token_of_isPunct h
  exact (Array.getElem?_eq_some_iff.1 ht).1

theorem lt_size_of_text {s : Script} {i : Nat} (h : s.text i ≠ "") : i < s.size := by
  by_contra hlt
  have hnone : s.tokens[i]? = none := Array.getElem?_eq_none (Nat.le_of_not_lt hlt)
  exact h (by rw [Script.text, hnone]; rfl)

/-- Behind the script, `n` tokens into the other one, stands a semicolon. No construct of the script
looks further for its end, and no declaration goes on there. -/
structure Closed (s c : Script) (n : Nat) : Prop where
  semicolon : c.isPunct (n + s.size) ";" = true
  noValue : c.isPunct (n + s.size + 1) "=" = false
  noMore : c.isPunct (n + s.size + 1) "," = false
  ends : ∀ (i : Nat) (t : Token), s.tokens[i]? = some t → t.kind = .keyword →
    t.text ≠ "class" ∧ t.text ≠ "import"

/-- The script stands in the other one, behind its first `n` tokens. What is before it ends in a
semicolon, and what is behind it begins with one. -/
structure Embeds (s c : Script) (n : Nat) : Prop where
  ordered : s.Ordered
  contents : ∀ i < s.size, c.tokens[n + i]?.map Token.content = s.tokens[i]?.map Token.content
  lines : ∀ (i : Nat) (t u t' u' : Token), s.tokens[i]? = some t → s.tokens[i + 1]? = some u →
    c.tokens[n + i]? = some t' → c.tokens[n + (i + 1)]? = some u' →
    (t'.place.line < u'.place.line ↔ t.place.line < u.place.line)
  partners : ∀ i ≤ s.size, c.partner? (n + i) = (s.partner? i).map (n + ·)
  before : n = 0 ∨ ∃ m, n = m + 1 ∧ c.isPunct m ";" = true
  behind : c.size = n + s.size ∨ s.Closed c n

namespace Embeds

variable {s c : Script} {n i : Nat} (h : s.Embeds c n)

include h

/-! ## Tokens -/

theorem token_cases (hi : i < s.size) : ∃ t t', s.tokens[i]? = some t ∧
    c.tokens[n + i]? = some t' ∧ t'.kind = t.kind ∧ t'.text = t.text := by
  obtain ⟨t, ht⟩ := exists_token hi
  have hcontent := h.contents i hi
  rw [ht, Option.map_some] at hcontent
  obtain ⟨t', ht', heq⟩ := Option.map_eq_some_iff.1 hcontent
  obtain ⟨hkind, htext⟩ := Prod.mk.inj heq
  exact ⟨t, t', ht, ht', hkind, htext⟩

theorem end_cases : c.tokens[n + s.size]? = none ∨
    ∃ t, c.tokens[n + s.size]? = some t ∧ t.kind = .punctuator ∧ t.text = ";" := by
  rcases h.behind with hend | hclosed
  · exact .inl (Array.getElem?_eq_none (Nat.le_of_eq hend))
  · exact .inr (exists_token_of_isPunct hclosed.semicolon)

theorem text (hi : i < s.size) : c.text (n + i) = s.text i := by
  obtain ⟨t, t', ht, ht', -, htext⟩ := h.token_cases hi
  rw [Script.text, Script.text, ht, ht', Option.map_some, Option.map_some, htext]

theorem text_beq {p : String} (hi : i ≤ s.size) (hne : p ≠ "") (hp : p ≠ ";") :
    (c.text (n + i) == p) = (s.text i == p) := by
  obtain hlt | rfl := Nat.lt_or_eq_of_le hi
  · rw [h.text hlt]
  · have hend : s.text s.size = "" := by
      simp [Script.text, Script.size]
    have hend' : c.text (n + s.size) ≠ p := by
      rcases h.end_cases with ht | ⟨t, ht, -, htext⟩
      · simpa [Script.text, ht] using hne.symm
      · simpa [Script.text, ht, htext] using hp.symm
    rw [hend, beq_eq_false_iff_ne.2 hend', beq_eq_false_iff_ne.2 hne.symm]

theorem isName (hi : i ≤ s.size) : c.isName (n + i) = s.isName i := by
  obtain hlt | rfl := Nat.lt_or_eq_of_le hi
  · obtain ⟨t, t', ht, ht', hkind, -⟩ := h.token_cases hlt
    rw [Script.isName, Script.isName, kind?, kind?, ht, ht', Option.map_some, Option.map_some,
      hkind]
  · rw [isName_eq_false_of_le (Nat.le_refl s.size)]
    rcases h.end_cases with ht | ⟨t, ht, hkind, -⟩
    · simp [Script.isName, kind?, ht]
    · simp [Script.isName, kind?, ht, hkind]

theorem isPunct {p : String} (hi : i ≤ s.size) (hp : p ≠ ";") :
    c.isPunct (n + i) p = s.isPunct i p := by
  obtain hlt | rfl := Nat.lt_or_eq_of_le hi
  · obtain ⟨t, t', ht, ht', hkind, htext⟩ := h.token_cases hlt
    rw [Script.isPunct, Script.isPunct, ht, ht', Option.any_some, Option.any_some,
      Token.isPunct_eq hkind htext]
  · have hend : s.isPunct s.size p = false := by
      simp [Script.isPunct, Script.size]
    rw [hend]
    rcases h.end_cases with ht | ⟨t, ht, -, htext⟩
    · simp [Script.isPunct, ht]
    · simp [Script.isPunct, Token.isPunct, ht, htext, hp.symm]

theorem lt_size (hi : i < s.size) : n + i < c.size := by
  obtain ⟨-, t', -, ht', -⟩ := h.token_cases hi
  exact (Array.getElem?_eq_some_iff.1 ht').1

/-! ## Groups -/

theorem paired (hi : i ≤ s.size) : c.paired (n + i) = s.paired i := by
  rw [Script.paired, Script.paired, h.partners i hi, Option.isSome_map]

theorem extent (hi : i ≤ s.size) : c.extent (n + i) = s.extent i := by
  rw [Script.extent, Script.extent, h.partners i hi]
  cases s.partner? i with
  | none => rfl
  | some j =>
    dsimp only [Option.map_some]
    omega

theorem lastOf (hi : i ≤ s.size) : c.lastOf (n + i) = n + s.lastOf i := by
  have hextent := s.extent_pos i
  rw [Script.lastOf, Script.lastOf, h.extent hi]
  omega

theorem add_extent_le (hi : i < s.size) : i + s.extent i ≤ s.size := by
  unfold Script.extent
  split
  case h_1 j hj =>
    have hlt := (h.ordered.lt_size hj).2
    omega
  case h_2 => exact hi

theorem lastOf_lt (hi : i < s.size) : s.lastOf i < s.size := by
  have hle := h.add_extent_le hi
  have hextent := s.extent_pos i
  unfold Script.lastOf
  omega

theorem spansFrom {stop : Nat} (hstop : stop ≤ s.size) (start i : Nat) :
    c.spansFrom (n + stop) (n + start) (n + i) =
      (s.spansFrom stop start i).map (Span.shift n) := by
  fun_induction Script.spansFrom s stop start i with
  | case1 start i hi hcomma ih =>
    have hcomma' := (h.isPunct (Nat.le_trans (Nat.le_of_lt hi) hstop) (by decide)).trans hcomma
    rw [Script.spansFrom, if_pos (Nat.add_lt_add_left hi n), if_pos hcomma', List.map_cons, ← ih]
    rfl
  | case2 start i hi hcomma ih =>
    have hle : i ≤ s.size := Nat.le_trans (Nat.le_of_lt hi) hstop
    rw [Script.spansFrom, if_pos (Nat.add_lt_add_left hi n), h.isPunct hle (by decide),
      if_neg hcomma, h.extent hle, Nat.add_assoc, ih]
  | case3 start i hi =>
    rw [Script.spansFrom, if_neg (by omega)]
    rfl

theorem entriesOf (hi : i < s.size) :
    c.entriesOf (n + i) = (s.entriesOf i).map (Span.shift n) := by
  have hspans := h.spansFrom (Nat.le_of_lt (h.lastOf_lt hi)) (i + 1) (i + 1)
  rw [← Nat.add_assoc] at hspans
  rw [Script.entriesOf, Script.entriesOf, h.lastOf (Nat.le_of_lt hi), hspans, List.filter_map]
  congr 2
  funext e
  simp [Span.shift]

theorem paired_end : s.paired s.size = false := by
  rw [Script.paired, Option.isSome_eq_false_iff, Option.isNone_iff_eq_none]
  cases hp : s.partner? s.size with
  | none => rfl
  | some j => exact absurd (h.ordered.lt_size hp).1 (Nat.lt_irrefl _)

theorem patternParts_end : s.patternParts s.size = [] := by
  rw [Script.patternParts, h.paired_end]
  rfl

/-! ## Patterns -/

theorem listPart {e : Span} (hstart : e.start ≤ s.size) :
    c.listPart (e.shift n) = (s.listPart e).shift n := by
  have hdots : c.isPunct (n + e.start) "..." = s.isPunct e.start "..." :=
    h.isPunct hstart (by decide)
  simp only [Script.listPart, Span.shift, PatternPart.shift, List.map_nil, hdots]
  split
  · by_cases hlt : e.start + 1 < e.stop
    · rw [if_pos hlt, if_pos (by omega)]
      rfl
    · rw [if_neg hlt, if_neg (by omega)]
      rfl
  · by_cases hlt : e.start < e.stop
    · rw [if_pos hlt, if_pos (by omega)]
      rfl
    · rw [if_neg hlt, if_neg (by omega)]
      rfl

theorem objectPart {e : Span} (hstart : e.start < s.size) :
    c.objectPart (e.shift n) = (s.objectPart e).shift n := by
  have hdots : c.isPunct (n + e.start) "..." = s.isPunct e.start "..." :=
    h.isPunct (Nat.le_of_lt hstart) (by decide)
  have hsquare : c.isPunct (n + e.start) "[" = s.isPunct e.start "[" :=
    h.isPunct (Nat.le_of_lt hstart) (by decide)
  have hkey : c.isPunct (n + s.lastOf e.start + 1) ":" = s.isPunct (s.lastOf e.start + 1) ":" :=
    h.isPunct (h.lastOf_lt hstart) (by decide)
  have hcolon : c.isPunct (n + e.start + 1) ":" = s.isPunct (e.start + 1) ":" :=
    h.isPunct hstart (by decide)
  simp only [Script.objectPart, Span.shift, hdots, hsquare, h.lastOf (Nat.le_of_lt hstart), hkey,
    hcolon, h.isName (Nat.le_of_lt hstart)]
  repeat' split
  all_goals rfl

theorem mem_entriesOf {e : Span} (he : e ∈ s.entriesOf i) : e.start < e.stop ∧ e.stop < s.size :=
  h.ordered.stop_lt_of_mem_entriesOf he

theorem patternParts (hi : i ≤ s.size) :
    c.patternParts (n + i) = (s.patternParts i).map (PatternPart.shift n) := by
  obtain hlt | rfl := Nat.lt_or_eq_of_le hi
  · have hobject : ∀ e ∈ s.entriesOf i, c.objectPart (e.shift n) = (s.objectPart e).shift n :=
      fun e he => h.objectPart (by have := h.mem_entriesOf he; omega)
    have hlist : ∀ e ∈ s.entriesOf i, c.listPart (e.shift n) = (s.listPart e).shift n :=
      fun e he => h.listPart (by have := h.mem_entriesOf he; omega)
    simp only [Script.patternParts, h.paired hi, h.isPunct (p := "\x7b") hi (by decide),
      h.isPunct (p := "[") hi (by decide), h.entriesOf hlt]
    repeat' split
    · rw [List.map_map, List.map_map]
      exact List.map_congr_left hobject
    · rw [List.map_map, List.map_map]
      exact List.map_congr_left hlist
    · rfl
    · rfl
  · rw [h.patternParts_end, Script.patternParts, h.paired hi, h.paired_end]
    rfl

omit h in
theorem lt_stop_of_listPart {e : Span} {j : Nat} (hj : (s.listPart e).inner = some j) :
    j < e.stop := by
  obtain ⟨hlt, hj⟩ := Option.ite_none_right_eq_some.1 hj
  cases hj
  exact hlt

theorem part_within {p : PatternPart} (hp : p ∈ s.patternParts i) :
    (∀ m ∈ p.marks, m.index ≤ s.size) ∧ ∀ j, p.inner = some j → j ≤ s.size := by
  unfold Script.patternParts at hp
  split at hp
  case isFalse => cases hp
  split at hp
  case isTrue =>
    obtain ⟨e, he, rfl⟩ := List.mem_map.1 hp
    have hentry := h.mem_entriesOf he
    unfold Script.objectPart
    split
    · refine ⟨nofun, fun j hj => ?_⟩
      cases hj
      omega
    split
    · refine ⟨nofun, fun j hj => ?_⟩
      obtain ⟨hcolon, hj⟩ := Option.ite_none_right_eq_some.1 hj
      cases hj
      exact lt_size_of_isPunct hcolon
    split
    case isTrue hcolon =>
      refine ⟨List.forall_mem_singleton.2 (show e.start ≤ s.size by omega), fun j hj => ?_⟩
      cases hj
      exact lt_size_of_isPunct hcolon
    split
    · exact ⟨List.forall_mem_singleton.2 (show e.start ≤ s.size by omega), nofun⟩
    · exact ⟨nofun, nofun⟩
  split at hp
  case isTrue =>
    obtain ⟨e, he, rfl⟩ := List.mem_map.1 hp
    have hentry := h.mem_entriesOf he
    exact ⟨nofun, fun j hj => by have := lt_stop_of_listPart hj; omega⟩
  case isFalse => cases hp

theorem patternMarks (hi : i ≤ s.size) :
    s.Shifted n (s.patternMarks i) (c.patternMarks (n + i)) := by
  generalize hd : s.size - i = d
  induction d using Nat.strongRecOn generalizing i with
  | ind d ih =>
    rw [patternMarks_eq, patternMarks_eq, h.isName hi, h.patternParts hi]
    obtain hlt | rfl := Nat.lt_or_eq_of_le hi
    · rw [if_pos hlt, if_pos (h.lt_size hlt)]
      split
      · exact .declares hi
      · refine .flatMap fun p hp => .append ⟨rfl, (h.part_within hp).1⟩ ?_
        cases hj : p.inner with
        | none =>
          simp only [PatternPart.shift, hj, Option.map_none]
          exact .nil
        | some j =>
          simp only [PatternPart.shift, hj, Option.map_some]
          have hgt := lt_inner_patternParts hp hj
          exact ih (s.size - j) (by omega) ((h.part_within hp).2 j hj) rfl
    · rw [if_neg (Nat.lt_irrefl _), isName_eq_false_of_le (Nat.le_refl _), h.patternParts_end]
      simp only [List.map_nil, List.flatMap_nil, Bool.false_eq_true, if_false, ite_self]
      exact .nil

theorem parameterMarks (hi : i < s.size) :
    s.Shifted n (s.parameterMarks i) (c.parameterMarks (n + i)) := by
  rw [Script.parameterMarks, Script.parameterMarks, h.entriesOf hi]
  refine .flatMap fun e he => ?_
  have hentry := h.mem_entriesOf he
  rw [h.listPart (by omega)]
  cases hj : (s.listPart e).inner with
  | none =>
    simp only [PatternPart.shift, hj, Option.map_none]
    exact .nil
  | some j =>
    simp only [PatternPart.shift, hj, Option.map_some]
    exact h.patternMarks (by have := lt_stop_of_listPart hj; omega)

/-! ## Values -/

/-- What is before a token of the script, in the script alone or where it stands. -/
theorem before?_cases (hi : i < s.size) :
    (s.before? i = none ∧ i = 0 ∧ (c.before? (n + i) = none ∨
      ∃ t, c.before? (n + i) = some t ∧ t.kind = .punctuator ∧ t.text = ";")) ∨
    ∃ t t', s.before? i = some t ∧ c.before? (n + i) = some t' ∧
      t'.kind = t.kind ∧ t'.text = t.text := by
  cases i with
  | zero =>
    refine .inl ⟨rfl, rfl, ?_⟩
    rcases h.before with rfl | ⟨m, rfl, hm⟩
    · exact .inl rfl
    · exact .inr (exists_token_of_isPunct hm)
  | succ i => exact .inr (h.token_cases (Nat.lt_of_succ_lt hi))

theorem startsStatement {t t' : Token} (hi : 0 < i) (ht : s.tokens[i]? = some t)
    (ht' : c.tokens[n + i]? = some t') : c.startsStatement (n + i) t' = s.startsStatement i t := by
  have hlt : i < s.size := (Array.getElem?_eq_some_iff.1 ht).1
  obtain ⟨-, rfl, -⟩ | ⟨u, u', hu, hu', hkind, htext⟩ := h.before?_cases hlt
  · exact absurd hi (Nat.lt_irrefl 0)
  · obtain ⟨i, rfl⟩ := Nat.exists_eq_succ_of_ne_zero (Nat.ne_of_gt hi)
    have hline := h.lines i u t u' t' hu ht hu' ht'
    rw [← not_iff_not, Nat.not_lt, Nat.not_lt] at hline
    simp only [Script.startsStatement, hu, hu', hkind, htext, hline]

theorem endsValue {t t' : Token} (hi : 0 < i) (ht : s.tokens[i]? = some t)
    (ht' : c.tokens[n + i]? = some t') (hkind : t'.kind = t.kind) (htext : t'.text = t.text) :
    c.endsValue (n + i) t' = s.endsValue i t := by
  have hlt : i < s.size := (Array.getElem?_eq_some_iff.1 ht).1
  have hcloses : t'.closes = t.closes := by rw [Token.closes, Token.closes, hkind, htext]
  have hround : (c.text (n + i + 1) == "(") = (s.text (i + 1) == "(") :=
    h.text_beq hlt (by decide) (by decide)
  have hpoint : (c.text (n + i + 1) == ".") = (s.text (i + 1) == ".") :=
    h.text_beq hlt (by decide) (by decide)
  simp only [Script.endsValue, hkind, htext, hcloses, h.startsStatement hi ht ht', hround, hpoint]

/-- A value that reaches the end of the script ends there, for no value goes on at a semicolon. -/
theorem valueEnd (hi : 0 < i) (hle : i ≤ s.size) :
    c.valueEnd (n + i) = n + s.valueEnd i ∧ s.valueEnd i ≤ s.size := by
  generalize hd : s.size - i = d
  induction d using Nat.strongRecOn generalizing i with
  | ind d ih =>
    rw [valueEnd_eq, valueEnd_eq s]
    obtain hlt | rfl := Nat.lt_or_eq_of_le hle
    · obtain ⟨t, t', ht, ht', hkind, htext⟩ := h.token_cases hlt
      have hextent := s.extent_pos i
      rw [ht, ht']
      dsimp only
      rw [h.endsValue hi ht ht' hkind htext, h.extent hle]
      split
      · exact ⟨rfl, hle⟩
      · rw [Nat.add_assoc]
        exact ih (s.size - (i + s.extent i)) (by omega) (by omega) (h.add_extent_le hlt) rfl
    · have hnone : s.tokens[s.size]? = none := Array.getElem?_eq_none (Nat.le_refl _)
      rw [hnone]
      refine ⟨?_, hle⟩
      rcases h.end_cases with ht | ⟨t, ht, hkind, htext⟩
      · rw [ht]
      · have hends : c.endsValue (n + s.size) t = true := by
          simp [Script.endsValue, hkind, htext]
        rw [ht]
        dsimp only
        rw [if_pos hends]

/-! ## Declarators -/

theorem patternEnd (hi : i < s.size) :
    c.patternEnd (n + i) = n + s.patternEnd i ∧ s.patternEnd i ≤ s.size := by
  have hcurly : c.isPunct (n + i) "\x7b" = s.isPunct i "\x7b" :=
    h.isPunct (Nat.le_of_lt hi) (by decide)
  have hsquare : c.isPunct (n + i) "[" = s.isPunct i "[" := h.isPunct (Nat.le_of_lt hi) (by decide)
  simp only [Script.patternEnd, hcurly, hsquare, h.extent (Nat.le_of_lt hi)]
  split
  · exact ⟨Nat.add_assoc .., h.add_extent_le hi⟩
  · simp only [if_pos (h.lt_size hi)]
    exact ⟨Nat.add_assoc .., hi⟩

theorem declaratorEnd (hi : i < s.size) :
    c.declaratorEnd (n + i) = n + s.declaratorEnd i ∧ s.declaratorEnd i ≤ s.size := by
  obtain ⟨hpattern, hle⟩ := h.patternEnd hi
  have hequals : c.isPunct (n + s.patternEnd i) "=" = s.isPunct (s.patternEnd i) "=" :=
    h.isPunct hle (by decide)
  simp only [Script.declaratorEnd, hpattern, hequals]
  split
  case isTrue hp => exact h.valueEnd (Nat.succ_pos _) (lt_size_of_isPunct hp)
  case isFalse => exact ⟨rfl, hle⟩

theorem declaratorMarks_end : c.declaratorMarks (n + s.size) = [] := by
  rw [Script.declaratorMarks]
  rcases h.behind with hend | hclosed
  · rw [if_neg (by omega)]
  · have hlt : n + s.size < c.size := lt_size_of_isPunct hclosed.semicolon
    have hpattern : c.patternMarks (n + s.size) = [] := by
      have hnone : s.patternMarks s.size = [] := by
        rw [patternMarks_eq, if_neg (Nat.lt_irrefl _)]
      rw [(h.patternMarks (Nat.le_refl _)).eq, hnone, List.map_nil]
    have hopens (p : String) (hp : p ≠ ";") : c.isPunct (n + s.size) p = false := by
      rw [h.isPunct (Nat.le_refl _) hp]
      exact Bool.eq_false_iff.2 fun hq => Nat.lt_irrefl _ (lt_size_of_isPunct hq)
    have hpatternEnd : c.patternEnd (n + s.size) = n + s.size + 1 := by
      simp only [Script.patternEnd, hopens "\x7b" (by decide), hopens "[" (by decide), if_pos hlt]
      rfl
    have hdeclaratorEnd : c.declaratorEnd (n + s.size) = n + s.size + 1 := by
      simp only [Script.declaratorEnd, hpatternEnd, hclosed.noValue]
      rfl
    simp [hlt, hpattern, hdeclaratorEnd, hclosed.noMore]

theorem declaratorMarks (hi : i ≤ s.size) :
    s.Shifted n (s.declaratorMarks i) (c.declaratorMarks (n + i)) := by
  fun_induction Script.declaratorMarks s i with
  | case1 i hlt j ih =>
    obtain ⟨hend, hle⟩ := h.declaratorEnd hlt
    have hcomma : c.isPunct (n + s.declaratorEnd i) "," = s.isPunct (s.declaratorEnd i) "," :=
      h.isPunct hle (by decide)
    rw [Script.declaratorMarks.eq_def c, if_pos (h.lt_size hlt)]
    simp only [hend]
    refine (h.patternMarks hi).append (.ite hcomma fun hp => ?_)
    rw [Nat.add_assoc]
    exact ih (lt_size_of_isPunct hp)
  | case2 i hge =>
    obtain rfl : i = s.size := Nat.le_antisymm hi (Nat.le_of_not_lt hge)
    rw [h.declaratorMarks_end]
    exact .nil

/-! ## Functions, arrows and methods -/

theorem functionMarks (hi : i < s.size) :
    s.Shifted n (s.functionMarks i) (c.functionMarks (n + i)) := by
  have hstar : c.isPunct (n + i + 1) "*" = s.isPunct (i + 1) "*" := h.isPunct hi (by decide)
  -- the index of the name, or of the parenthesis where there is none
  obtain ⟨j, hj, hj', hle⟩ : ∃ j, (if s.isPunct (i + 1) "*" then i + 2 else i + 1) = j ∧
      (if c.isPunct (n + i + 1) "*" then n + i + 2 else n + i + 1) = n + j ∧ j ≤ s.size := by
    rw [hstar]
    split
    case isTrue hp => exact ⟨i + 2, rfl, rfl, lt_size_of_isPunct hp⟩
    case isFalse => exact ⟨i + 1, rfl, rfl, hi⟩
  have hname := h.isName hle
  obtain ⟨k, hk, hk', hkle⟩ : ∃ k, (if s.isName j then j + 1 else j) = k ∧
      (if c.isName (n + j) then n + j + 1 else n + j) = n + k ∧ k ≤ s.size := by
    rw [hname]
    split
    case isTrue hn => exact ⟨j + 1, rfl, rfl, lt_size_of_isName hn⟩
    case isFalse => exact ⟨j, rfl, rfl, hle⟩
  simp only [Script.functionMarks, hj, hj', hk, hk']
  refine .append (.ite hname fun _ => .declares hle)
    (.ite (h.isPunct hkle (by decide)) fun hp => ?_)
  exact h.parameterMarks (lt_size_of_isPunct hp)

theorem arrowMarks (hi : i < s.size) :
    s.Shifted n (s.arrowMarks i) (c.arrowMarks (n + i)) := by
  cases i with
  | zero =>
    have hnone : c.arrowMarks (n + 0) = [] := by
      rcases h.before with rfl | ⟨m, rfl, hm⟩
      · rfl
      · obtain ⟨t, ht, hkind, htext⟩ := exists_token_of_isPunct hm
        simp [Script.arrowMarks, Script.isName, kind?, Script.isPunct, Token.isPunct, ht, hkind,
          htext]
    rw [hnone]
    exact .nil
  | succ j =>
    have hj : j < s.size := Nat.lt_of_succ_lt hi
    have hround : c.isPunct (n + j) ")" = s.isPunct j ")" :=
      h.isPunct (Nat.le_of_lt hj) (by decide)
    rw [← Nat.add_assoc, Script.arrowMarks, Script.arrowMarks, h.isName (Nat.le_of_lt hj), hround,
      h.partners j (Nat.le_of_lt hj)]
    split
    · exact .declares (Nat.le_of_lt hj)
    · refine .ite rfl fun _ => ?_
      cases ho : s.partner? j with
      | none => exact .nil
      | some o => exact h.parameterMarks (h.ordered.lt_size ho).2

theorem textBefore {k : Nat} (hi : i < s.size) (hk : k ≤ i) :
    c.textBefore (n + i) k = s.textBefore i k := by
  rw [Script.textBefore, Script.textBefore, if_pos hk, if_pos (by omega), Nat.add_sub_assoc hk,
    h.text (by omega)]

/-- What is read before the first token of the script is nothing or a semicolon. -/
theorem textBefore_front {k : Nat} (hk : k = i + 1) :
    s.textBefore i k = "" ∧ (n = 0 ∧ c.textBefore (n + i) k = "" ∨
      0 < n ∧ c.textBefore (n + i) k = ";") := by
  subst hk
  refine ⟨if_neg (by omega), ?_⟩
  rcases h.before with rfl | ⟨m, rfl, hm⟩
  · exact .inl ⟨rfl, if_neg (by omega)⟩
  · refine .inr ⟨m.succ_pos, ?_⟩
    rw [Script.textBefore, if_pos (by omega), show m + 1 + i - (i + 1) = m by omega]
    exact (isPunct_iff.1 hm).2

theorem opensMethod (hi : i < s.size) : c.opensMethod (n + i) = s.opensMethod i := by
  unfold Script.opensMethod
  obtain ⟨hnone, -, hnone' | ⟨t, ht, hkind, -⟩⟩ | ⟨t, t', ht, ht', hkind, htext⟩ :=
    h.before?_cases hi
  · rw [hnone, hnone']
  · rw [hnone, ht]
    simp [hkind]
  · simp only [ht, ht', hkind, htext]
    match i, hi with
    | 0, _ => cases ht
    | 1, hi =>
      obtain ⟨hempty, ⟨rfl, hlead⟩ | ⟨hn, hlead⟩⟩ := h.textBefore_front (i := 1) rfl
      · simp [hempty, hlead]
      · have hlarge : ¬n + 1 < 2 := by omega
        simp [hempty, hlead, hlarge, memberLeads]
    | 2, hi =>
      have hlead := h.textBefore hi (k := 2) (by decide)
      have hlarge : ¬n + 2 < 2 := by omega
      obtain ⟨hempty, ⟨-, hfar⟩ | ⟨-, hfar⟩⟩ := h.textBefore_front (i := 2) rfl
      · simp [hempty, hfar, hlead, hlarge]
      · simp [hempty, hfar, hlead, hlarge]
    | i + 3, hi =>
      have hlead := h.textBefore hi (k := 2) (by omega)
      have hfar := h.textBefore hi (k := 3) (by omega)
      have hlarge : ¬n + (i + 3) < 2 ∧ ¬i + 3 < 2 := by omega
      simp [hfar, hlead, hlarge]

theorem methodMarks (hi : i < s.size) :
    s.Shifted n (s.methodMarks i) (c.methodMarks (n + i)) := by
  simp only [Script.methodMarks, h.partners i (Nat.le_of_lt hi)]
  cases ho : s.partner? i with
  | none => exact .nil
  | some o =>
    have hlt := (h.ordered.lt_size ho).2
    simp only [Option.map_some, h.opensMethod hlt]
    refine .ite rfl fun hopens => ?_
    have hpos : 0 < o := by
      cases o with
      | zero => cases hopens
      | succ o => exact o.succ_pos
    have hname : s.Shifted n [.silences (o - 1)] [.silences (n + o - 1)] := by
      rw [Nat.add_sub_assoc hpos]
      exact .silences (by omega)
    exact hname.append (h.parameterMarks hlt)

/-! ## Classes -/

theorem isMemberName (hpos : 0 < i) (hi : i + 1 < s.size) :
    c.isMemberName (n + i) = s.isMemberName i := by
  have hlt : i < s.size := Nat.lt_of_succ_lt hi
  have htrail : c.text (n + i + 1) = s.text (i + 1) := h.text hi
  obtain ⟨-, rfl, -⟩ | ⟨t, t', ht, ht', hkind, htext⟩ := h.before?_cases hlt
  · exact absurd hpos (Nat.lt_irrefl 0)
  · simp only [Script.isMemberName, h.isName (Nat.le_of_lt hlt), h.textBefore hlt (k := 1) hpos,
      ht, ht', Option.any_some, Token.isPunct_eq hkind htext, htrail]

theorem memberMarks {stop : Nat} (hstop : stop < s.size) (hi : 0 < i) :
    s.Shifted n (s.memberMarks stop i) (c.memberMarks (n + stop) (n + i)) := by
  fun_induction Script.memberMarks s stop i with
  | case1 i hlt ih =>
    rw [Script.memberMarks.eq_def c, if_pos (Nat.add_lt_add_left hlt n), h.extent (by omega),
      Nat.add_assoc]
    refine .append (.ite (h.isMemberName hi (by omega)) fun _ => .silences (by omega)) (ih ?_)
    omega
  | case2 i hge =>
    rw [Script.memberMarks, if_neg (by omega)]
    exact .nil

theorem bodyStart (hend : c.size = n + s.size) (hi : i ≤ s.size) :
    c.bodyStart (n + i) = n + s.bodyStart i ∧ s.bodyStart i ≤ s.size := by
  fun_induction Script.bodyStart s i with
  | case1 i hlt hcurly =>
    have hcurly' := (h.isPunct (Nat.le_of_lt hlt) (by decide)).trans hcurly
    rw [Script.bodyStart, if_pos (h.lt_size hlt), if_pos hcurly']
    exact ⟨rfl, hi⟩
  | case2 i hlt hcurly ih =>
    rw [Script.bodyStart.eq_def c, if_pos (h.lt_size hlt), h.isPunct hi (by decide), if_neg hcurly,
      h.extent hi, Nat.add_assoc]
    exact ih (h.add_extent_le hlt)
  | case3 i hge =>
    rw [Script.bodyStart, if_neg (by omega)]
    exact ⟨rfl, hi⟩

theorem classMarks (hend : c.size = n + s.size) (hi : i < s.size) :
    s.Shifted n (s.classMarks i) (c.classMarks (n + i)) := by
  obtain ⟨hbody, hle⟩ := h.bodyStart hend (i := i + 1) hi
  rw [← Nat.add_assoc] at hbody
  simp only [Script.classMarks, hbody]
  refine .append (.ite (h.isName (i := i + 1) hi) fun _ => .declares hi)
    (.ite (h.paired hle) fun hp => ?_)
  have hlt : s.bodyStart (i + 1) < s.size := by
    obtain hlt | heq := Nat.lt_or_eq_of_le hle
    · exact hlt
    · rw [heq, h.paired_end] at hp
      cases hp
  rw [h.lastOf hle, Nat.add_assoc]
  exact h.memberMarks (h.lastOf_lt hlt) (Nat.succ_pos _)

/-! ## Imports and exports -/

/-- An entry of a list of names renames one if the word `as` stands behind the first name. -/
theorem renames {e : Span} (he : e ∈ s.entriesOf i) :
    (decide (n + e.start + 3 ≤ n + e.stop) && c.text (n + e.start + 1) == "as") =
      (decide (e.start + 3 ≤ e.stop) && s.text (e.start + 1) == "as") := by
  have hentry := h.mem_entriesOf he
  have has : (c.text (n + e.start + 1) == "as") = (s.text (e.start + 1) == "as") :=
    h.text_beq (i := e.start + 1) (by omega) (by decide) (by decide)
  have hlong : decide (n + e.start + 3 ≤ n + e.stop) = decide (e.start + 3 ≤ e.stop) :=
    decide_eq_decide.2 (by omega)
  rw [has, hlong]

theorem importedMarks {e : Span} (he : e ∈ s.entriesOf i) :
    s.Shifted n (s.importedMarks e) (c.importedMarks (e.shift n)) := by
  have hentry := h.mem_entriesOf he
  unfold Script.importedMarks Span.shift
  rw [h.renames he, h.isName (i := e.start) (by omega)]
  split
  case isTrue has =>
    rw [Bool.and_eq_true, decide_eq_true_eq] at has
    exact .append (.silences (i := e.start) (by omega)) (.declares (i := e.start + 2) (by omega))
  case isFalse => exact .ite rfl fun _ => .declares (by omega)

theorem importMarksFrom (hend : c.size = n + s.size) (i : Nat) :
    s.Shifted n (s.importMarksFrom i) (c.importMarksFrom (n + i)) := by
  generalize hd : s.size - i = d
  induction d using Nat.strongRecOn generalizing i with
  | ind d ih =>
    rw [importMarksFrom_eq s, importMarksFrom_eq c]
    by_cases hi : i < s.size
    · obtain ⟨t, t', ht, ht', hkind, htext⟩ := h.token_cases hi
      have hextent := s.extent_pos i
      have behind {k : Nat} (hk : 0 < k) :
          s.Shifted n (s.importMarksFrom (i + k)) (c.importMarksFrom (n + i + k)) := by
        rw [Nat.add_assoc]
        exact ih (s.size - (i + k)) (by omega) (i + k) rfl
      have has : (c.text (n + i + 1) == "as") = (s.text (i + 1) == "as") :=
        h.text_beq (i := i + 1) hi (by decide) (by decide)
      simp only [ht, ht', hkind, htext, Token.isPunct_eq hkind htext, has, h.paired
        (Nat.le_of_lt hi), h.extent (Nat.le_of_lt hi), h.entriesOf hi]
      split
      case isTrue =>
        split
        · exact .nil
        · exact (Shifted.declares (Nat.le_of_lt hi)).append (behind Nat.one_pos)
      split
      case isTrue => exact .nil
      split
      case isTrue =>
        refine .append ?_ (behind (by decide))
        have hroom : n + i + 2 < c.size ↔ i + 2 < s.size := by omega
        simp only [hroom]
        split
        case isTrue hlt => exact .declares (i := i + 2) (Nat.le_of_lt hlt)
        case isFalse => exact .nil
      split
      case isTrue =>
        exact .append (.ite rfl fun _ => .flatMap fun e he => h.importedMarks he) (behind hextent)
      case isFalse => exact behind Nat.one_pos
    · have ht : s.tokens[i]? = none := Array.getElem?_eq_none (Nat.le_of_not_lt hi)
      have ht' : c.tokens[n + i]? = none :=
        Array.getElem?_eq_none (show c.size ≤ n + i by omega)
      rw [ht, ht']
      exact .nil

theorem importMarks (hend : c.size = n + s.size) (hi : i < s.size) :
    s.Shifted n (s.importMarks i) (c.importMarks (n + i)) := by
  have hround : c.isPunct (n + i + 1) "(" = s.isPunct (i + 1) "(" := h.isPunct hi (by decide)
  have hpoint : c.isPunct (n + i + 1) "." = s.isPunct (i + 1) "." := h.isPunct hi (by decide)
  simp only [Script.importMarks, hround, hpoint]
  split
  · exact .nil
  · exact h.importMarksFrom hend (i + 1)

theorem exportedMarks {e : Span} (he : e ∈ s.entriesOf i) :
    s.Shifted n (s.exportedMarks e) (c.exportedMarks (e.shift n)) := by
  have hentry := h.mem_entriesOf he
  refine .ite (h.renames he) fun has => .silences (i := e.start + 2) ?_
  rw [Bool.and_eq_true, decide_eq_true_eq] at has
  omega

theorem exportMarks (hi : i < s.size) :
    s.Shifted n (s.exportMarks i) (c.exportMarks (n + i)) := by
  have hstar : c.isPunct (n + i + 1) "*" = s.isPunct (i + 1) "*" := h.isPunct hi (by decide)
  have hcurly : c.isPunct (n + i + 1) "\x7b" = s.isPunct (i + 1) "\x7b" := h.isPunct hi (by decide)
  have hpaired : c.paired (n + i + 1) = s.paired (i + 1) := h.paired hi
  simp only [Script.exportMarks, hstar, hcurly, hpaired]
  split
  case isTrue hp =>
    have hlt := lt_size_of_isPunct hp
    have has : (c.text (n + i + 1 + 1) == "as") = (s.text (i + 1 + 1) == "as") :=
      h.text_beq (i := i + 1 + 1) hlt (by decide) (by decide)
    refine .ite has fun hp => .silences (i := i + 1 + 2) ?_
    have hne : s.text (i + 1 + 1) ≠ "" := by
      rw [beq_iff_eq.1 hp]
      decide
    exact lt_size_of_text hne
  case isFalse =>
    split
    case isTrue hp =>
      have hlt := lt_size_of_isPunct (Bool.and_eq_true_iff.1 hp).1
      have hlast : c.lastOf (n + i + 1) = n + s.lastOf (i + 1) := h.lastOf hi
      have hentries : c.entriesOf (n + i + 1) = (s.entriesOf (i + 1)).map (Span.shift n) :=
        h.entriesOf hlt
      have hfrom : (c.text (n + s.lastOf (i + 1) + 1) == "from") =
          (s.text (s.lastOf (i + 1) + 1) == "from") :=
        h.text_beq (i := s.lastOf (i + 1) + 1) (h.lastOf_lt hlt) (by decide) (by decide)
      simp only [hlast, hentries, hfrom]
      refine .flatMap fun e he => .append (h.exportedMarks he) (.ite rfl fun _ => ?_)
      have hentry := h.mem_entriesOf he
      exact .silences (by omega)
    case isFalse => exact .nil

/-! ## All constructs -/

/-- The keyword of a construct that may look for its end beyond a semicolon is found in a script
only if nothing is behind the script. -/
theorem size_of_keyword {t : Token} (ht : s.tokens[i]? = some t) (hkind : t.kind = .keyword)
    (htext : t.text = "class" ∨ t.text = "import") : c.size = n + s.size := by
  rcases h.behind with hend | hclosed
  · exact hend
  · obtain ⟨hclass, himport⟩ := hclosed.ends i t ht hkind
    exact absurd htext (not_or.2 ⟨hclass, himport⟩)

theorem marksAt (hi : i < s.size) : s.Shifted n (s.marksAt i) (c.marksAt (n + i)) := by
  obtain ⟨t, t', ht, ht', hkind, htext⟩ := h.token_cases hi
  simp only [Script.marksAt, ht, ht', hkind, htext]
  cases hk : t.kind with
  | keyword =>
    dsimp only
    split
    case isTrue => exact h.declaratorMarks (i := i + 1) hi
    split
    case isTrue => exact h.functionMarks hi
    split
    case isTrue hclass => exact h.classMarks (h.size_of_keyword ht hk (.inl hclass)) hi
    split
    case isTrue =>
      refine .ite (h.isPunct (i := i + 1) hi (by decide)) fun hp => ?_
      exact h.parameterMarks (i := i + 1) (lt_size_of_isPunct hp)
    split
    case isTrue himport => exact h.importMarks (h.size_of_keyword ht hk (.inr himport)) hi
    split
    case isTrue => exact h.exportMarks hi
    case isFalse => exact .nil
  | punctuator =>
    dsimp only
    split
    case isTrue => exact h.arrowMarks hi
    case isFalse =>
      refine .ite ?_ fun _ => h.methodMarks hi
      rw [Nat.add_assoc, h.isPunct (i := i + 1) hi (by decide)]
  | name => exact .nil
  | number => exact .nil
  | string => exact .nil
  | template => exact .nil
  | regex => exact .nil

theorem marks :
    s.Shifted n s.marks (((List.range s.size).map (n + ·)).flatMap c.marksAt) :=
  .flatMap fun _ hi => h.marksAt (List.mem_range.1 hi)

/-! ## Uses -/

theorem isProperty (hi : i < s.size) : c.isProperty (n + i) = s.isProperty i := by
  unfold Script.isProperty
  obtain ⟨hnone, -, hnone' | ⟨t, ht, -, htext⟩⟩ | ⟨t, t', ht, ht', hkind, htext⟩ :=
    h.before?_cases hi
  · rw [hnone, hnone']
  · simp [hnone, ht, htext]
  · rw [ht, ht', Option.any_some, Option.any_some, hkind, htext]

theorem isJumpLabel (hi : i < s.size) : c.isJumpLabel (n + i) = s.isJumpLabel i := by
  unfold Script.isJumpLabel
  obtain ⟨hnone, -, hnone' | ⟨t, ht, hkind, -⟩⟩ | ⟨t, t', ht, ht', hkind, htext⟩ :=
    h.before?_cases hi
  · rw [hnone, hnone']
  · simp [hnone, ht, hkind]
  · rw [ht, ht', Option.any_some, Option.any_some, hkind, htext]

/-- A statement may be labelled at the beginning as well as behind a semicolon. -/
theorem isKeyOrLabel (hi : i < s.size) : c.isKeyOrLabel (n + i) = s.isKeyOrLabel i := by
  unfold Script.isKeyOrLabel
  rw [Nat.add_assoc, h.isPunct (i := i + 1) hi (by decide)]
  obtain ⟨hnone, -, hnone' | ⟨t, ht, hkind, htext⟩⟩ | ⟨t, t', ht, ht', hkind, htext⟩ :=
    h.before?_cases hi
  · rw [hnone, hnone']
  · simp [hnone, ht, hkind, htext]
  · simp only [ht, ht', hkind, htext]

theorem isUse {d d' : Declarations} (hi : i < s.size) (hd : d'.excludes (n + i) = d.excludes i) :
    c.isUse d' (n + i) = s.isUse d i := by
  simp only [Script.isUse, h.text hi, hd, h.isProperty hi, h.isJumpLabel hi, h.isKeyOrLabel hi]

end Embeds

end Script

end MdxLint
