import MdxLint.Proofs.Script.Agreement
import MdxLint.Proofs.Script.Embedded
import MdxLint.Proofs.Script.Joining

/-! # Free names of two scripts, one behind the other

A semicolon on a line of its own parts two scripts, unless the first one holds a class or an import
or the second one begins as if it went on with a declaration. Each says then what it says alone, so
that a name that one of them leaves free is free in both together, unless the other one declares it.
-/

namespace MdxLint

/-! ## Pairs of brackets -/

section Pairs

variable {i : Nat} {stack : List Nat} {ts : List Token}

theorem bracketPairs_shift (n i : Nat) (stack : List Nat) (ts : List Token) :
    bracketPairs (n + i) (stack.map (n + ·)) ts =
      (bracketPairs i stack ts).map fun p => (n + p.1, n + p.2) := by
  induction ts generalizing i stack with
  | nil => rfl
  | cons t ts ih =>
    rw [bracketPairs_cons, bracketPairs_cons, Nat.add_assoc]
    split
    · exact ih (i + 1) (i :: stack)
    split
    · cases stack with
      | nil => exact ih (i + 1) []
      | cons o rest => exact congrArg ((n + o, n + i) :: ·) (ih (i + 1) rest)
    · exact ih (i + 1) stack

/-- Tokens that leave no bracket open are paired among themselves, whatever is behind them. -/
theorem bracketPairs_append (hs : stack.Nodup) (hlt : ∀ k ∈ stack, k < i)
    (hpaired : ∀ k, Pending Token.opens i stack ts k → k ∈ endsOf (bracketPairs i stack ts))
    (rest : List Token) :
    bracketPairs i stack (ts ++ rest) =
      bracketPairs i stack ts ++ bracketPairs (i + ts.length) [] rest := by
  induction ts generalizing i stack with
  | nil =>
    obtain rfl : stack = [] := List.eq_nil_iff_forall_not_mem.2 fun k hk =>
      List.not_mem_nil (hpaired k (.inl hk))
    rfl
  | cons t ts ih =>
    rw [List.cons_append, bracketPairs_cons, bracketPairs_cons, List.length_cons,
      show i + (ts.length + 1) = i + 1 + ts.length by omega]
    have up : ∀ k ∈ stack, k < i + 1 := fun k hk => Nat.lt_succ_of_lt (hlt k hk)
    rw [bracketPairs_cons] at hpaired
    split
    case isTrue ho =>
      rw [if_pos ho] at hpaired
      refine ih (List.nodup_cons.2 ⟨fun h => Nat.lt_irrefl i (hlt i h), hs⟩)
        (List.forall_mem_cons.2 ⟨Nat.lt_succ_self i, up⟩) fun k hk => hpaired k ?_
      rcases hk with hk | hk
      · rcases List.mem_cons.1 hk with rfl | hk
        · exact pending_cons.2 (.inl ⟨rfl, ho⟩)
        · exact .inl hk
      · exact pending_cons.2 (.inr (.inr hk))
    case isFalse ho =>
      rw [if_neg ho] at hpaired
      split
      case isTrue hc =>
        rw [if_pos hc] at hpaired
        cases stack with
        | nil => exact ih hs up fun k hk => hpaired k (pending_cons.2 (.inr hk))
        | cons o inner =>
          rw [List.forall_mem_cons] at hlt up
          obtain ⟨hout, hinner⟩ := List.nodup_cons.1 hs
          refine congrArg ((o, i) :: ·) (ih hinner up.2 fun k hk => ?_)
          -- the pair that is closed here is none of those behind it
          have hne : k ≠ o ∧ k ≠ i := by
            rcases hk with hk | ⟨hik, -⟩
            · exact ⟨fun h => hout (h ▸ hk), fun h => Nat.lt_irrefl i (hlt.2 i (h ▸ hk))⟩
            · constructor
              · omega
              · omega
          have hends := hpaired k (pending_cons.2 (.inr (hk.push o)))
          rw [endsOf_cons, List.mem_cons, List.mem_cons] at hends
          exact (hends.resolve_left hne.1).resolve_left hne.2
      case isFalse hc =>
        rw [if_neg hc] at hpaired
        exact ih hs up fun k hk => hpaired k (pending_cons.2 (.inr hk))

end Pairs

/-- The brackets of a scanned text are paired among themselves, and so are those of any tokens
behind it that a semicolon parts from it. -/
theorem bracketPairs_parted {a : String} {ts : List Token} (ha : scan a = .ok ts) (place : Place)
    (us : List Token) :
    bracketPairs 0 [] (ts ++ semicolon place :: us) = bracketPairs 0 [] ts ++
      (bracketPairs 0 [] us).map fun p => (ts.length + 1 + p.1, ts.length + 1 + p.2) := by
  have hpaired (k : Nat) (hk : Pending Token.opens 0 [] ts k) :
      k ∈ endsOf (bracketPairs 0 [] ts) := by
    have hopens : (ts[k]?).any Token.opens := (hk.resolve_left List.not_mem_nil).2
    have hbracket : (ts[k]?).any Token.isBracket := by
      cases ht : ts[k]? with
      | none => simp [ht] at hopens
      | some t =>
        rw [ht, Option.any_some] at hopens
        rw [Option.any_some, Token.isBracket, hopens, Bool.true_or]
    obtain ⟨j, hj⟩ := (Script.fitsText_of_scan ha).total k hbracket
    exact mem_endsOf.2 ⟨j, Script.partner?_ofTokens.1 hj⟩
  rw [bracketPairs_append List.nodup_nil (by simp) hpaired, ← bracketPairs_shift]
  simp [bracketPairs_cons, semicolon, Token.opens, Token.closes, Bracket.ofOpener?,
    Bracket.ofCloser?]

namespace Script

/-! ## Where the two scripts stand -/

section Parted

variable {a : String} {ts us : List Token} {place : Place}

theorem size_ofTokens (ts : List Token) : (ofTokens ts).size = ts.length := by
  simp [size, ofTokens]

theorem partner?_front (ha : scan a = .ok ts) {i : Nat} (hi : i ≤ ts.length) :
    (ofTokens (ts ++ semicolon place :: us)).partner? i = (ofTokens ts).partner? i := by
  ext j
  have hbehind {ps : List (Nat × Nat)} {o c : Nat}
      (h : (o, c) ∈ ps.map fun p => (ts.length + 1 + p.1, ts.length + 1 + p.2)) :
      ts.length < o ∧ ts.length < c := by
    obtain ⟨p, -, hp⟩ := List.mem_map.1 h
    cases hp
    omega
  rw [partner?_ofTokens, partner?_ofTokens,
    bracketPairs_parted ha, List.mem_append, List.mem_append]
  constructor
  · rintro ((h | h) | (h | h))
    · exact .inl h
    · exact absurd (hbehind h).1 (Nat.not_lt.2 hi)
    · exact .inr h
    · exact absurd (hbehind h).2 (Nat.not_lt.2 hi)
  · exact Or.imp .inl .inl

theorem partner?_behind (ha : scan a = .ok ts) (i : Nat) :
    (ofTokens (ts ++ semicolon place :: us)).partner? (ts.length + 1 + i) =
      ((ofTokens us).partner? i).map (ts.length + 1 + ·) := by
  ext j
  have hfront {o c : Nat} (h : (o, c) ∈ bracketPairs 0 [] ts) : o < ts.length ∧ c < ts.length := by
    have hlt := (ordered_ofTokens ts).lt_size (partner?_ofTokens.2 (.inl h))
    rwa [size_ofTokens] at hlt
  rw [partner?_ofTokens, Option.map_eq_some_iff,
    bracketPairs_parted ha, List.mem_append, List.mem_append]
  constructor
  · rintro ((h | h) | (h | h))
    · have := (hfront h).1
      omega
    · obtain ⟨p, hp, heq⟩ := List.mem_map.1 h
      obtain ⟨h₁, h₂⟩ := Prod.mk.inj heq
      obtain rfl : p.1 = i := by omega
      exact ⟨p.2, partner?_ofTokens.2 (.inl hp), h₂⟩
    · have := (hfront h).2
      omega
    · obtain ⟨p, hp, heq⟩ := List.mem_map.1 h
      obtain ⟨h₁, h₂⟩ := Prod.mk.inj heq
      obtain rfl : p.2 = i := by omega
      exact ⟨p.1, partner?_ofTokens.2 (.inr hp), h₁⟩
  · rintro ⟨j, hj, rfl⟩
    rcases partner?_ofTokens.1 hj with h | h
    · exact .inl (.inr (List.mem_map.2 ⟨(i, j), h, rfl⟩))
    · exact .inr (.inr (List.mem_map.2 ⟨(j, i), h, rfl⟩))

theorem token_front {i : Nat} (hi : i < ts.length) :
    (ofTokens (ts ++ semicolon place :: us)).tokens[i]? = (ofTokens ts).tokens[i]? := by
  rw [tokens_ofTokens, tokens_ofTokens, List.getElem?_append_left hi]

theorem token_behind (i : Nat) :
    (ofTokens (ts ++ semicolon place :: us)).tokens[ts.length + 1 + i]? =
      (ofTokens us).tokens[i]? := by
  rw [tokens_ofTokens, tokens_ofTokens, List.getElem?_append_right (by omega),
    show ts.length + 1 + i - ts.length = i + 1 by omega, List.getElem?_cons_succ]

theorem isPunct_semicolon :
    (ofTokens (ts ++ semicolon place :: us)).isPunct ts.length ";" = true := by
  have ht : (ofTokens (ts ++ semicolon place :: us)).tokens[ts.length]? =
      some (semicolon place) := by
    rw [tokens_ofTokens, List.getElem?_append_right (Nat.le_refl _), Nat.sub_self,
      List.getElem?_cons_zero]
  rw [Script.isPunct, ht]
  rfl

theorem embeds_front (ha : scan a = .ok ts)
    (hends : ∀ t ∈ ts, t.kind = .keyword → t.text ≠ "class" ∧ t.text ≠ "import")
    (hhead : ∀ u ∈ us.head?, u.isPunct "=" = false ∧ u.isPunct "," = false) :
    (ofTokens ts).Embeds (ofTokens (ts ++ semicolon place :: us)) 0 := by
  have hsize := size_ofTokens ts
  constructor
  case ordered => exact ordered_ofTokens ts
  case contents =>
    intro i hi
    rw [Nat.zero_add, token_front (hsize ▸ hi)]
  case lines =>
    intro i t u t' u' ht hu ht' hu'
    have hi : i + 1 < ts.length := by
      rw [tokens_ofTokens] at hu
      exact (List.getElem?_eq_some_iff.1 hu).1
    rw [Nat.zero_add, token_front (Nat.lt_of_succ_lt hi), ht] at ht'
    rw [Nat.zero_add, token_front hi, hu] at hu'
    cases ht'
    cases hu'
    exact Iff.rfl
  case partners =>
    intro i hi
    rw [Nat.zero_add, partner?_front ha (hsize ▸ hi)]
    simp
  case before => exact .inl rfl
  case behind =>
    have hnext (p : String) (hp : ∀ u ∈ us.head?, u.isPunct p = false) :
        (ofTokens (ts ++ semicolon place :: us)).isPunct (0 + (ofTokens ts).size + 1) p =
          false := by
      have htoken : (ofTokens (ts ++ semicolon place :: us)).tokens[ts.length + 1]? = us.head? := by
        rw [List.head?_eq_getElem?, ← tokens_ofTokens]
        exact token_behind 0
      rw [Nat.zero_add, hsize, Script.isPunct, htoken]
      cases hu : us.head? with
      | none => rfl
      | some u => exact hp u hu
    refine .inr ?_
    constructor
    case semicolon =>
      rw [Nat.zero_add, hsize]
      exact isPunct_semicolon
    case noValue => exact hnext "=" fun u hu => (hhead u hu).1
    case noMore => exact hnext "," fun u hu => (hhead u hu).2
    case ends =>
      intro i t ht hk
      rw [tokens_ofTokens] at ht
      exact hends t (List.mem_of_getElem? ht) hk

theorem embeds_behind (ha : scan a = .ok ts) :
    (ofTokens us).Embeds (ofTokens (ts ++ semicolon place :: us)) (ts.length + 1) := by
  constructor
  case ordered => exact ordered_ofTokens us
  case contents =>
    intro i _
    rw [token_behind]
  case lines =>
    intro i t u t' u' ht hu ht' hu'
    rw [token_behind, ht] at ht'
    rw [token_behind, hu] at hu'
    cases ht'
    cases hu'
    exact Iff.rfl
  case partners =>
    intro i _
    exact partner?_behind ha i
  case before => exact .inr ⟨ts.length, rfl, isPunct_semicolon⟩
  case behind =>
    refine .inl ?_
    rw [size_ofTokens, size_ofTokens, List.length_append, List.length_cons]
    omega

end Parted

/-! ## What the two scripts say -/

theorem excludes_iff_index {ms : List Mark} {i : Nat} :
    (Declarations.ofMarks ms).excludes i = true ↔ ∃ m ∈ ms, m.index = i := by
  rw [Declarations.excludes_ofMarks]
  constructor
  · rintro (hm | hm)
    · exact ⟨_, hm, rfl⟩
    · exact ⟨_, hm, rfl⟩
  · rintro ⟨m, hm, rfl⟩
    cases m with
    | declares i => exact .inl hm
    | silences i => exact .inr hm

theorem declared_shift (n : Nat) (ms : List Mark) :
    (Declarations.ofMarks (ms.map (Mark.shift n))).declared =
      (Declarations.ofMarks ms).declared.map (n + ·) := by
  simp only [Declarations.ofMarks, List.filterMap_map, List.map_filterMap]
  congr
  funext m
  cases m <;> rfl

theorem Ordered.lt_size_of_declared {s : Script} {i : Nat} (h : s.Ordered)
    (hi : i ∈ s.declarations.declared) : i < s.size :=
  h.says_gather.inside i (Declarations.mem_declared_ofMarks.1 hi)

structure Parted (front behind c : Script) : Prop where
  first : front.Embeds c 0
  second : behind.Embeds c (front.size + 1)
  size : c.size = front.size + 1 + behind.size

namespace Parted

variable {front behind c : Script} {i : Nat} (h : Parted front behind c)

include h

theorem semicolon : c.isPunct front.size ";" = true := by
  rcases h.first.behind with hend | hclosed
  · have := h.size
    omega
  · rw [← Nat.zero_add front.size]
    exact hclosed.semicolon

theorem marks : c.marks = front.marks ++ behind.marks.map (Mark.shift (front.size + 1)) := by
  have hfront : (List.range front.size).flatMap c.marksAt = front.marks := by
    have heq := h.first.marks.eq
    simpa [Mark.shift_zero] using heq
  have hsemicolon : c.marksAt front.size = [] := by
    obtain ⟨t, ht, hkind, htext⟩ := exists_token_of_isPunct h.semicolon
    simp [Script.marksAt, ht, hkind, htext]
  rw [Script.marks, h.size, List.range_add, List.flatMap_append, h.second.marks.eq,
    List.range_succ, List.flatMap_append, hfront, List.flatMap_singleton, hsemicolon,
    List.append_nil]

theorem declaredNames : c.declaredNames = front.declaredNames ++ behind.declaredNames := by
  have hdeclared : c.declarations.declared = front.declarations.declared ++
      behind.declarations.declared.map (front.size + 1 + ·) := by
    rw [declarations, h.marks, Declarations.ofMarks_append, declared_shift]
    rfl
  rw [Script.declaredNames, hdeclared, List.map_append, List.map_map]
  congr 1
  · refine List.map_congr_left fun i hi => ?_
    rw [← h.first.text (h.first.ordered.lt_size_of_declared hi), Nat.zero_add]
  · refine List.map_congr_left fun i hi => ?_
    exact h.second.text (h.second.ordered.lt_size_of_declared hi)

theorem excludes_iff : c.declarations.excludes i = true ↔
    (∃ m ∈ front.marks, m.index = i) ∨ ∃ m ∈ behind.marks, front.size + 1 + m.index = i := by
  rw [declarations, excludes_iff_index, h.marks]
  simp [or_and_right, exists_or, Mark.index_shift]

theorem excludes_front (hi : i < front.size) :
    c.declarations.excludes (0 + i) = front.declarations.excludes i := by
  rw [Nat.zero_add, Bool.eq_iff_iff, h.excludes_iff, declarations, excludes_iff_index]
  refine or_iff_left ?_
  rintro ⟨m, -, hm⟩
  omega

theorem excludes_behind (i : Nat) :
    c.declarations.excludes (front.size + 1 + i) = behind.declarations.excludes i := by
  rw [Bool.eq_iff_iff, h.excludes_iff, declarations, excludes_iff_index]
  constructor
  · rintro (⟨m, hm, hi⟩ | ⟨m, hm, hi⟩)
    · -- what the first script says reaches no further than the semicolon
      have := h.first.marks.within m hm
      omega
    · exact ⟨m, hm, by omega⟩
  · rintro ⟨m, hm, rfl⟩
    exact .inr ⟨m, hm, rfl⟩

end Parted

/-! ## Free names -/

/-- What a part of a script leaves free there, of all that it leaves free alone. -/
theorem Embeds.freeTexts {s c : Script} {n : Nat} {others : List String} (h : s.Embeds c n)
    (hnames : ∀ x, x ∈ c.declaredNames ↔ x ∈ s.declaredNames ∨ x ∈ others)
    (hexcludes : ∀ i < s.size, c.declarations.excludes (n + i) = s.declarations.excludes i) :
    (((List.range s.size).map (n + ·)).filter fun i =>
        c.isName i && c.text i ∉ c.declaredNames && c.isUse c.declarations i).map c.text =
      (s.freeUses.map s.text).filter (· ∉ others) := by
  rw [List.filter_map, List.map_map, freeUses, List.filter_map, List.filter_filter]
  have hkept : ∀ i ∈ List.range s.size,
      (c.isName (n + i) && c.text (n + i) ∉ c.declaredNames && c.isUse c.declarations (n + i)) =
        (s.text i ∉ others &&
          (s.isName i && s.text i ∉ s.declaredNames && s.isUse s.declarations i)) := by
    intro i hi
    rw [List.mem_range] at hi
    have hout : decide (s.text i ∉ c.declaredNames) =
        (decide (s.text i ∉ others) && decide (s.text i ∉ s.declaredNames)) := by
      rw [← Bool.decide_and, decide_eq_decide, hnames, not_or, and_comm]
    rw [h.isName (Nat.le_of_lt hi), h.text hi, h.isUse hi (hexcludes i hi), hout]
    ac_rfl
  refine (congrArg (List.map _) (List.filter_congr hkept)).trans (List.map_congr_left ?_)
  intro i hi
  exact h.text (List.mem_range.1 (List.mem_filter.1 hi).1)

end Script

theorem eraseDups_filter (p : String → Bool) (l : List String) :
    (l.filter p).eraseDups = l.eraseDups.filter p := by
  -- not on the list itself, for its tail loses the other copies of the head first
  generalize hn : l.length = n
  induction n using Nat.strongRecOn generalizing l with
  | ind n ih =>
    cases l with
    | nil => rfl
    | cons x l =>
      have hshorter : (l.filter fun y => !y == x).length < n := by
        rw [← hn, List.length_cons]
        exact Nat.lt_succ_of_le (List.length_filter_le ..)
      rw [List.eraseDups_cons, List.filter_cons, List.filter_cons, ← ih _ hshorter _ rfl,
        List.filter_filter]
      split
      case isTrue hx =>
        rw [List.eraseDups_cons, List.filter_filter]
        simp only [Bool.and_comm]
      case isFalse hx =>
        congr 1
        refine List.filter_congr fun y _ => ?_
        by_cases hy : y = x
        · subst hy
          simp [hx]
        · simp [hy]

theorem eraseDups_filter_append {xs ys : List String} {p q : String → Bool}
    (hp : ∀ y ∈ ys, p y = true) :
    (xs.filter p ++ ys.filter q).eraseDups =
      xs.eraseDups.filter p ++ ys.eraseDups.filter fun y => q y && y ∉ xs.eraseDups := by
  have hrest : (ys.filter q).removeAll (xs.filter p) =
      ys.filter fun y => q y && y ∉ xs.eraseDups := by
    rw [List.removeAll, List.filter_filter]
    refine List.filter_congr fun y hy => ?_
    simp [hp y hy, Bool.and_comm]
  rw [List.eraseDups_append, hrest, eraseDups_filter, eraseDups_filter]

namespace Script

theorem not_mem_declaredNames_of_mem_freeUses {s : Script} {x : String}
    (hx : x ∈ s.freeUses.map s.text) : x ∉ s.declaredNames := by
  obtain ⟨i, hi, rfl⟩ := List.mem_map.1 hx
  have huse := (List.mem_filter.1 hi).2
  rw [Bool.and_eq_true, Bool.and_eq_true, decide_eq_true_eq] at huse
  exact huse.1.2

/-- A name that one part leaves free is free in the whole script, unless the other one declares
it. -/
theorem Parted.freeNames {front behind c : Script} (h : Parted front behind c) :
    c.freeNames = front.freeNames.filter (· ∉ behind.declaredNames) ++
      behind.freeNames.filter fun x => x ∉ front.declaredNames && x ∉ front.freeNames := by
  have hnames (x : String) :
      x ∈ c.declaredNames ↔ x ∈ front.declaredNames ∨ x ∈ behind.declaredNames := by
    rw [h.declaredNames, List.mem_append]
  have hsemicolon : c.isName front.size = false := by
    have hkind := (isPunct_iff.1 h.semicolon).1
    rw [Script.isName, hkind]
    rfl
  have hfirst := h.first.freeTexts hnames fun i hi => h.excludes_front hi
  have hsecond := h.second.freeTexts (fun x => (hnames x).trans or_comm)
    fun i _ => h.excludes_behind i
  have huses : c.freeUses.map c.text =
      (front.freeUses.map front.text).filter (· ∉ behind.declaredNames) ++
        (behind.freeUses.map behind.text).filter (· ∉ front.declaredNames) := by
    have hzero : (List.range front.size).map (0 + ·) = List.range front.size := by simp
    rw [← hfirst, ← hsecond, hzero, freeUses, h.size, List.range_add, List.range_succ,
      List.filter_append, List.filter_append, List.filter_singleton, hsemicolon, List.map_append]
    simp only [Bool.false_and, cond_false, List.append_nil]
    rfl
  rw [Script.freeNames, huses, eraseDups_filter_append]
  · rfl
  · intro x hx
    exact decide_eq_true (not_mem_declaredNames_of_mem_freeUses hx)

end Script

/-! ## Texts -/

theorem exists_head_of_told {line line' : Nat} {us us' : List Token} {u' : Token}
    (h : told line' us' = told line us) (hu' : u' ∈ us'.head?) :
    ∃ u ∈ us.head?, u'.content = u.content := by
  cases us' with
  | nil => cases hu'
  | cons v' us' =>
    cases hu'
    cases us with
    | nil => cases h
    | cons u us => exact ⟨u, rfl, (Prod.mk.inj (List.cons.inj h).1).1⟩

/-- What two texts leave free together: first the names that the first one leaves free and the
second one does not declare, then those that the second one leaves free and the first one neither
declares nor leaves free. No other name gets free by it, and none is hidden. -/
theorem freeNamesOf_joined {a b : String} {ts us : List Token} (ha : scan a = .ok ts)
    (hb : scan b = .ok us)
    (hends : ∀ t ∈ ts, t.kind = .keyword → t.text ≠ "class" ∧ t.text ≠ "import")
    (hhead : ∀ u ∈ us.head?, u.isPunct "=" = false ∧ u.isPunct "," = false) :
    ∃ xs ys zs, freeNamesOf a = .ok xs ∧ freeNamesOf b = .ok ys ∧
      freeNamesOf (a ++ "\n;\n" ++ b) = .ok zs ∧
      zs = xs.filter (· ∉ (Script.ofTokens us).declaredNames) ++
        ys.filter (fun x => x ∉ (Script.ofTokens ts).declaredNames && x ∉ xs) ∧
      ∀ x, x ∈ zs ↔ (x ∈ xs ∧ x ∉ (Script.ofTokens us).declaredNames) ∨
        (x ∈ ys ∧ x ∉ (Script.ofTokens ts).declaredNames) := by
  obtain ⟨place, us', hjoined, htold⟩ := scan_joined ha hb
  have hechoes : (Script.ofTokens us).Echoes (Script.ofTokens us') := Script.echoes_ofTokens htold
  have hhead' : ∀ u ∈ us'.head?, u.isPunct "=" = false ∧ u.isPunct "," = false := by
    intro u' hu'
    obtain ⟨u, hu, hcontent⟩ := exists_head_of_told htold hu'
    obtain ⟨hkind, htext⟩ := Prod.mk.inj hcontent
    rw [Token.isPunct_eq hkind htext, Token.isPunct_eq hkind htext]
    exact hhead u hu
  have hparted : (Script.ofTokens ts).Parted (Script.ofTokens us')
      (Script.ofTokens (ts ++ semicolon place :: us')) := by
    constructor
    case first => exact Script.embeds_front ha hends hhead'
    case second =>
      rw [Script.size_ofTokens]
      exact Script.embeds_behind ha
    case size =>
      simp only [Script.size_ofTokens, List.length_append, List.length_cons]
      omega
  have hdeclared : (Script.ofTokens us').declaredNames = (Script.ofTokens us).declaredNames := by
    rw [Script.declaredNames, Script.declaredNames, hechoes.declarations, funext hechoes.text]
  refine ⟨(Script.ofTokens ts).freeNames, (Script.ofTokens us).freeNames, _, ?_, ?_, ?_, rfl, ?_⟩
  · rw [freeNamesOf, ha]
    rfl
  · rw [freeNamesOf, hb]
    rfl
  · change freeNamesOf (joined a b) = _
    rw [freeNamesOf, hjoined, ← hdeclared, ← hechoes.freeNames]
    exact congrArg Except.ok hparted.freeNames
  · intro x
    have hfree : x ∈ (Script.ofTokens us).freeNames → x ∉ (Script.ofTokens us).declaredNames :=
      fun hx => Script.not_mem_declaredNames_of_mem_freeUses (List.mem_eraseDups.1 hx)
    simp only [List.mem_append, List.mem_filter, Bool.and_eq_true, decide_eq_true_eq]
    constructor
    · rintro (hx | ⟨hx, hdeclared, -⟩)
      · exact .inl hx
      · exact .inr ⟨hx, hdeclared⟩
    · rintro (hx | ⟨hx, hdeclared⟩)
      · exact .inl hx
      · by_cases hxs : x ∈ (Script.ofTokens ts).freeNames
        · exact .inl ⟨hxs, hfree hx⟩
        · exact .inr ⟨hx, hdeclared, hxs⟩

def lending : String := "let x = y(z)"

def lendingTokens : List Token :=
  [⟨.keyword, "let", ⟨0, 1, 1⟩⟩, ⟨.name, "x", ⟨4, 1, 5⟩⟩, ⟨.punctuator, "=", ⟨6, 1, 7⟩⟩,
    ⟨.name, "y", ⟨8, 1, 9⟩⟩, ⟨.punctuator, "(", ⟨9, 1, 10⟩⟩, ⟨.name, "z", ⟨10, 1, 11⟩⟩,
    ⟨.punctuator, ")", ⟨11, 1, 12⟩⟩]

/-- A text that uses what the other one declares, and declares what that one uses. -/
def returning : String := "var y = x(z, w)"

def returningTokens : List Token :=
  [⟨.keyword, "var", ⟨0, 1, 1⟩⟩, ⟨.name, "y", ⟨4, 1, 5⟩⟩, ⟨.punctuator, "=", ⟨6, 1, 7⟩⟩,
    ⟨.name, "x", ⟨8, 1, 9⟩⟩, ⟨.punctuator, "(", ⟨9, 1, 10⟩⟩, ⟨.name, "z", ⟨10, 1, 11⟩⟩,
    ⟨.punctuator, ",", ⟨11, 1, 12⟩⟩, ⟨.name, "w", ⟨13, 1, 14⟩⟩, ⟨.punctuator, ")", ⟨14, 1, 15⟩⟩]

theorem freeNamesOf_lending_returning :
    scan lending = .ok lendingTokens ∧ scan returning = .ok returningTokens ∧
      (∀ t ∈ lendingTokens, t.kind = .keyword → t.text ≠ "class" ∧ t.text ≠ "import") ∧
      (∀ u ∈ returningTokens.head?, u.isPunct "=" = false ∧ u.isPunct "," = false) ∧
      freeNamesOf lending = .ok ["y", "z"] ∧ freeNamesOf returning = .ok ["x", "z", "w"] ∧
      freeNamesOf (lending ++ "\n;\n" ++ returning) = .ok ["z", "w"] := by
  have ha : scan lending = .ok lendingTokens := by decide +kernel
  have hb : scan returning = .ok returningTokens := by decide +kernel
  have hends : ∀ t ∈ lendingTokens, t.kind = .keyword → t.text ≠ "class" ∧ t.text ≠ "import" := by
    decide
  have hhead : ∀ u ∈ returningTokens.head?, u.isPunct "=" = false ∧ u.isPunct "," = false := by
    decide
  have hxs : freeNamesOf lending = .ok ["y", "z"] := by decide +kernel
  have hys : freeNamesOf returning = .ok ["x", "z", "w"] := by decide +kernel
  obtain ⟨xs, ys, zs, hxs', hys', hzs, heq, -⟩ := freeNamesOf_joined ha hb hends hhead
  obtain rfl : xs = ["y", "z"] := Except.ok.inj (hxs'.symm.trans hxs)
  obtain rfl : ys = ["x", "z", "w"] := Except.ok.inj (hys'.symm.trans hys)
  have hnames : zs = ["z", "w"] := by
    rw [heq]
    decide +kernel
  exact ⟨ha, hb, hends, hhead, hxs, hys, hzs.trans (congrArg Except.ok hnames)⟩

end MdxLint
