import MdxLint.Proofs.Glob.Segments

/-! # The union of alternatives

A pattern with alternatives, nested to any depth, is expanded to the texts that come from it by
choosing one alternative in each group met. The expansion replaces a group once its alternatives
hold no groups: what has been read before a group may have opened others but closed none, so the
groups are met as the pattern nests them. If no group is nested, the texts come in the
lexicographic order of the choices.
-/

namespace MdxLint.Glob

/-- The characters that groups are written with. -/
def groupMarks : List Char := ['\x7b', ',', '\x7d']

def Unmarked (cs : List Char) : Prop := ∀ c ∈ cs, c ∉ groupMarks

mutual

/-- A pattern with alternatives: characters that mark no group, and groups. -/
inductive Branching
  | stop
  | char (c : Char) (hc : c ∉ groupMarks) (rest : Branching)
  | group (ps : Options) (rest : Branching)

/-- The alternatives of a group, of which there are two or more. -/
inductive Options
  | pair (p q : Branching)
  | cons (p : Branching) (ps : Options)

end

mutual

/-- The pattern as it is written. -/
def Branching.text : Branching → List Char
  | .stop => []
  | .char c _ rest => c :: rest.text
  | .group ps rest => '\x7b' :: ([','].intercalate ps.texts ++ '\x7d' :: rest.text)

def Options.texts : Options → List (List Char)
  | .pair p q => [p.text, q.text]
  | .cons p ps => p.text :: ps.texts

end

def Options.toList : Options → List Branching
  | .pair p q => [p, q]
  | .cons p ps => p :: ps.toList

/-- The text comes from the pattern by choosing one alternative in each group met. -/
inductive Branching.Denotes : Branching → List Char → Prop
  | stop : Denotes .stop []
  | char {c : Char} {hc : c ∉ groupMarks} {rest : Branching} {w : List Char}
      (h : rest.Denotes w) : Denotes (.char c hc rest) (c :: w)
  | group {ps : Options} {p rest : Branching} {v w : List Char} (hp : p ∈ ps.toList)
      (hv : p.Denotes v) (hw : rest.Denotes w) : Denotes (.group ps rest) (v ++ w)

mutual

/-- The texts that a pattern stands for, in the order in which it is expanded: each way to expand
the alternatives of a group, and for each of these one text after the other. -/
def Branching.words : Branching → List (List Char)
  | .stop => [[]]
  | .char c _ rest => rest.words.map (c :: ·)
  | .group ps rest => ps.rows.flatten.flatMap fun v => rest.words.map (v ++ ·)

def Options.rows : Options → List (List (List Char))
  | .pair p q => p.words.flatMap fun v => q.words.map fun w => [v, w]
  | .cons p ps => p.words.flatMap fun v => ps.rows.map (v :: ·)

end

section Group

variable {cs before body behind : List Char} {row : List (List Char)}

theorem expand_eq_of_group?_eq_none (h : group? cs = none) : expand cs = [cs] := by
  rw [expand]
  split
  · rfl
  · simp_all

theorem expand_eq_flatMap (h : group? cs = some (before, body, behind)) :
    expand cs = (splitAtChar ',' body).flatMap fun p => expand (before ++ (p ++ behind)) := by
  rw [expand]
  split
  case h_1 hnone => cases hnone.symm.trans h
  case h_2 before' body' behind' hgroup =>
    cases hgroup.symm.trans h
    simp [List.flatMap_subtype]

theorem group?_eq_none (h : Unmarked cs) : group? cs = none := by
  induction cs with
  | nil => rfl
  | cons c cs ih =>
    obtain ⟨hc, h⟩ := List.forall_mem_cons.1 h
    have hopen : c ≠ '\x7b' := fun hopen => hc (by simp [hopen, groupMarks])
    rw [group?, if_neg hopen, ih h]
    rfl

theorem groupBody?_append (h : ∀ c ∈ body, c ≠ '\x7b' ∧ c ≠ '\x7d') :
    groupBody? (body ++ '\x7d' :: behind) = some (body, behind) := by
  induction body with
  | nil => rfl
  | cons c body ih =>
    obtain ⟨⟨hopen, hclose⟩, h⟩ := List.forall_mem_cons.1 h
    rw [List.cons_append, groupBody?, if_neg hclose, if_neg hopen, ih h]
    rfl

theorem groupBody?_eq_none (h : '\x7d' ∉ before) : groupBody? (before ++ '\x7b' :: cs) = none := by
  induction before with
  | nil => rfl
  | cons c before ih =>
    rw [List.mem_cons, not_or] at h
    rw [List.cons_append, groupBody?, if_neg (Ne.symm h.1), ih h.2]
    split <;> rfl

theorem group?_append (hbefore : '\x7d' ∉ before) (hbody : ∀ c ∈ body, c ≠ '\x7b' ∧ c ≠ '\x7d')
    (hcomma : ',' ∈ body) :
    group? (before ++ '\x7b' :: (body ++ '\x7d' :: behind)) = some (before, body, behind) := by
  induction before with
  | nil => simp [group?, groupBody?_append hbody, hcomma]
  | cons c before ih =>
    rw [List.mem_cons, not_or] at hbefore
    -- a brace opened in front meets the brace of the group before one that closes it
    simp [group?, groupBody?_eq_none hbefore.2, ih hbefore.2]

theorem mem_of_mem_intercalate {sep : List Char} {c : Char} (h : c ∈ sep.intercalate row) :
    c ∈ sep ∨ ∃ w ∈ row, c ∈ w := by
  induction row with
  | nil => simp at h
  | cons w row ih =>
    cases row with
    | nil => exact .inr ⟨w, List.mem_cons_self, by simpa using h⟩
    | cons w' row =>
      rw [List.intercalate_cons_cons, List.mem_append, List.mem_append] at h
      rcases h with (h | h) | h
      · exact .inr ⟨w, List.mem_cons_self, h⟩
      · exact .inl h
      · exact (ih h).imp_right fun ⟨v, hv, hc⟩ => ⟨v, List.mem_cons_of_mem _ hv, hc⟩

theorem expand_group (hbefore : '\x7d' ∉ before) (hlen : 2 ≤ row.length)
    (hrow : ∀ w ∈ row, Unmarked w) :
    expand (before ++ '\x7b' :: ([','].intercalate row ++ '\x7d' :: behind)) =
      row.flatMap fun w => expand (before ++ (w ++ behind)) := by
  have hcomma : ',' ∈ [','].intercalate row := by
    obtain ⟨v, w, row, rfl⟩ : ∃ v w r, row = v :: w :: r := by
      match row, hlen with
      | v :: w :: r, _ => exact ⟨v, w, r, rfl⟩
    simp
  have hbraces (c : Char) (hc : c ∈ [','].intercalate row) : c ≠ '\x7b' ∧ c ≠ '\x7d' := by
    rcases mem_of_mem_intercalate hc with hc | ⟨w, hw, hc⟩
    · rw [List.mem_singleton.1 hc]
      decide
    · have hmark := hrow w hw c hc
      constructor <;> rintro rfl <;> exact hmark (by decide)
  rw [expand_eq_flatMap (group?_append hbefore hbraces hcomma),
    splitAtChar_eq_splitOn, List.splitOn_intercalate]
  · intro w hw hmem
    exact hrow w hw _ hmem (by decide)
  · rintro rfl
    simp at hlen

end Group

theorem Unmarked.append {v w : List Char} (hv : Unmarked v) (hw : Unmarked w) :
    Unmarked (v ++ w) := by
  intro c hc
  exact (List.mem_append.1 hc).elim (hv c) (hw c)

theorem Unmarked.not_mem {w : List Char} (hw : Unmarked w) : '\x7d' ∉ w := fun hc =>
  hw _ hc (by decide)

mutual

theorem Branching.unmarked_of_mem_words (p : Branching) {w : List Char} (hw : w ∈ p.words) :
    Unmarked w := by
  cases p with
  | stop =>
    obtain rfl := List.mem_singleton.1 hw
    exact List.forall_mem_nil _
  | char c hc rest =>
    obtain ⟨v, hv, rfl⟩ := List.mem_map.1 hw
    exact List.forall_mem_cons.2 ⟨hc, rest.unmarked_of_mem_words hv⟩
  | group ps rest =>
    simp only [Branching.words, List.mem_flatMap, List.mem_flatten, List.mem_map] at hw
    obtain ⟨v, ⟨row, hrow, hv⟩, w, hw, rfl⟩ := hw
    exact ((ps.unmarked_of_mem_rows hrow).2 v hv).append (rest.unmarked_of_mem_words hw)

theorem Options.unmarked_of_mem_rows (ps : Options) {row : List (List Char)}
    (hrow : row ∈ ps.rows) : 2 ≤ row.length ∧ ∀ w ∈ row, Unmarked w := by
  cases ps with
  | pair p q =>
    simp only [Options.rows, List.mem_flatMap, List.mem_map] at hrow
    obtain ⟨v, hv, w, hw, rfl⟩ := hrow
    simp [p.unmarked_of_mem_words hv, q.unmarked_of_mem_words hw]
  | cons p ps =>
    simp only [Options.rows, List.mem_flatMap, List.mem_map] at hrow
    obtain ⟨v, hv, row, hrow, rfl⟩ := hrow
    obtain ⟨hlen, hplain⟩ := ps.unmarked_of_mem_rows hrow
    exact ⟨Nat.le_succ_of_le hlen, List.forall_mem_cons.2 ⟨p.unmarked_of_mem_words hv, hplain⟩⟩

end

theorem Options.texts_ne_nil (ps : Options) : ps.texts ≠ [] := by
  cases ps <;> exact List.cons_ne_nil _ _

section Spreads

variable {x y : List Char} {xs ys : List (List Char)} {rows : List (List (List Char))}

/-- Behind braces that are not closed, the text is expanded as if each of the others stood in its
place, one after the other. -/
def Spreads (x : List Char) (xs : List (List Char)) : Prop :=
  ∀ before behind, '\x7d' ∉ before →
    expand (before ++ (x ++ behind)) = xs.flatMap fun w => expand (before ++ (w ++ behind))

theorem Spreads.self (x : List Char) : Spreads x [x] := fun _ _ _ => by simp

theorem Spreads.append (hx : Spreads x xs) (hxs : ∀ v ∈ xs, '\x7d' ∉ v) (hy : Spreads y ys) :
    Spreads (x ++ y) (xs.flatMap fun v => ys.map (v ++ ·)) := by
  intro before behind h
  calc expand (before ++ (x ++ y ++ behind))
    _ = expand (before ++ (x ++ (y ++ behind))) := by rw [List.append_assoc]
    _ = xs.flatMap fun v => expand (before ++ (v ++ (y ++ behind))) := hx _ _ h
    _ = xs.flatMap fun v => ys.flatMap fun w => expand (before ++ (v ++ w ++ behind)) := by
      apply List.flatMap_congr
      intro v hv
      have hclose : '\x7d' ∉ before ++ v := by simp [h, hxs v hv]
      simpa using hy (before ++ v) behind hclose
    _ = (xs.flatMap fun v => ys.map (v ++ ·)).flatMap fun w => expand (before ++ (w ++ behind)) := by
      simp [List.flatMap_assoc, List.flatMap_map]

theorem Spreads.group (hx : Spreads x (rows.map [','].intercalate))
    (hrows : ∀ row ∈ rows, 2 ≤ row.length ∧ ∀ w ∈ row, Unmarked w) :
    Spreads ('\x7b' :: (x ++ ['\x7d'])) rows.flatten := by
  intro before behind h
  have hopen : '\x7d' ∉ before ++ ['\x7b'] := by simpa using h
  calc expand (before ++ ('\x7b' :: (x ++ ['\x7d']) ++ behind))
    _ = expand (before ++ ['\x7b'] ++ (x ++ '\x7d' :: behind)) := by simp
    _ = rows.flatMap fun row =>
          expand (before ++ '\x7b' :: ([','].intercalate row ++ '\x7d' :: behind)) := by
      rw [hx _ _ hopen, List.flatMap_map]
      simp
    _ = rows.flatMap fun row => row.flatMap fun w => expand (before ++ (w ++ behind)) :=
      List.flatMap_congr fun row hrow => expand_group h (hrows row hrow).1 (hrows row hrow).2
    _ = rows.flatten.flatMap fun w => expand (before ++ (w ++ behind)) := by
      rw [← List.flatMap_id, List.flatMap_assoc]
      rfl

end Spreads

mutual

theorem Branching.spreads (p : Branching) : Spreads p.text p.words := by
  cases p with
  | stop => exact .self []
  | char c hc rest =>
    have hchar : ∀ v ∈ [[c]], '\x7d' ∉ v := by
      simp only [List.mem_singleton, forall_eq]
      rintro rfl
      exact hc (by decide)
    simpa [Branching.text, Branching.words] using (Spreads.self [c]).append hchar rest.spreads
  | group ps rest =>
    have hplain : ∀ w ∈ ps.rows.flatten, '\x7d' ∉ w := by
      intro w hw
      obtain ⟨row, hrow, hw⟩ := List.mem_flatten.1 hw
      exact ((ps.unmarked_of_mem_rows hrow).2 w hw).not_mem
    have hgroup := Spreads.group ps.spreads fun row hrow => ps.unmarked_of_mem_rows hrow
    simpa [Branching.text, Branching.words] using hgroup.append hplain rest.spreads

theorem Options.spreads (ps : Options) :
    Spreads ([','].intercalate ps.texts) (ps.rows.map [','].intercalate) := by
  have hcomma : ∀ v ∈ [[',']], '\x7d' ∉ v := by decide
  cases ps with
  | pair p q =>
    have h := p.spreads.append (fun v hv => (p.unmarked_of_mem_words hv).not_mem)
      ((Spreads.self [',']).append hcomma q.spreads)
    simpa [Options.texts, Options.rows, List.map_flatMap, Function.comp_def] using h
  | cons p ps =>
    have h := p.spreads.append (fun v hv => (p.unmarked_of_mem_words hv).not_mem)
      ((Spreads.self [',']).append hcomma ps.spreads)
    have hrows (v : List Char) : ps.rows.map (fun row => [','].intercalate (v :: row)) =
        ps.rows.map fun row => v ++ ',' :: [','].intercalate row := by
      apply List.map_congr_left
      intro row hrow
      have hne : row ≠ [] := by
        rintro rfl
        exact absurd (ps.unmarked_of_mem_rows hrow).1 (by decide)
      simp [List.intercalate_cons_of_ne_nil hne]
    simpa [Options.texts, Options.rows, List.map_flatMap, Function.comp_def, hrows,
      List.intercalate_cons_of_ne_nil ps.texts_ne_nil] using h

end

theorem Branching.expand_text (p : Branching) : expand p.text = p.words := by
  have h := p.spreads [] [] List.not_mem_nil
  simp only [List.nil_append, List.append_nil] at h
  rw [h, List.flatMap_congr fun w hw =>
    expand_eq_of_group?_eq_none (group?_eq_none (p.unmarked_of_mem_words hw))]
  exact List.flatMap_singleton' _

/-- An alternative beside a group comes back once for each alternative of this group. -/
example : expand ['\x7b', 'a', ',', '\x7b', 'b', ',', 'c', '\x7d', '\x7d'] =
    [['a'], ['b'], ['a'], ['c']] :=
  by decide +kernel

mutual

theorem Branching.denotes_of_mem_words (p : Branching) {w : List Char} (hw : w ∈ p.words) :
    p.Denotes w := by
  cases p with
  | stop =>
    obtain rfl := List.mem_singleton.1 hw
    exact .stop
  | char c hc rest =>
    obtain ⟨v, hv, rfl⟩ := List.mem_map.1 hw
    exact .char (rest.denotes_of_mem_words hv)
  | group ps rest =>
    simp only [Branching.words, List.mem_flatMap, List.mem_flatten, List.mem_map] at hw
    obtain ⟨v, ⟨row, hrow, hv⟩, w, hw, rfl⟩ := hw
    obtain ⟨p, hp, hpv⟩ := ps.denotes_of_mem_rows hrow v hv
    exact .group hp hpv (rest.denotes_of_mem_words hw)

theorem Options.denotes_of_mem_rows (ps : Options) {row : List (List Char)} (hrow : row ∈ ps.rows) :
    ∀ w ∈ row, ∃ p ∈ ps.toList, p.Denotes w := by
  cases ps with
  | pair p q =>
    simp only [Options.rows, List.mem_flatMap, List.mem_map] at hrow
    obtain ⟨v, hv, w, hw, rfl⟩ := hrow
    simp [Options.toList, p.denotes_of_mem_words hv, q.denotes_of_mem_words hw]
  | cons p ps =>
    simp only [Options.rows, List.mem_flatMap, List.mem_map] at hrow
    obtain ⟨v, hv, row, hrow, rfl⟩ := hrow
    refine List.forall_mem_cons.2 ⟨⟨p, List.mem_cons_self, p.denotes_of_mem_words hv⟩, ?_⟩
    intro w hw
    obtain ⟨q, hq, hqw⟩ := ps.denotes_of_mem_rows hrow w hw
    exact ⟨q, List.mem_cons_of_mem _ hq, hqw⟩

end

theorem Options.mem_rows_pair {p q : Branching} {v w : List Char} (hv : v ∈ p.words)
    (hw : w ∈ q.words) : [v, w] ∈ (Options.pair p q).rows :=
  List.mem_flatMap.2 ⟨v, hv, List.mem_map.2 ⟨w, hw, rfl⟩⟩

theorem Options.mem_rows_cons {p : Branching} {ps : Options} {v : List Char}
    {row : List (List Char)} (hv : v ∈ p.words) (hrow : row ∈ ps.rows) :
    v :: row ∈ (Options.cons p ps).rows :=
  List.mem_flatMap.2 ⟨v, hv, List.mem_map.2 ⟨row, hrow, rfl⟩⟩

mutual

theorem Branching.exists_mem_words (p : Branching) : ∃ w, w ∈ p.words := by
  cases p with
  | stop => exact ⟨[], List.mem_singleton.2 rfl⟩
  | char c hc rest =>
    obtain ⟨w, hw⟩ := rest.exists_mem_words
    exact ⟨c :: w, List.mem_map.2 ⟨w, hw, rfl⟩⟩
  | group ps rest =>
    obtain ⟨row, hrow⟩ := ps.exists_mem_rows
    obtain ⟨w, hw⟩ := rest.exists_mem_words
    obtain ⟨v, hv⟩ := List.exists_mem_of_length_pos
      (Nat.zero_lt_of_lt (ps.unmarked_of_mem_rows hrow).1)
    exact ⟨v ++ w, List.mem_flatMap.2
      ⟨v, List.mem_flatten.2 ⟨row, hrow, hv⟩, List.mem_map.2 ⟨w, hw, rfl⟩⟩⟩

theorem Options.exists_mem_rows (ps : Options) : ∃ row, row ∈ ps.rows := by
  cases ps with
  | pair p q =>
    obtain ⟨v, hv⟩ := p.exists_mem_words
    obtain ⟨w, hw⟩ := q.exists_mem_words
    exact ⟨[v, w], Options.mem_rows_pair hv hw⟩
  | cons p ps =>
    obtain ⟨v, hv⟩ := p.exists_mem_words
    obtain ⟨row, hrow⟩ := ps.exists_mem_rows
    exact ⟨v :: row, Options.mem_rows_cons hv hrow⟩

end

theorem Options.exists_row (ps : Options) {p : Branching} {v : List Char} (hp : p ∈ ps.toList)
    (hv : v ∈ p.words) : ∃ row ∈ ps.rows, v ∈ row := by
  cases ps with
  | pair q r =>
    obtain ⟨x, hx⟩ := q.exists_mem_words
    obtain ⟨y, hy⟩ := r.exists_mem_words
    rcases List.mem_pair.1 hp with rfl | rfl
    · exact ⟨[v, y], mem_rows_pair hv hy, List.mem_cons_self⟩
    · exact ⟨[x, v], mem_rows_pair hx hv, by simp⟩
  | cons q ps =>
    rcases List.mem_cons.1 hp with rfl | hp
    · obtain ⟨row, hrow⟩ := ps.exists_mem_rows
      exact ⟨v :: row, mem_rows_cons hv hrow, List.mem_cons_self⟩
    · obtain ⟨x, hx⟩ := q.exists_mem_words
      obtain ⟨row, hrow, hmem⟩ := ps.exists_row hp hv
      exact ⟨x :: row, mem_rows_cons hx hrow, List.mem_cons_of_mem _ hmem⟩

theorem Branching.mem_words_iff {p : Branching} {w : List Char} : w ∈ p.words ↔ p.Denotes w := by
  constructor
  · exact p.denotes_of_mem_words
  · intro h
    induction h with
    | stop => exact List.mem_singleton.2 rfl
    | char _ ih => exact List.mem_map.2 ⟨_, ih, rfl⟩
    | group hp _ _ ihv ihw =>
      obtain ⟨row, hrow, hv⟩ := Options.exists_row _ hp ihv
      exact List.mem_flatMap.2 ⟨_, List.mem_flatten.2 ⟨row, hrow, hv⟩, List.mem_map.2 ⟨_, ihw, rfl⟩⟩

end MdxLint.Glob
