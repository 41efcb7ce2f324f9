import MdxLint.Glob.Pattern

/-! # Patterns read back

A pattern without sets is written out as an expression and read again as rows of items. What comes
back is one row for each of its alternatives, and the items of a row can be told from the text of
the alternative at once.
-/

namespace MdxLint.Glob

def segmentSet : CharSet := .except '/'

def itemsOf (cs : List Char) : List Item :=
  match cs with
  | [] => []
  | '*' :: '*' :: '/' :: rest => .folders :: itemsOf rest
  | ['/', '*', '*'] => [.below]
  | '*' :: '*' :: rest => .many anyChar :: itemsOf rest
  | '*' :: rest => .many segmentSet :: itemsOf rest
  | '?' :: rest => .one segmentSet :: itemsOf rest
  | c :: rest => .one (.one c) :: itemsOf rest

def consItems (items : List Item) (rs : List (List Item)) : List (List Item) :=
  items.foldr consItem rs

@[simp] theorem consItems_cons (i : Item) (items : List Item) (rs : List (List Item)) :
    consItems (i :: items) rs = consItem i (consItems items rs) := rfl

theorem consItems_row (items row : List Item) (rs : List (List Item)) :
    consItems items (row :: rs) = (items ++ row) :: rs := by
  induction items with
  | nil => rfl
  | cons i items ih => rw [consItems_cons, ih]; rfl

theorem foldersText_eq : foldersText = ['(', '?', ':', '.', '*', '/', ')', '?'] := by decide

theorem belowText_eq : belowText = ['(', '?', ':', '/', '.', '*', ')', '?'] := by decide

theorem anyText_eq : anyText = ['.', '*'] := by decide

theorem segmentChar_eq : segmentChar = ['[', '^', '/', ']'] := by decide

section Rows

variable [CharNames] {rest : List Char}

theorem rows_close (rest : List Char) : rows (')' :: rest) = .ok [[]] := by
  rw [rows.eq_def]
  dsimp only
  rw [if_pos rfl]

theorem rows_bar (rest : List Char) : rows ('|' :: rest) = (rows rest).map ([] :: ·) := by
  rw [rows.eq_def]
  dsimp only
  rw [if_neg (by decide), if_pos rfl]

theorem rows_folders (rest : List Char) :
    rows (foldersText ++ rest) = (rows rest).map (consItem .folders) := by
  rw [foldersText_eq, rows.eq_def]
  simp [foldersText_eq]

theorem rows_below (rest : List Char) :
    rows (belowText ++ rest) = (rows rest).map (consItem .below) := by
  rw [belowText_eq, rows.eq_def]
  simp [foldersText_eq, belowText_eq]

theorem rows_any (rest : List Char) :
    rows (anyText ++ rest) = (rows rest).map (consItem (.many anyChar)) := by
  rw [anyText_eq, rows.eq_def]
  simp [foldersText_eq, belowText_eq]

theorem charSet_segment (rest : List Char) :
    ∃ h, charSet ('^' :: '/' :: ']' :: rest) = .ok (segmentSet, ⟨rest, h⟩) := by
  have hend : ∃ h, members false (']' :: rest) = .ok ([], ⟨rest, h⟩) := by
    rw [members.eq_def]
    simp
  obtain ⟨h, hend⟩ := hend
  have hmembers : ∃ h, members true ('/' :: ']' :: rest) =
      .ok ([.range '/'.toNat '/'.toNat], ⟨rest, h⟩) := by
    have hdrop : members false (List.drop 0 (']' :: rest)) = .ok ([], ⟨rest, h⟩) := hend
    rw [members.eq_def]
    simp only [setToken, Char.reduceEq, decide_false, Bool.false_and, Bool.false_eq_true, if_false,
      hdrop]
    exact ⟨by simp only [List.length_cons]; omega, rfl⟩
  obtain ⟨_, hmembers⟩ := hmembers
  rw [charSet, if_pos rfl, hmembers]
  exact ⟨_, rfl⟩

theorem rows_segment (h : rest.head? ≠ some '*') :
    rows (segmentChar ++ rest) = (rows rest).map (consItem (.one segmentSet)) := by
  obtain ⟨_, hset⟩ := charSet_segment rest
  rw [segmentChar_eq, rows.eq_def]
  simp [hset, h]

theorem rows_segments (rest : List Char) :
    rows (segmentChar ++ '*' :: rest) = (rows rest).map (consItem (.many segmentSet)) := by
  obtain ⟨_, hset⟩ := charSet_segment ('*' :: rest)
  rw [segmentChar_eq, rows.eq_def]
  simp [hset]

theorem rows_literal (c : Char) (rest : List Char) :
    rows (literal c ++ rest) = (rows rest).map (consItem (.one (.one c))) := by
  unfold literal
  split
  case isTrue =>
    rw [rows.eq_def]
    simp [foldersText_eq, belowText_eq]
  case isFalse hc =>
    simp only [specials, List.mem_cons, List.not_mem_nil, or_false, not_or] at hc
    rw [rows.eq_def]
    simp [foldersText_eq, belowText_eq, hc, Ne.symm hc.2.2.2.2.2.2.2.2.2.1]

end Rows

section Written

variable {cs tail : List Char}

theorem head?_literal_append (c : Char) (rest : List Char) :
    (literal c ++ rest).head? ≠ some '*' := by
  unfold literal
  split
  · simp
  · rename_i hc
    rintro heq
    simp only [List.singleton_append, List.head?_cons, Option.some.injEq] at heq
    exact hc (by rw [heq]; decide)

theorem head?_written_append (cs : List Char) (ht : tail.head? ≠ some '*') :
    (written cs ++ tail).head? ≠ some '*' := by
  fun_cases written cs with
  | case1 => exact ht
  | case2 rest => simp [foldersText_eq]
  | case3 => simp [belowText_eq]
  | case4 rest => simp [anyText_eq]
  | case5 rest => simp [segmentChar_eq]
  | case6 rest => simp [segmentChar_eq]
  | case7 | case9 =>
    rw [List.append_assoc]
    exact head?_literal_append _ _
  | case8 rest body _ _ => simp

theorem rows_written [CharNames] (hcs : '[' ∉ cs) (ht : tail.head? ≠ some '*') :
    rows (written cs ++ tail) = (rows tail).map (consItems (itemsOf cs)) := by
  have hmap (e : Except SetFault (List (List Item))) (i : Item) (items : List Item) :
      (e.map (consItems items)).map (consItem i) = e.map (consItems (i :: items)) := by
    cases e <;> rfl
  fun_induction written cs with
  | case1 =>
    rw [List.nil_append, itemsOf]
    cases rows tail <;> rfl
  | case2 rest ih =>
    rw [List.append_assoc, rows_folders, ih (by simp_all), hmap, itemsOf]
  | case3 =>
    rw [rows_below, itemsOf]
    cases rows tail <;> rfl
  | case4 rest hslash ih =>
    rw [List.append_assoc, rows_any, ih (by simp_all), hmap, itemsOf]
    exact hslash
  | case5 rest hslash hstar ih =>
    rw [List.append_assoc, List.cons_append, rows_segments, ih (by simp_all), hmap, itemsOf]
    · exact hslash
    · exact hstar
  | case6 rest ih =>
    rw [List.append_assoc, rows_segment (head?_written_append _ ht), ih (by simp_all),
      hmap, itemsOf]
  | case7 rest => simp at hcs
  | case8 rest body _ _ => simp at hcs
  | case9 c rest _ _ _ _ _ hset ih =>
    rw [List.append_assoc, rows_literal, ih (by simp_all), hmap, itemsOf]
    all_goals assumption

/-- The expression of patterns reads back as one row of items for each, if what each pattern is
written as reads back as a row in front of other text. -/
theorem rows_expression_of [CharNames] {f : List Char → List Item} {ps : List (List Char)} (hne : ps ≠ [])
    (hps : ∀ p ∈ ps, ∀ tail : List Char, tail.head? ≠ some '*' →
      rows (written p ++ tail) = (rows tail).map (consItems (f p))) :
    rows ((expression ps).drop 3) = .ok (ps.map f) := by
  have hdrop : (expression ps).drop 3 =
      ['|'].intercalate (ps.map written) ++ ")\\Z".toList := rfl
  rw [hdrop]
  induction ps with
  | nil => exact (hne rfl).elim
  | cons p ps ih =>
    rw [List.forall_mem_cons] at hps
    cases ps with
    | nil =>
      have hone : ['|'].intercalate ([p].map written) ++ ")\\Z".toList =
          written p ++ ')' :: "\\Z".toList := by simp
      rw [hone, hps.1 _ (by simp), rows_close, Except.map, consItems_row, List.append_nil]
      rfl
    | cons q ps =>
      have hmore : ['|'].intercalate ((p :: q :: ps).map written) ++ ")\\Z".toList =
          written p ++ '|' :: (['|'].intercalate ((q :: ps).map written) ++ ")\\Z".toList) := by
        simp
      rw [hmore, hps.1 _ (by simp), rows_bar, ih (List.cons_ne_nil _ _) hps.2 rfl]
      simp only [Except.map, consItems_row, List.append_nil, List.map_cons]

/-- The expression of patterns without sets reads back as one row of items for each. -/
theorem rows_expression [CharNames] {ps : List (List Char)} (hne : ps ≠ []) (hps : ∀ p ∈ ps, '[' ∉ p) :
    rows ((expression ps).drop 3) = .ok (ps.map itemsOf) :=
  rows_expression_of hne fun p hp _ ht => rows_written (hps p hp) ht

end Written

end MdxLint.Glob
