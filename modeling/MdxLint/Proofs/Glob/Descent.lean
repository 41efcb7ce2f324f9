import MdxLint.Proofs.Glob.Reading
import Mathlib.Data.List.Infix

/-! # Patterns that reach below a folder

What a row of items leaves of a text it can also leave when the text goes on. A pattern that ends
in `/**` therefore matches a folder together with everything below it, as long as no line feed
stands in the path. Other patterns may match a folder and none of the files in it.
-/

namespace MdxLint.Glob

/-- The pattern that a text is can be read. -/
def Readable [CharNames] (pattern : String) : Prop := ∃ p, Pattern.read pattern = .ok p

/-- The path matches the pattern that a text is. -/
def Matches [CharNames] (path pattern : String) : Prop := isMatch path pattern = .ok true

instance [CharNames] (path pattern : String) : Decidable (Matches path pattern) :=
  inferInstanceAs (Decidable (isMatch path pattern = .ok true))

/-- The text ends as the patterns do that stand for a folder and everything below it. -/
def EndsBelow (cs : List Char) : Prop := cs = ['*', '*'] ∨ ['/', '*', '*'] <:+ cs

/-- The pattern stands for a folder and everything below it. -/
structure ReachesBelow (pattern : String) : Prop where
  noSet : '[' ∉ pattern.toList
  ending : EndsBelow pattern.toList

/-! ## Rows of items -/

/-- The row of items can take its parts off the front of the first text and leave the second. -/
inductive Leaves : List Item → List Char → List Char → Prop
  | nil (cs : List Char) : Leaves [] cs cs
  | cons {i : Item} {items : List Item} {cs m r : List Char} :
      m ∈ i.rests cs → Leaves items m r → Leaves (i :: items) cs r

section Leaves

variable {items init : List Item} {i last : Item} {cs m r x y : List Char} {s : CharSet}

theorem mem_restsOf_iff {texts : List (List Char)} :
    r ∈ restsOf items texts ↔ ∃ cs ∈ texts, Leaves items cs r := by
  induction items generalizing texts with
  | nil =>
    constructor
    · intro h
      exact ⟨r, h, .nil r⟩
    · rintro ⟨cs, hcs, h⟩
      cases h
      exact hcs
  | cons i items ih =>
    have hstep : restsOf (i :: items) texts = restsOf items (texts.flatMap i.rests).eraseDups := rfl
    rw [hstep, ih]
    constructor
    · rintro ⟨m, hm, h⟩
      obtain ⟨cs, hcs, hm⟩ := List.mem_flatMap.1 (List.mem_eraseDups.1 hm)
      exact ⟨cs, hcs, .cons hm h⟩
    · rintro ⟨cs, hcs, h⟩
      cases h with
      | cons hm h => exact ⟨_, List.mem_eraseDups.2 (List.mem_flatMap.2 ⟨cs, hcs, hm⟩), h⟩

theorem matchesAll_iff : matchesAll items cs = true ↔ Leaves items cs [] := by
  rw [matchesAll, List.contains_iff_mem, mem_restsOf_iff]
  simp

theorem leaves_concat_iff :
    Leaves (init ++ [last]) cs r ↔ ∃ m, Leaves init cs m ∧ r ∈ last.rests m := by
  induction init generalizing cs with
  | nil =>
    constructor
    · intro h
      cases h with
      | cons hm h =>
        cases h
        exact ⟨cs, .nil cs, hm⟩
    · rintro ⟨m, h, hr⟩
      cases h
      exact .cons hr (.nil r)
  | cons i init ih =>
    constructor
    · intro h
      cases h with
      | cons hm h =>
        obtain ⟨m', h', hr⟩ := ih.1 h
        exact ⟨m', .cons hm h', hr⟩
    · rintro ⟨m, h, hr⟩
      cases h with
      | cons hm h => exact .cons hm (ih.2 ⟨m, h, hr⟩)

theorem mem_afterMany_append (x : List Char) (h : r ∈ afterMany s cs) :
    r ++ x ∈ afterMany s (cs ++ x) := by
  induction cs with
  | nil =>
    obtain rfl : r = [] := by simpa [afterMany] using h
    cases x <;> simp [afterMany]
  | cons c cs ih =>
    rw [afterMany, List.mem_cons] at h
    rw [List.cons_append, afterMany, List.mem_cons]
    rcases h with rfl | h
    · exact .inl rfl
    · right
      split at h
      case isTrue hc =>
        rw [if_pos hc]
        exact ih h
      case isFalse => cases h

theorem mem_afterSlashes_append (x : List Char) (h : r ∈ afterSlashes cs) :
    r ++ x ∈ afterSlashes (cs ++ x) := by
  induction cs with
  | nil => cases h
  | cons c cs ih =>
    rw [afterSlashes, List.mem_append] at h
    rw [List.cons_append, afterSlashes, List.mem_append]
    rcases h with h | h
    · left
      split at h
      case isTrue hc =>
        rw [if_pos hc, List.mem_singleton.1 h]
        exact List.mem_singleton_self _
      case isFalse => cases h
    · right
      split at h
      case isTrue hc =>
        rw [if_pos hc]
        exact ih h
      case isFalse => cases h

theorem rests_below_of_ne (h : cs.head? ≠ some '/') : Item.below.rests cs = [cs] := by
  unfold Item.rests
  split <;> simp_all

theorem self_mem_rests_below (cs : List Char) : cs ∈ Item.below.rests cs := by
  by_cases h : cs.head? = some '/'
  · obtain ⟨cs, rfl⟩ := List.head?_eq_some_iff.1 h
    exact List.mem_cons_self
  · rw [rests_below_of_ne h]
    exact List.mem_singleton_self _

/-- What an item can leave of a text it can leave of a longer one, with the rest behind it. -/
theorem mem_rests_append (x : List Char) (h : r ∈ i.rests cs) : r ++ x ∈ i.rests (cs ++ x) := by
  cases i with
  | one s =>
    cases cs with
    | nil => cases h
    | cons c cs =>
      rw [Item.rests] at h
      rw [List.cons_append, Item.rests]
      split at h
      case isTrue hc =>
        rw [if_pos hc, List.mem_singleton.1 h]
        exact List.mem_singleton_self _
      case isFalse => cases h
  | many s => exact mem_afterMany_append x h
  | folders =>
    rcases List.mem_cons.1 h with rfl | h
    · exact List.mem_cons_self
    · exact List.mem_cons_of_mem _ (mem_afterSlashes_append x h)
  | below =>
    by_cases hslash : cs.head? = some '/'
    · obtain ⟨cs, rfl⟩ := List.head?_eq_some_iff.1 hslash
      rcases List.mem_cons.1 h with rfl | h
      · exact List.mem_cons_self
      · exact List.mem_cons_of_mem _ (mem_afterMany_append x h)
    · rw [rests_below_of_ne hslash] at h
      rw [List.mem_singleton.1 h]
      exact self_mem_rests_below _

theorem Leaves.append (x : List Char) (h : Leaves items cs r) :
    Leaves items (cs ++ x) (r ++ x) := by
  induction h with
  | nil cs => exact .nil _
  | cons hm _ ih => exact .cons (mem_rests_append x hm) ih

end Leaves

section Open

variable {i : Item} {init : List Item} {cs m y : List Char}

theorem contains_except {c d : Char} : (CharSet.except d).contains c = true ↔ c ≠ d := by
  have hiff : (d.toNat ≤ c.toNat ∧ c.toNat ≤ d.toNat) ↔ c = d := by
    rw [← Char.toNat_inj]
    omega
  simp [CharSet.except, CharSet.contains, Member.contains, ← hiff]
  omega

theorem contains_anyChar {c : Char} : anyChar.contains c = true ↔ c ≠ '\n' := contains_except

theorem nil_mem_afterMany_anyChar : [] ∈ afterMany anyChar cs ↔ '\n' ∉ cs := by
  induction cs with
  | nil => simp [afterMany]
  | cons c cs ih =>
    rw [afterMany, List.mem_cons, List.mem_cons, not_or]
    by_cases hc : c = '\n'
    · simp [hc, contains_anyChar]
    · simp [contains_anyChar.2 hc, ih, Ne.symm hc]

def Item.IsOpen (i : Item) : Prop := i = .below ∨ i = .many anyChar

theorem Item.IsOpen.nil_mem_rests_append (hi : i.IsOpen) (h : [] ∈ i.rests m) (hy : '\n' ∉ y) :
    [] ∈ i.rests (m ++ '/' :: y) := by
  have hmany (m : List Char) (h : [] ∈ afterMany anyChar m) :
      [] ∈ afterMany anyChar (m ++ '/' :: y) := by
    rw [nil_mem_afterMany_anyChar] at h ⊢
    simp [h, hy]
  rcases hi with rfl | rfl
  · cases m with
    | nil =>
      have hy' : [] ∈ afterMany anyChar y := nil_mem_afterMany_anyChar.2 hy
      exact List.mem_cons_of_mem _ hy'
    | cons c m =>
      by_cases hc : c = '/'
      · subst hc
        rcases List.mem_cons.1 h with h | h
        · cases h
        · exact List.mem_cons_of_mem _ (hmany m h)
      · unfold Item.rests at h
        split at h <;> simp_all
  · exact hmany m h

theorem matchesAll_below (hi : i.IsOpen) (hy : '\n' ∉ y)
    (h : matchesAll (init ++ [i]) cs = true) :
    matchesAll (init ++ [i]) (cs ++ '/' :: y) = true := by
  rw [matchesAll_iff, leaves_concat_iff] at h ⊢
  obtain ⟨m, hinit, hlast⟩ := h
  exact ⟨m ++ '/' :: y, hinit.append _, hi.nil_mem_rests_append hlast hy⟩

end Open

/-! ## Patterns -/

section Ending

variable {cs p before body behind : List Char}

theorem endsBelow_cons_iff {c : Char} :
    EndsBelow (c :: cs) ↔ (c = '*' ∧ cs = ['*']) ∨ (c = '/' ∧ cs = ['*', '*']) ∨
      ['/', '*', '*'] <:+ cs := by
  rw [EndsBelow, List.suffix_cons_iff, List.cons_eq_cons, eq_comm (b := c :: cs),
    List.cons_eq_cons]

theorem EndsBelow.tail {c : Char} (h : EndsBelow (c :: cs)) (hstar : c = '*' → cs ≠ ['*']) :
    EndsBelow cs := by
  rcases endsBelow_cons_iff.1 h with ⟨hc, hcs⟩ | ⟨-, hcs⟩ | hcs
  · exact absurd hcs (hstar hc)
  · exact .inl hcs
  · exact .inr hcs

/-- The items of a pattern that stands for a folder and everything below it end open. -/
theorem exists_itemsOf_eq (h : EndsBelow cs) :
    ∃ init i, itemsOf cs = init ++ [i] ∧ i.IsOpen := by
  have hcons (i : Item) {items : List Item}
      (h : ∃ init last, items = init ++ [last] ∧ last.IsOpen) :
      ∃ init last, i :: items = init ++ [last] ∧ last.IsOpen := by
    obtain ⟨init, last, rfl, hlast⟩ := h
    exact ⟨i :: init, last, rfl, hlast⟩
  fun_induction itemsOf cs with
  | case1 => simp [EndsBelow] at h
  | case2 rest ih =>
    have h' : EndsBelow rest := ((h.tail (by simp)).tail (by simp)).tail (by simp)
    exact hcons _ (ih h')
  | case3 => exact ⟨[], .below, rfl, .inl rfl⟩
  | case4 rest _ ih =>
    cases rest with
    | nil => exact ⟨[], .many anyChar, by rw [itemsOf]; rfl, .inr rfl⟩
    | cons c rest =>
      have h' : ['/', '*', '*'] <:+ '*' :: c :: rest := by simpa [endsBelow_cons_iff] using h
      exact hcons _ (ih (.inr (by simpa [List.suffix_cons_iff (a := '*')] using h')))
  | case5 rest _ hstar ih => exact hcons _ (ih (h.tail fun _ hrest => hstar [] hrest))
  | case6 rest ih => exact hcons _ (ih (h.tail (by simp)))
  | case7 c rest _ _ _ hstar _ ih => exact hcons _ (ih (h.tail fun hc => (hstar hc).elim))

theorem eq_append_of_groupBody? (h : groupBody? cs = some (body, behind)) :
    cs = body ++ '\x7d' :: behind := by
  induction cs generalizing body with
  | nil => cases h
  | cons c cs ih =>
    rw [groupBody?] at h
    split at h
    case isTrue hc =>
      cases h
      rw [hc]
      rfl
    case isFalse =>
      split at h
      · cases h
      · obtain ⟨⟨b, r⟩, hr, he⟩ := Option.map_eq_some_iff.1 h
        cases he
        rw [ih hr]
        rfl

theorem eq_append_of_group? (h : group? cs = some (before, body, behind)) :
    cs = before ++ '\x7b' :: (body ++ '\x7d' :: behind) := by
  induction cs generalizing before with
  | nil => cases h
  | cons c cs ih =>
    have later {before : List Char}
        (h : (group? cs).map (fun r => (c :: r.1, r.2)) = some (before, body, behind)) :
        c :: cs = before ++ '\x7b' :: (body ++ '\x7d' :: behind) := by
      obtain ⟨⟨b, r⟩, hr, he⟩ := Option.map_eq_some_iff.1 h
      cases he
      conv_lhs => rw [ih hr]
      rfl
    rw [group?] at h
    split at h
    case isFalse => exact later h
    case isTrue hc =>
      split at h
      case h_2 => exact later h
      case h_1 b r hb =>
        split at h
        case isFalse => exact later h
        case isTrue =>
          cases h
          rw [hc, eq_append_of_groupBody? hb]
          rfl

theorem mem_of_mem_splitAtChar {sep c : Char} (hp : p ∈ splitAtChar sep cs) (hc : c ∈ p) :
    c ∈ cs := by
  induction cs generalizing p with
  | nil => simp_all [splitAtChar]
  | cons d cs ih =>
    rw [splitAtChar] at hp
    split at hp
    · rcases List.mem_cons.1 hp with rfl | hp
      · cases hc
      · exact List.mem_cons_of_mem _ (ih hp hc)
    · split at hp
      · simp_all
      · rename_i q qs hq
        rcases List.mem_cons.1 hp with rfl | hp
        · rcases List.mem_cons.1 hc with rfl | hc
          · exact List.mem_cons_self
          · exact List.mem_cons_of_mem _ (ih (hq ▸ List.mem_cons_self) hc)
        · exact List.mem_cons_of_mem _ (ih (hq ▸ List.mem_cons_of_mem _ hp) hc)

theorem splitAtChar_ne_nil (sep : Char) (cs : List Char) : splitAtChar sep cs ≠ [] := by
  cases cs with
  | nil => exact List.cons_ne_nil _ _
  | cons c cs =>
    rw [splitAtChar]
    split
    · exact List.cons_ne_nil _ _
    · split <;> exact List.cons_ne_nil _ _

theorem expand_ne_nil (cs : List Char) : expand cs ≠ [] := by
  fun_induction expand cs with
  | case1 => exact List.cons_ne_nil _ _
  | case2 cs before body behind _ ih =>
    obtain ⟨option, hoption⟩ := List.exists_mem_of_ne_nil _ (splitAtChar_ne_nil ',' body)
    obtain ⟨p, hp⟩ := List.exists_mem_of_ne_nil _ (ih option hoption)
    apply List.ne_nil_of_mem (a := p)
    exact List.mem_flatMap.2 ⟨⟨option, hoption⟩, List.mem_attach _ _, hp⟩

theorem EndsBelow.of_append {a b : List Char} (x : List Char) (h : EndsBelow (a ++ '\x7d' :: b)) :
    EndsBelow (x ++ b) := by
  rcases h with h | h
  · have hm : '\x7d' ∈ ['*', '*'] := h ▸ by simp
    simp at hm
  · right
    have hlen : 3 ≤ b.length := by
      by_contra hlt
      have hsuffix : '\x7d' :: b <:+ a ++ '\x7d' :: b := List.suffix_append _ _
      have hle : ('\x7d' :: b).length ≤ ['/', '*', '*'].length := by simp; omega
      have hm : '\x7d' ∈ ['/', '*', '*'] :=
        (List.suffix_of_suffix_length_le hsuffix h hle).mem List.mem_cons_self
      simp at hm
    have hb : b <:+ a ++ '\x7d' :: b := ⟨a ++ ['\x7d'], by simp⟩
    exact (List.suffix_of_suffix_length_le h hb hlen).trans (List.suffix_append _ _)

/-- The alternatives of a pattern without sets have none, and end as the pattern does. -/
theorem of_mem_expand (hset : '[' ∉ cs) (hp : p ∈ expand cs) :
    '[' ∉ p ∧ (EndsBelow cs → EndsBelow p) := by
  fun_induction expand cs with
  | case1 cs _ =>
    obtain rfl := List.mem_singleton.1 hp
    exact ⟨hset, id⟩
  | case2 cs before body behind hgroup ih =>
    obtain ⟨⟨option, hoption⟩, -, hp⟩ := List.mem_flatMap.1 hp
    have hcs := eq_append_of_group? hgroup
    have hset' : '[' ∉ before ++ option ++ behind := by
      intro hm
      apply hset
      rw [hcs]
      simp only [List.mem_append, List.mem_cons] at hm ⊢
      have hbody (h : '[' ∈ option) : '[' ∈ body := mem_of_mem_splitAtChar hoption h
      tauto
    obtain ⟨hnone, hends⟩ := ih option hoption hset' hp
    refine ⟨hnone, fun h => hends ?_⟩
    rw [hcs, ← List.cons_append, ← List.append_assoc] at h
    exact h.of_append _

end Ending

section Pattern

variable {pattern folder rest : String}

theorem not_mem_withoutDot {c : Char} {cs : List Char} (h : c ∉ cs) : c ∉ withoutDot cs := by
  unfold withoutDot withoutLead
  split
  · exact fun hm => h (List.mem_of_mem_drop hm)
  · exact h

theorem read_eq [CharNames] (h : '[' ∉ pattern.toList) :
    Pattern.read pattern = .ok ⟨(expand (withoutDot pattern.toList)).map itemsOf⟩ := by
  have hset : '[' ∉ withoutDot pattern.toList := not_mem_withoutDot h
  rw [Pattern.read, rows_expression (expand_ne_nil _) fun p hp => (of_mem_expand hset hp).1]

theorem EndsBelow.withoutDot {cs : List Char} (h : EndsBelow cs) :
    EndsBelow (Glob.withoutDot cs) := by
  unfold Glob.withoutDot withoutLead
  split
  case isFalse => exact h
  case isTrue hprefix =>
    obtain ⟨cs, rfl⟩ := List.isPrefixOf_iff_prefix.1 hprefix
    exact (EndsBelow.tail (c := '.') h (by simp)).tail (by simp)

theorem withoutDot_append {a : List Char} (h : a ≠ ['.']) (b : List Char) :
    withoutDot (a ++ '/' :: b) = withoutDot a ++ '/' :: b := by
  unfold withoutDot withoutLead
  rcases a with _ | ⟨c, _ | ⟨d, a⟩⟩
  · simp
  · have hc : '.' ≠ c := by
      rintro rfl
      exact h rfl
    simp [hc]
  · simp only [List.cons_append, List.isPrefixOf_cons_cons, List.isPrefixOf_nil_left]
    split <;> rfl

/-- What stands below a folder stands below it as patterns see it, unless the folder is the current
one. -/
theorem canonicalPath_below (hdot : folder ≠ ".") (rest : String) :
    canonicalPath (folder ++ "/" ++ rest) =
      canonicalPath folder ++ '/' :: rest.toList.map fun c => if c = '\\' then '/' else c := by
  have hne : folder.toList.map (fun c => if c = '\\' then '/' else c) ≠ ['.'] := by
    intro hmap
    obtain ⟨c, hfolder, hc⟩ := List.map_eq_singleton_iff.1 hmap
    split at hc
    · cases hc
    · apply hdot
      rw [← String.toList_inj, hfolder, hc]
      rfl
  simp only [canonicalPath, String.toList_append, List.map_append, List.append_assoc]
  exact withoutDot_append hne _

/-- A pattern that stands for a folder and everything below it matches what is below a folder that
it matches. -/
theorem Matches.below [CharNames] (hp : ReachesBelow pattern) (hdot : folder ≠ ".")
    (hrest : '\n' ∉ rest.toList) (h : Matches folder pattern) :
    Matches (folder ++ "/" ++ rest) pattern := by
  have hset : '[' ∉ withoutDot pattern.toList := not_mem_withoutDot hp.noSet
  have hfeed : '\n' ∉ rest.toList.map fun c => if c = '\\' then '/' else c := by
    intro hm
    obtain ⟨c, hc, heq⟩ := List.mem_map.1 hm
    split at heq
    · cases heq
    · exact hrest (heq ▸ hc)
  rw [Matches, isMatch, read_eq hp.noSet, Except.map, Except.ok.injEq, Pattern.matchesPath,
    List.any_map, List.any_eq_true] at h ⊢
  obtain ⟨p, hm, hmatch⟩ := h
  refine ⟨p, hm, ?_⟩
  obtain ⟨init, i, hitems, hopen⟩ :=
    exists_itemsOf_eq ((of_mem_expand hset hm).2 hp.ending.withoutDot)
  rw [Function.comp_apply, hitems] at hmatch ⊢
  rw [canonicalPath_below hdot]
  exact matchesAll_below hopen hfeed hmatch

end Pattern

end MdxLint.Glob
