import MdxLint.Proofs.Glob.Taking

/-! # Patterns segment by segment

A pattern that is cut at its slashes matches a path that is cut at its own: `**` takes any number of
segments, and every other segment of the pattern takes one segment of the path. The items of a
pattern know nothing of segments. Around `**` one item stands for slashes as well, and which ones
depends on whether the pattern ends there.
-/

namespace MdxLint.Glob

/-- The segments of a pattern take the segments of a path. -/
inductive SegmentsMatch : List (List Char) → List (List Char) → Prop
  | nil : SegmentsMatch [] []
  | folders {ps ss : List (List Char)} (xs : List (List Char)) (h : SegmentsMatch ps ss) :
      SegmentsMatch (anySegments :: ps) (xs ++ ss)
  | segment {p s : List Char} {ps ss : List (List Char)} (hp : p ≠ anySegments)
      (hs : TextMatches p s) (h : SegmentsMatch ps ss) : SegmentsMatch (p :: ps) (s :: ss)

/-- The segments of a pattern in which `**` is nothing but a segment of its own, and stands beside
no other one. -/
structure Segmented (ps : List (List Char)) : Prop where
  whole : ∀ p ∈ ps, p = anySegments ∨ ¬ anySegments <:+: p
  apart : ps.IsChain fun p q => ¬ (p = anySegments ∧ q = anySegments)

/-! ## Texts and their segments -/

section Split

variable {sep c : Char} {cs s : List Char}

theorem splitAtChar_cons_of_ne (h : c ≠ sep) :
    splitAtChar sep (c :: cs) = (splitAtChar sep cs).modifyHead (c :: ·) := by
  rw [splitAtChar, if_neg h]
  cases hcs : splitAtChar sep cs with
  | nil => exact absurd hcs (splitAtChar_ne_nil sep cs)
  | cons p ps => rfl

theorem splitAtChar_eq_splitOn (sep : Char) (cs : List Char) :
    splitAtChar sep cs = cs.splitOn sep := by
  induction cs with
  | nil => rw [splitAtChar, List.splitOn_nil]
  | cons c cs ih =>
    rw [List.splitOn_cons_eq_if_modifyHead, ← ih]
    by_cases hc : c = sep
    · rw [splitAtChar, if_pos hc, if_pos (beq_iff_eq.2 hc)]
    · rw [splitAtChar_cons_of_ne hc, if_neg (mt beq_iff_eq.1 hc)]

theorem intercalate_splitAtChar (sep : Char) (cs : List Char) :
    [sep].intercalate (splitAtChar sep cs) = cs := by
  rw [splitAtChar_eq_splitOn, List.intercalate_splitOn]

theorem not_mem_of_mem_splitAtChar (h : s ∈ splitAtChar sep cs) : sep ∉ s := by
  induction cs generalizing s with
  | nil =>
    rw [List.mem_singleton.1 h]
    exact List.not_mem_nil
  | cons c cs ih =>
    by_cases hc : c = sep
    · rw [splitAtChar, if_pos hc] at h
      rcases List.mem_cons.1 h with rfl | h
      · exact List.not_mem_nil
      · exact ih h
    · rw [splitAtChar_cons_of_ne hc] at h
      cases hcs : splitAtChar sep cs with
      | nil => exact absurd hcs (splitAtChar_ne_nil sep cs)
      | cons p ps =>
        rw [hcs] at h ih
        rw [List.modifyHead_cons, List.mem_cons] at h
        rcases h with rfl | h
        · rw [List.mem_cons, not_or]
          exact ⟨Ne.symm hc, ih List.mem_cons_self⟩
        · exact ih (List.mem_cons_of_mem _ h)

end Split

def joined (ss : List (List Char)) : List Char := ['/'].intercalate ss

def behindFirst : List (List Char) → List Char
  | [] => []
  | s :: ss => '/' :: joined (s :: ss)

section Joined

variable {s x a b : List Char} {ss : List (List Char)} {P : Char → Prop}

theorem joined_cons (s : List Char) (ss : List (List Char)) :
    joined (s :: ss) = s ++ behindFirst ss := by
  cases ss with
  | nil => simp [joined, behindFirst]
  | cons t ss => simp [joined, behindFirst]

theorem head?_behindFirst : ∀ c ∈ (behindFirst ss).head?, c = '/' := by
  cases ss with
  | nil => exact nofun
  | cons t ss =>
    rintro c h
    cases h
    rfl

/-- A text without slash in front of the end or of a slash can be told from what is behind it. -/
theorem append_inj_of_slash (hs : '/' ∉ s) (hx : '/' ∉ x) (ha : ∀ c ∈ a.head?, c = '/')
    (hb : ∀ c ∈ b.head?, c = '/') (h : s ++ a = x ++ b) : s = x ∧ a = b := by
  have takeWhile_eq {s a : List Char} (hs : '/' ∉ s) (ha : ∀ c ∈ a.head?, c = '/') :
      (s ++ a).takeWhile (· ≠ '/') = s := by
    rw [List.takeWhile_append_of_pos]
    · cases a with
      | nil => simp
      | cons c a => simp [ha c rfl]
    · intro c hc
      exact decide_eq_true (ne_of_mem_of_not_mem hc hs)
  have hfirst : s = x := by rw [← takeWhile_eq hs ha, h, takeWhile_eq hx hb]
  subst hfirst
  exact ⟨rfl, List.append_cancel_left h⟩

theorem joined_append {xs ys : List (List Char)} (hxs : xs ≠ []) (hys : ys ≠ []) :
    joined (xs ++ ys) = joined xs ++ '/' :: joined ys := by
  induction xs with
  | nil => exact absurd rfl hxs
  | cons s xs ih =>
    cases xs with
    | nil =>
      rw [List.singleton_append, joined_cons, joined_cons]
      cases ys with
      | nil => exact absurd rfl hys
      | cons t ys => simp [behindFirst]
    | cons t xs =>
      have hrest := ih (List.cons_ne_nil _ _)
      rw [List.cons_append, joined_cons, joined_cons, List.cons_append, behindFirst, behindFirst,
        ← List.cons_append, hrest]
      simp

theorem joined_suffix (xs : List (List Char)) {ys : List (List Char)} (hys : ys ≠ []) :
    joined ys <:+ joined (xs ++ ys) := by
  cases xs with
  | nil => exact List.suffix_rfl
  | cons s xs =>
    rw [joined_append (List.cons_ne_nil _ _) hys]
    exact ⟨joined (s :: xs) ++ ['/'], by simp⟩

theorem exists_of_joined_eq {r : List Char} (hslash : ∀ s ∈ ss, '/' ∉ s)
    (h : joined ss = x ++ '/' :: r) : ∃ xs ys, ss = xs ++ ys ∧ ys ≠ [] ∧ r = joined ys := by
  induction ss generalizing x with
  | nil => simp [joined] at h
  | cons s ss ih =>
    rw [List.forall_mem_cons] at hslash
    rw [joined_cons] at h
    have hbehind : ∃ y, behindFirst ss = y ++ '/' :: r := by
      rcases List.append_eq_append_iff.1 h with ⟨y, -, hy⟩ | ⟨y, hy, hr⟩
      · exact ⟨y, hy⟩
      · cases y with
        | nil => exact ⟨[], hr.symm⟩
        | cons d y =>
          -- the first segment would hold the slash
          rw [List.cons_append, List.cons.injEq] at hr
          exact absurd (by simp [hy, ← hr.1]) hslash.1
    obtain ⟨y, hy⟩ := hbehind
    cases ss with
    | nil => simp [behindFirst] at hy
    | cons t ss =>
      cases y with
      | nil =>
        obtain ⟨-, hr⟩ := List.cons.inj (show '/' :: joined (t :: ss) = '/' :: r from hy)
        exact ⟨[s], t :: ss, rfl, List.cons_ne_nil _ _, hr.symm⟩
      | cons d y =>
        obtain ⟨-, hr⟩ :=
          List.cons.inj (show '/' :: joined (t :: ss) = d :: (y ++ '/' :: r) from hy)
        obtain ⟨xs, ys, heq, hys, hjoin⟩ := ih hslash.2 hr
        exact ⟨s :: xs, ys, by rw [heq]; rfl, hys, hjoin⟩

end Joined

/-! ## Matching by segments -/

section Matching

variable {p q s cs x : List Char} {ps ss : List (List Char)} {items : List Item}

theorem Segmented.tail (h : Segmented (p :: ps)) : Segmented ps :=
  ⟨fun q hq => h.whole q (List.mem_cons_of_mem _ hq), h.apart.of_cons⟩

theorem segmentsMatch_nil_iff : SegmentsMatch [] ss ↔ ss = [] := by
  constructor
  · intro h
    cases h
    rfl
  · rintro rfl
    exact .nil

theorem segmentsMatch_cons_iff (hp : p ≠ anySegments) :
    SegmentsMatch (p :: ps) (s :: ss) ↔ TextMatches p s ∧ SegmentsMatch ps ss := by
  constructor
  · intro h
    generalize hall : s :: ss = all at h
    cases h with
    | folders => exact absurd rfl hp
    | segment _ hs h =>
      cases hall
      exact ⟨hs, h⟩
  · rintro ⟨hs, h⟩
    exact .segment hp hs h

theorem segmentsMatch_folders_iff :
    SegmentsMatch (anySegments :: ps) ss ↔ ∃ xs ys, ss = xs ++ ys ∧ SegmentsMatch ps ys := by
  constructor
  · intro h
    cases h with
    | folders xs h => exact ⟨xs, _, rfl, h⟩
    | segment hp => exact absurd rfl hp
  · rintro ⟨xs, ys, rfl, h⟩
    exact .folders xs h

theorem not_segmentsMatch_nil (hp : p ≠ anySegments) : ¬ SegmentsMatch (p :: ps) [] := by
  intro h
  generalize hall : [] = all at h
  cases h with
  | folders => exact hp rfl
  | segment => cases hall

theorem Segmented.not_segmentsMatch_nil (h : Segmented ps) (hne : ps ≠ [])
    (hany : ps ≠ [anySegments]) : ¬ SegmentsMatch ps [] := by
  rcases ps with _ | ⟨p, _ | ⟨q, ps⟩⟩
  · exact absurd rfl hne
  · exact Glob.not_segmentsMatch_nil fun hp => hany (by rw [hp])
  · by_cases hp : p = anySegments
    · have hq : q ≠ anySegments := fun hq => (List.isChain_cons_cons.1 h.apart).1 ⟨hp, hq⟩
      rw [hp, segmentsMatch_folders_iff]
      rintro ⟨xs, ys, heq, hmatch⟩
      rw [(List.append_eq_nil_iff.1 heq.symm).2] at hmatch
      exact Glob.not_segmentsMatch_nil hq hmatch
    · exact Glob.not_segmentsMatch_nil hp

theorem joined_ne_anySegments (hpattern : ∀ p ∈ ps, '/' ∉ p) (hany : ps ≠ [anySegments]) :
    joined ps ≠ ['*', '*'] := by
  intro h
  rcases ps with _ | ⟨p, _ | ⟨q, ps⟩⟩
  · simp [joined] at h
  · rw [joined_cons, behindFirst, List.append_nil] at h
    exact hany (by rw [h, anySegments])
  · have hslash : '/' ∈ joined (p :: q :: ps) := by
      rw [joined_cons]
      exact List.mem_append_right _ List.mem_cons_self
    rw [h] at hslash
    simp at hslash

theorem itemsOf_behindFirst_cases (hpattern : ∀ p ∈ ps, '/' ∉ p) :
    (ps = [] ∧ itemsOf (behindFirst ps) = []) ∨
      (ps = [anySegments] ∧ itemsOf (behindFirst ps) = [.below]) ∨
        (ps ≠ [] ∧ ps ≠ [anySegments] ∧
          itemsOf (behindFirst ps) = .one (.one '/') :: itemsOf (joined ps)) := by
  by_cases hany : ps = [anySegments]
  · rw [hany]
    exact .inr (.inl ⟨rfl, by simp [behindFirst, joined, anySegments, itemsOf]⟩)
  · cases ps with
    | nil => exact .inl ⟨rfl, by rw [behindFirst, itemsOf]⟩
    | cons p ps =>
      have hne := joined_ne_anySegments hpattern hany
      refine .inr (.inr ⟨List.cons_ne_nil _ _, hany, ?_⟩)
      rw [behindFirst, itemsOf]
      all_goals simp [hne]

theorem leaves_itemOf_joined_iff (hp : '/' ∉ p) (hs : '/' ∉ s)
    (hitems : ∀ m, Leaves items m [] → ∀ c ∈ m.head?, c = '/') :
    Leaves (p.map itemOf ++ items) (joined (s :: ss)) [] ↔
      TextMatches p s ∧ Leaves items (behindFirst ss) [] := by
  rw [leaves_itemOf_iff hp, joined_cons]
  constructor
  · rintro ⟨x, m, heq, hx, hmatch, h⟩
    obtain ⟨rfl, rfl⟩ := append_inj_of_slash hs hx head?_behindFirst (hitems m h) heq
    exact ⟨hmatch, h⟩
  · rintro ⟨hmatch, h⟩
    exact ⟨s, _, rfl, hs, hmatch, h⟩

theorem mem_rests_folders_iff {m : List Char} (hslash : ∀ s ∈ ss, '/' ∉ s) (hfeed : '\n' ∉ joined ss)
    (hss : ss ≠ []) :
    m ∈ Item.folders.rests (joined ss) ↔ ∃ xs ys, ss = xs ++ ys ∧ ys ≠ [] ∧ m = joined ys := by
  rw [Item.rests, List.mem_cons, mem_afterSlashes_iff]
  constructor
  · rintro (rfl | ⟨x, heq, -⟩)
    · exact ⟨[], ss, rfl, hss, rfl⟩
    · exact exists_of_joined_eq hslash heq
  · rintro ⟨xs, ys, rfl, hys, rfl⟩
    cases xs with
    | nil => exact .inl rfl
    | cons s xs =>
      have heq := joined_append (List.cons_ne_nil s xs) hys
      refine .inr ⟨_, heq, fun hm => hfeed ?_⟩
      rw [heq]
      exact List.mem_append_left _ hm

theorem behindFirst_eq_nil_iff : behindFirst ss = [] ↔ ss = [] := by
  cases ss <;> simp [behindFirst]

theorem nil_mem_rests_below (hfeed : '\n' ∉ behindFirst ss) :
    [] ∈ Item.below.rests (behindFirst ss) := by
  cases ss with
  | nil => exact List.mem_singleton_self _
  | cons s ss =>
    rw [behindFirst, List.mem_cons, not_or] at hfeed
    exact List.mem_cons_of_mem _ (nil_mem_afterMany_anyChar.2 hfeed.2)

/-- What stands behind the first segment of a pattern takes what stands behind that of a path. -/
theorem leaves_behindFirst_iff (h : Segmented ps) (hpattern : ∀ p ∈ ps, '/' ∉ p)
    (hfeed : '\n' ∉ behindFirst ss)
    (hrest : ps ≠ [] → ss ≠ [] →
      (Leaves (itemsOf (joined ps)) (joined ss) [] ↔ SegmentsMatch ps ss)) :
    Leaves (itemsOf (behindFirst ps)) (behindFirst ss) [] ↔ SegmentsMatch ps ss := by
  obtain ⟨rfl, hitems⟩ | ⟨rfl, hitems⟩ | ⟨hne, hany, hitems⟩ := itemsOf_behindFirst_cases hpattern
  · rw [hitems, leaves_nil_iff, segmentsMatch_nil_iff, behindFirst_eq_nil_iff]
  · have hall : SegmentsMatch [anySegments] (ss ++ []) := .folders ss .nil
    rw [List.append_nil] at hall
    rw [hitems]
    exact iff_of_true (.cons (nil_mem_rests_below hfeed) (.nil [])) hall
  · rw [hitems, leaves_cons_iff]
    simp only [mem_rests_one_iff, contains_one]
    cases ss with
    | nil =>
      refine iff_of_false ?_ (h.not_segmentsMatch_nil hne hany)
      rintro ⟨m, ⟨c, heq, -⟩, -⟩
      cases heq
    | cons s ss =>
      rw [← hrest hne (List.cons_ne_nil _ _)]
      constructor
      · rintro ⟨m, ⟨c, heq, -⟩, hm⟩
        cases heq
        exact hm
      · intro hm
        exact ⟨_, ⟨'/', rfl, rfl⟩, hm⟩

/-- What stands behind the first segment of a pattern takes nothing, or begins with a slash. -/
theorem head?_of_leaves_behindFirst (hpattern : ∀ p ∈ ps, '/' ∉ p) {m : List Char}
    (h : Leaves (itemsOf (behindFirst ps)) m []) : ∀ c ∈ m.head?, c = '/' := by
  obtain ⟨-, hitems⟩ | ⟨-, hitems⟩ | ⟨-, -, hitems⟩ := itemsOf_behindFirst_cases hpattern
  · rw [hitems, leaves_nil_iff] at h
    rw [h]
    exact nofun
  · rw [hitems, leaves_cons_iff] at h
    obtain ⟨r, hr, h⟩ := h
    rw [leaves_nil_iff] at h
    subst h
    intro c hc
    by_contra hne
    rw [rests_below_of_ne (by rw [Option.mem_def.1 hc]; simpa using hne),
      List.mem_singleton] at hr
    rw [← hr] at hc
    cases hc
  · rw [hitems, leaves_cons_iff] at h
    obtain ⟨r, hr, -⟩ := h
    obtain ⟨c, rfl, hc⟩ := mem_rests_one_iff.1 hr
    rintro d hd
    cases hd
    exact contains_one.1 hc

/-- The items of a pattern take a path iff its segments take those of the path. -/
theorem leaves_itemsOf_iff (hps : ps ≠ []) (hss : ss ≠ []) (h : Segmented ps)
    (hpattern : ∀ p ∈ ps, '/' ∉ p) (hpath : ∀ s ∈ ss, '/' ∉ s) (hfeed : '\n' ∉ joined ss) :
    Leaves (itemsOf (joined ps)) (joined ss) [] ↔ SegmentsMatch ps ss := by
  induction ps generalizing ss with
  | nil => exact absurd rfl hps
  | cons p ps ih =>
    have hplain := (List.forall_mem_cons.1 hpattern).1
    have hothers := (List.forall_mem_cons.1 hpattern).2
    by_cases hp : p = anySegments
    · subst hp
      cases ps with
      | nil =>
        have hall : SegmentsMatch [anySegments] (ss ++ []) := .folders ss .nil
        have hitems : itemsOf (joined [anySegments]) = [.many anyChar] := by
          simp [joined, anySegments, itemsOf]
        rw [List.append_nil] at hall
        rw [hitems]
        exact iff_of_true (.cons (nil_mem_afterMany_anyChar.2 hfeed) (.nil [])) hall
      | cons q ps =>
        have hq : q ≠ anySegments := fun hq => (List.isChain_cons_cons.1 h.apart).1 ⟨rfl, hq⟩
        have hitems : itemsOf (joined (anySegments :: q :: ps)) =
            .folders :: itemsOf (joined (q :: ps)) := by
          rw [joined_cons, behindFirst, anySegments, List.cons_append, List.cons_append,
            List.nil_append, itemsOf]
        have of_suffix {xs ys : List (List Char)} (heq : ss = xs ++ ys) (hys : ys ≠ []) :
            Leaves (itemsOf (joined (q :: ps))) (joined ys) [] ↔ SegmentsMatch (q :: ps) ys := by
          subst heq
          apply ih (List.cons_ne_nil _ _) hys h.tail hothers
          · exact fun s hs => hpath s (List.mem_append_right _ hs)
          · exact fun hm => hfeed ((joined_suffix xs hys).mem hm)
        rw [hitems, leaves_cons_iff, segmentsMatch_folders_iff]
        constructor
        · rintro ⟨m, hm, hleaves⟩
          obtain ⟨xs, ys, heq, hys, rfl⟩ := (mem_rests_folders_iff hpath hfeed hss).1 hm
          exact ⟨xs, ys, heq, (of_suffix heq hys).1 hleaves⟩
        · rintro ⟨xs, ys, heq, hmatch⟩
          have hys : ys ≠ [] := by
            rintro rfl
            exact not_segmentsMatch_nil hq hmatch
          refine ⟨joined ys, ?_, (of_suffix heq hys).2 hmatch⟩
          exact (mem_rests_folders_iff hpath hfeed hss).2 ⟨xs, ys, heq, hys, rfl⟩
    · have hwhole := (h.whole p List.mem_cons_self).resolve_left hp
      cases ss with
      | nil => exact absurd rfl hss
      | cons s ss =>
        rw [List.forall_mem_cons] at hpath
        have hbehind : '\n' ∉ behindFirst ss := by
          rw [joined_cons, List.mem_append, not_or] at hfeed
          exact hfeed.2
        rw [joined_cons p ps, itemsOf_append hplain hwhole head?_behindFirst,
          leaves_itemOf_joined_iff hplain hpath.1 fun m => head?_of_leaves_behindFirst hothers,
          segmentsMatch_cons_iff hp, leaves_behindFirst_iff h.tail hothers hbehind]
        intro hps hss
        refine ih hps hss h.tail hothers hpath.2 ?_
        cases ss with
        | nil => exact absurd rfl hss
        | cons t ss =>
          rw [behindFirst, List.mem_cons, not_or] at hbehind
          exact hbehind.2

end Matching

/-- A path as it is compared with patterns, without a feed that no `**` goes over. -/
structure PlainPath (path : String) : Prop where
  noDot : ¬ ['.', '/'] <+: path.toList
  noBackslash : '\\' ∉ path.toList
  noFeed : '\n' ∉ path.toList

/-- A pattern without sets and without a dot in front that counts for nothing, whose alternatives
hold `**` as a segment only. -/
structure PlainPattern (pattern : String) : Prop where
  noDot : ¬ ['.', '/'] <+: pattern.toList
  noSet : '[' ∉ pattern.toList
  segmented : ∀ p ∈ expand pattern.toList, Segmented (splitAtChar '/' p)

section Plain

variable {path pattern : String}

theorem withoutDot_eq_self {cs : List Char} (h : ¬ ['.', '/'] <+: cs) : withoutDot cs = cs := by
  rw [withoutDot, withoutLead, if_neg (mt List.isPrefixOf_iff_prefix.1 h)]

theorem map_eq_self_of_not_mem {cs : List Char} (h : '\\' ∉ cs) :
    (cs.map fun c => if c = '\\' then '/' else c) = cs := by
  conv_rhs => rw [← List.map_id cs]
  exact List.map_congr_left fun c hc => if_neg (ne_of_mem_of_not_mem hc h)

theorem PlainPath.canonicalPath_eq (h : PlainPath path) : canonicalPath path = path.toList := by
  rw [canonicalPath, map_eq_self_of_not_mem h.noBackslash, withoutDot_eq_self h.noDot]

/-- A plain pattern can be read, and it matches a plain path iff the segments of one of its
alternatives match those of the path. -/
theorem isMatch_iff_segmentsMatch [CharNames] (hpattern : PlainPattern pattern) (hpath : PlainPath path) :
    ∃ b, isMatch path pattern = .ok b ∧
      (b = true ↔ ∃ p ∈ expand pattern.toList,
        SegmentsMatch (splitAtChar '/' p) (splitAtChar '/' path.toList)) := by
  refine ⟨Pattern.matchesPath ⟨(expand (withoutDot pattern.toList)).map itemsOf⟩ path, ?_, ?_⟩
  · rw [isMatch, read_eq hpattern.noSet]
    rfl
  rw [Pattern.matchesPath, List.any_map, List.any_eq_true, withoutDot_eq_self hpattern.noDot,
    hpath.canonicalPath_eq]
  refine exists_congr fun p => and_congr_right fun hp => ?_
  have hiff := leaves_itemsOf_iff (splitAtChar_ne_nil '/' p) (splitAtChar_ne_nil '/' path.toList)
    (hpattern.segmented p hp) (fun _ => not_mem_of_mem_splitAtChar)
    (fun _ => not_mem_of_mem_splitAtChar) (by
      rw [joined, intercalate_splitAtChar]
      exact hpath.noFeed)
  rw [joined, joined, intercalate_splitAtChar, intercalate_splitAtChar] at hiff
  rw [Function.comp_apply, matchesAll_iff, hiff]

theorem isMatch_folders_or_page :
    PlainPattern "docs/**/\x7b*.md,a?/**\x7d" ∧ PlainPath "docs/x/y/b.md" ∧
      ∃ b, isMatch "docs/x/y/b.md" "docs/**/\x7b*.md,a?/**\x7d" = .ok b ∧
        (b = true ↔ ∃ p ∈ expand "docs/**/\x7b*.md,a?/**\x7d".toList,
          SegmentsMatch (splitAtChar '/' p) (splitAtChar '/' "docs/x/y/b.md".toList)) := by
  have hpattern : PlainPattern "docs/**/\x7b*.md,a?/**\x7d" := by
    have hexpand : expand "docs/**/\x7b*.md,a?/**\x7d".toList =
        ["docs/**/*.md".toList, "docs/**/a?/**".toList] := by decide +kernel
    constructor
    case noDot => decide
    case noSet => decide
    case segmented =>
      rw [hexpand]
      simp only [List.forall_mem_cons]
      refine ⟨⟨?_, ?_⟩, ⟨?_, ?_⟩, List.forall_mem_nil _⟩
      all_goals decide +kernel
  have hpath : PlainPath "docs/x/y/b.md" := by
    constructor
    all_goals decide
  exact ⟨hpattern, hpath, isMatch_iff_segmentsMatch hpattern hpath⟩

end Plain

end MdxLint.Glob
