import MdxLint.Proofs.Glob.Segments
import MdxLint.Proofs.Glob.Sets

/-! # Slashes that wildcards take

`*` and `?` take no slash, and neither does a class that lists none. A class that is negated takes a
slash unless it lists it, so that the slashes of a path may be more than those of the pattern: one
for each negated class at most.
-/

namespace MdxLint.Glob

/-- A sign of an alternative: a character, or a class with the text between its brackets. -/
inductive Sign where
  | char (c : Char)
  | cls (body : List Char)
  deriving DecidableEq, Repr

/-- The signs of an alternative. A bracket that is not closed is a character. -/
def signs (cs : List Char) : List Sign :=
  match cs with
  | [] => []
  | c :: rest =>
    if c = '[' then
      match cutAt? [']'] rest with
      | none => .char c :: signs rest
      | some (body, _) => .cls body :: signs (rest.drop (body.length + 1))
    else .char c :: signs rest
  termination_by cs.length
  decreasing_by all_goals grind

section Names

variable [CharNames]

/-- The set that a class stands for, if it ends where it seems to. -/
def setOf? (body : List Char) : Option CharSet :=
  match charSet (setBody body ++ [']']) with
  | .ok (s, ⟨[], _⟩) => some s
  | _ => none

/-- The character is listed in the set, which may be negated. -/
def CharSet.lists (s : CharSet) (c : Char) : Bool := s.members.any (·.contains c)

/-- The number of slashes of an alternative outside its classes. -/
def slashesOutside (p : List Char) : Nat := (signs p).count (.char '/')

def Sign.isNegated : Sign → Bool
  | char _ => false
  | cls body => (setOf? body).any (·.negated)

/-- The number of negated classes of an alternative. -/
def negatedClasses (p : List Char) : Nat := (signs p).countP Sign.isNegated

/-- The alternatives of a pattern. -/
def alternatives (pattern : String) : List (List Char) := expand (withoutDot pattern.toList)

/-- An alternative without `**`, whose classes end where they seem to and list no slash. -/
structure Confined (p : List Char) : Prop where
  single : ¬[Sign.char '*', .char '*'] <:+: signs p
  classes : ∀ body, .cls body ∈ signs p → ∃ s, setOf? body = some s ∧ s.lists '/' = false

/-- The sign can take a text with so many slashes off the front of a path. -/
inductive Sign.Gives : Sign → Nat → Prop
  | slash : Gives (.char '/') 1
  | char {c : Char} (hc : c ∉ ['/', '\\']) : Gives (.char c) 0
  | stray {body : List Char} {s : CharSet} (hs : setOf? body = some s)
      (h : s.contains '/' = true) : Gives (.cls body) 1
  | member {body : List Char} {s : CharSet} {c : Char} (hs : setOf? body = some s)
      (h : s.contains c = true) (hc : c ∉ ['/', '\\']) : Gives (.cls body) 0

/-- The signs can take a path with so many slashes. -/
inductive Attains : List Sign → Nat → Prop
  | nil : Attains [] 0
  | cons {sign : Sign} {ss : List Sign} {m n : Nat} (hm : sign.Gives m) (h : Attains ss n) :
      Attains (sign :: ss) (m + n)

def Sign.item : Sign → Item
  | char c => itemOf c
  | cls body => .one ((setOf? body).getD ⟨false, []⟩)

section Reading

variable {cs tail body : List Char} {s : CharSet}

theorem exists_of_setOf? (h : setOf? body = some s) :
    ∃ hr, charSet (setBody body ++ [']']) = .ok (s, ⟨[], hr⟩) := by
  unfold setOf? at h
  split at h
  case h_1 heq =>
    cases h
    exact ⟨_, heq⟩
  case h_2 => cases h

theorem rows_set (h : setOf? body = some s) (ht : tail.head? ≠ some '*') :
    rows ('[' :: (setBody body ++ ']' :: tail)) = (rows tail).map (consItem (.one s)) := by
  obtain ⟨_, hset⟩ := exists_of_setOf? h
  obtain ⟨_, hread⟩ : ∃ hr, charSet (setBody body ++ ']' :: tail) = .ok (s, ⟨tail, hr⟩) := by
    rw [List.append_cons]
    exact charSet_append hset tail
  rw [rows.eq_def]
  simp [hread, ht]

omit [CharNames] in
theorem signs_cons {c : Char} (hc : c ≠ '[') (rest : List Char) :
    signs (c :: rest) = .char c :: signs rest := by
  rw [signs, if_neg hc]

theorem Confined.behind {sign : Sign} {rest : List Char} (h : Confined cs)
    (hsigns : signs cs = sign :: signs rest) : Confined rest where
  single hinfix := h.single (hsigns ▸ List.infix_cons hinfix)
  classes body hbody := h.classes body (hsigns ▸ List.mem_cons_of_mem _ hbody)

theorem Confined.not_double {rest : List Char} : ¬Confined ('*' :: '*' :: rest) := by
  intro h
  apply h.single
  rw [signs_cons (by decide), signs_cons (by decide)]
  exact ⟨[], signs rest, rfl⟩

theorem rows_written_signs (h : Confined cs) (ht : tail.head? ≠ some '*') :
    rows (written cs ++ tail) = (rows tail).map (consItems ((signs cs).map Sign.item)) := by
  have hmap (e : Except SetFault (List (List Item))) (sign : Sign) (ss : List Sign) :
      (e.map (consItems (ss.map Sign.item))).map (consItem sign.item) =
        e.map (consItems ((sign :: ss).map Sign.item)) := by
    cases e <;> rfl
  fun_induction written cs with
  | case1 =>
    rw [List.nil_append, signs]
    cases rows tail <;> rfl
  | case2 | case4 => exact absurd h Confined.not_double
  | case3 => exact absurd (h.behind (signs_cons (by decide) _)) Confined.not_double
  | case5 rest hslash hstar ih =>
    have hsigns := signs_cons (c := '*') (by decide) rest
    rw [List.append_assoc, List.cons_append, rows_segments, ih (h.behind hsigns), hsigns, ← hmap]
    rfl
  | case6 rest ih =>
    have hsigns := signs_cons (c := '?') (by decide) rest
    rw [List.append_assoc, rows_segment (head?_written_append _ ht), ih (h.behind hsigns), hsigns,
      ← hmap]
    rfl
  | case7 rest hcut _ _ _ _ _ ih =>
    have hsigns : signs ('[' :: rest) = .char '[' :: signs rest := by
      rw [signs, if_pos rfl, hcut]
    rw [List.append_assoc, rows_literal, ih (h.behind hsigns), hsigns, ← hmap]
    rfl
  | case8 rest body behind hcut _ _ _ _ _ ih =>
    have hsigns : signs ('[' :: rest) = .cls body :: signs (rest.drop (body.length + 1)) := by
      rw [signs, if_pos rfl, hcut]
    obtain ⟨s, hs, -⟩ := h.classes body (by rw [hsigns]; exact List.mem_cons_self)
    have hall (w : List Char) : '[' :: setBody body ++ ']' :: w ++ tail =
        '[' :: (setBody body ++ ']' :: (w ++ tail)) := by simp
    have hitem : (Sign.cls body).item = .one s := by rw [Sign.item, hs, Option.getD_some]
    rw [hall, rows_set hs (head?_written_append _ ht), ih (h.behind hsigns), hsigns, ← hmap, hitem]
  | case9 c rest _ _ _ hstar hany hc ih =>
    have hsigns := signs_cons hc rest
    have hitem : (Sign.char c).item = .one (.one c) := by
      rw [Sign.item, itemOf, if_neg hstar, if_neg hany]
    rw [List.append_assoc, rows_literal, ih (h.behind hsigns), hsigns, ← hmap, hitem]

end Reading

section Taking

variable {sign : Sign} {ss : List Sign} {cs r : List Char} {m n : Nat}

theorem Sign.exists_of_mem_rests (hcs : '\\' ∉ cs) (hr : r ∈ sign.item.rests cs) :
    ∃ x, cs = x ++ r ∧ sign.Gives (x.count '/') := by
  cases sign with
  | char c =>
    by_cases hc : c = '/'
    · subst hc
      obtain ⟨d, rfl, hd⟩ := mem_rests_one_iff.1 hr
      rw [contains_one.1 hd]
      exact ⟨['/'], rfl, .slash⟩
    · obtain ⟨x, rfl, hx, htakes⟩ := (mem_rests_itemOf_iff hc).1 hr
      have hback : c ≠ '\\' := by
        rintro rfl
        cases htakes
        exact hcs List.mem_cons_self
      rw [List.mem_append, not_or] at hcs
      refine ⟨x, rfl, ?_⟩
      rw [List.count_eq_zero.2 hx]
      exact .char (by simp [hc, hback])
  | cls body =>
    obtain ⟨d, rfl, hd⟩ := mem_rests_one_iff.1 hr
    refine ⟨[d], rfl, ?_⟩
    cases hs : setOf? body with
    | none =>
      rw [hs] at hd
      cases hd
    | some s =>
      rw [hs, Option.getD_some] at hd
      by_cases hslash : d = '/'
      · subst hslash
        exact .stray hs hd
      · have hback : d ≠ '\\' := fun h => hcs (h ▸ List.mem_cons_self)
        rw [List.count_eq_zero.2 (by simpa using Ne.symm hslash)]
        exact .member hs hd (by simp [hslash, hback])

/-- Each number of slashes that a sign may take stands in a text that it takes. -/
theorem Sign.Gives.exists_text (h : sign.Gives m) :
    ∃ x, '\\' ∉ x ∧ x.count '/' = m ∧ ∀ r, r ∈ sign.item.rests (x ++ r) := by
  cases h with
  | slash => exact ⟨['/'], by decide, rfl, fun r => mem_rests_one_iff.2 ⟨'/', rfl, by decide⟩⟩
  | @char c hc =>
    simp only [List.mem_cons, List.not_mem_nil, or_false, not_or] at hc
    have htakes : ∃ x, '\\' ∉ x ∧ '/' ∉ x ∧ Takes c x := by
      by_cases hstar : c = '*'
      · exact ⟨[], List.not_mem_nil, List.not_mem_nil, hstar ▸ .star []⟩
      · by_cases hany : c = '?'
        · exact ⟨['?'], by decide, by decide, hany ▸ .any '?'⟩
        · exact ⟨[c], by simpa using Ne.symm hc.2, by simpa using Ne.symm hc.1, .self hstar hany⟩
    obtain ⟨x, hback, hslash, htakes⟩ := htakes
    exact ⟨x, hback, List.count_eq_zero.2 hslash, fun r =>
      (mem_rests_itemOf_iff hc.1).2 ⟨x, rfl, hslash, htakes⟩⟩
  | stray hs hd =>
    refine ⟨['/'], by decide, rfl, fun r => mem_rests_one_iff.2 ⟨'/', rfl, ?_⟩⟩
    rwa [hs]
  | @member body s c hs hd hc =>
    simp only [List.mem_cons, List.not_mem_nil, or_false, not_or] at hc
    refine ⟨[c], by simpa using Ne.symm hc.2, List.count_eq_zero.2 (by simpa using Ne.symm hc.1),
      fun r => mem_rests_one_iff.2 ⟨c, rfl, ?_⟩⟩
    rwa [hs]

theorem attains_of_leaves (hcs : '\\' ∉ cs) (h : Leaves (ss.map Sign.item) cs []) :
    Attains ss (cs.count '/') := by
  induction ss generalizing cs with
  | nil =>
    rw [leaves_nil_iff.1 h]
    exact .nil
  | cons sign ss ih =>
    obtain ⟨r, hr, hleaves⟩ := leaves_cons_iff.1 h
    obtain ⟨x, rfl, hgives⟩ := Sign.exists_of_mem_rests hcs hr
    rw [List.mem_append, not_or] at hcs
    rw [List.count_append]
    exact .cons hgives (ih hcs.2 hleaves)

theorem Attains.exists_text (h : Attains ss n) :
    ∃ cs, '\\' ∉ cs ∧ cs.count '/' = n ∧ Leaves (ss.map Sign.item) cs [] := by
  induction h with
  | nil => exact ⟨[], List.not_mem_nil, rfl, .nil []⟩
  | cons hgives _ ih =>
    obtain ⟨x, hx, rfl, hrests⟩ := hgives.exists_text
    obtain ⟨cs, hcs, rfl, hleaves⟩ := ih
    refine ⟨x ++ cs, ?_, List.count_append, .cons (hrests cs) hleaves⟩
    rw [List.mem_append, not_or]
    exact ⟨hx, hcs⟩

theorem Sign.Gives.bounds (h : sign.Gives m)
    (hset : ∀ body, sign = .cls body → ∃ s, setOf? body = some s ∧ s.lists '/' = false) :
    [sign].count (.char '/') ≤ m ∧ m ≤ [sign].count (.char '/') + [sign].countP Sign.isNegated := by
  cases h with
  | slash => exact ⟨Nat.le_refl 1, Nat.le_add_right 1 _⟩
  | @char c hc =>
    have hcount : [Sign.char c].count (.char '/') = 0 := by
      simp only [List.mem_cons, not_or] at hc
      simp [hc.1]
    rw [hcount]
    exact ⟨Nat.le_refl 0, Nat.zero_le _⟩
  | @stray body s hs hslash =>
    obtain ⟨s', hs', hlists⟩ := hset body rfl
    obtain rfl : s = s' := Option.some.inj (hs.symm.trans hs')
    have hnegated : (Sign.cls body).isNegated = true := by
      have hany : s.members.any (·.contains '/') = false := hlists
      rw [CharSet.contains, hany] at hslash
      simpa [Sign.isNegated, hs] using hslash
    simp [hnegated]
  | member => simp

/-- A path has the slashes that the signs name, and one for each negated class at most. -/
theorem Attains.bounds (h : Attains ss n)
    (hsets : ∀ body, .cls body ∈ ss → ∃ s, setOf? body = some s ∧ s.lists '/' = false) :
    ss.count (.char '/') ≤ n ∧ n ≤ ss.count (.char '/') + ss.countP Sign.isNegated := by
  induction h with
  | nil => exact ⟨Nat.le_refl 0, Nat.le_refl 0⟩
  | @cons sign ss m n hgives _ ih =>
    have hfirst := hgives.bounds fun body heq => hsets body (heq ▸ List.mem_cons_self)
    have hrest := ih fun body hbody => hsets body (List.mem_cons_of_mem _ hbody)
    rw [← List.singleton_append, List.count_append, List.countP_append]
    omega

end Taking

section Patterns

variable {pattern path : String}

theorem read_of_confined (h : ∀ p ∈ alternatives pattern, Confined p) :
    Pattern.read pattern =
      .ok ⟨(alternatives pattern).map fun p => (signs p).map Sign.item⟩ := by
  have hrows := rows_expression_of (expand_ne_nil _) fun p hp _ ht => rows_written_signs (h p hp) ht
  rw [Pattern.read]
  unfold alternatives
  rw [hrows]

theorem matches_iff_of_confined (h : ∀ p ∈ alternatives pattern, Confined p) :
    Matches path pattern ↔
      ∃ p ∈ alternatives pattern, Leaves ((signs p).map Sign.item) (canonicalPath path) [] := by
  rw [Matches, isMatch, read_of_confined h, Except.map, Except.ok.injEq, Pattern.matchesPath,
    List.any_map, List.any_eq_true]
  simp only [Function.comp_apply, matchesAll_iff]

omit [CharNames] in
theorem not_mem_canonicalPath : '\\' ∉ canonicalPath path := by
  refine not_mem_withoutDot fun hm => ?_
  obtain ⟨c, -, hc⟩ := List.mem_map.1 hm
  split at hc
  · cases hc
  case isFalse hne => exact hne hc

omit [CharNames] in
theorem exists_canonicalPath {cs : List Char} (h : '\\' ∉ cs) :
    ∃ path, canonicalPath path = cs := by
  have hdot : '\\' ∉ '.' :: '/' :: cs := by simpa using h
  refine ⟨String.ofList ('.' :: '/' :: cs), ?_⟩
  rw [canonicalPath, String.toList_ofList, map_eq_self_of_not_mem hdot]
  simp [withoutDot, withoutLead]

/-- Every path that a pattern matches has the slashes of one of its alternatives outside classes,
and one more for each negated class at most. Whether it never has more is told from the numbers of
slashes that the signs of the alternatives can take. -/
theorem slashes_of_confined (h : ∀ p ∈ alternatives pattern, Confined p) :
    Readable pattern ∧
      (∀ path, Matches path pattern → ∃ p ∈ alternatives pattern,
        slashesOutside p ≤ (canonicalPath path).count '/' ∧
          (canonicalPath path).count '/' ≤ slashesOutside p + negatedClasses p) ∧
      ((∀ path, Matches path pattern → ∃ p ∈ alternatives pattern,
          (canonicalPath path).count '/' = slashesOutside p) ↔
        ∀ p ∈ alternatives pattern, ∀ n, Attains (signs p) n →
          ∃ q ∈ alternatives pattern, n = slashesOutside q) := by
  refine ⟨⟨_, read_of_confined h⟩, fun path hmatch => ?_, fun hlaw p hp n hn => ?_,
    fun hlaw path hmatch => ?_⟩
  · obtain ⟨p, hp, hleaves⟩ := (matches_iff_of_confined h).1 hmatch
    exact ⟨p, hp, (attains_of_leaves not_mem_canonicalPath hleaves).bounds (h p hp).classes⟩
  · obtain ⟨cs, hcs, rfl, hleaves⟩ := hn.exists_text
    obtain ⟨path, rfl⟩ := exists_canonicalPath hcs
    exact hlaw path ((matches_iff_of_confined h).2 ⟨p, hp, hleaves⟩)
  · obtain ⟨p, hp, hleaves⟩ := (matches_iff_of_confined h).1 hmatch
    exact hlaw p hp _ (attains_of_leaves not_mem_canonicalPath hleaves)

end Patterns

end Names

def strayClass : String := "docs[!a]b.mdx"

theorem alternatives_strayClass : alternatives strayClass = [strayClass.toList] := by
  decide +kernel

theorem confined_strayClass : ∀ p ∈ alternatives strayClass, Confined p := by
  have hsigns : signs strayClass.toList = "docs".toList.map .char ++
      .cls ['!', 'a'] :: "b.mdx".toList.map .char := by decide +kernel
  rw [alternatives_strayClass, List.forall_mem_singleton]
  constructor
  case single =>
    rw [hsigns]
    decide +kernel
  case classes =>
    intro body hbody
    obtain rfl : body = ['!', 'a'] := by simpa [hsigns] using hbody
    exact ⟨⟨true, [.range 97 97]⟩, by decide +kernel, by decide⟩

/-- The class takes the slash, so that the path has more slashes than the pattern. -/
theorem slashes_of_confined_strayClass :
    (∀ p ∈ alternatives strayClass, Confined p) ∧ Readable strayClass ∧
      Matches "docs/b.mdx" strayClass ∧
      (∃ p ∈ alternatives strayClass,
        slashesOutside p ≤ (canonicalPath "docs/b.mdx").count '/' ∧
          (canonicalPath "docs/b.mdx").count '/' ≤ slashesOutside p + negatedClasses p) ∧
      ¬∃ p ∈ alternatives strayClass,
        (canonicalPath "docs/b.mdx").count '/' = slashesOutside p := by
  obtain ⟨hreadable, hbounds, -⟩ := slashes_of_confined confined_strayClass
  have hmatch : Matches "docs/b.mdx" strayClass := by decide +kernel
  refine ⟨confined_strayClass, hreadable, hmatch, hbounds _ hmatch, ?_⟩
  rw [alternatives_strayClass]
  decide +kernel

end MdxLint.Glob
