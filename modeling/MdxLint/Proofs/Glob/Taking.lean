import MdxLint.Proofs.Glob.Descent

/-! # What the items of a segment take

A segment of a pattern without `**` is read character by character: each character is one item, and
what the items take off the front of a text is what the characters stand for, up to a slash at most.
-/

namespace MdxLint.Glob

/-- The segment that stands for any number of segments. -/
def anySegments : List Char := ['*', '*']

/-- A character of a segment takes a text: `*` any one, `?` one of one character, and any other
character itself. -/
inductive Takes : Char → List Char → Prop
  | star (x : List Char) : Takes '*' x
  | any (c : Char) : Takes '?' [c]
  | self {c : Char} (hstar : c ≠ '*') (hany : c ≠ '?') : Takes c [c]

/-- The characters of a segment take a text, part by part. -/
inductive TextMatches : List Char → List Char → Prop
  | nil : TextMatches [] []
  | cons {c : Char} {x p t : List Char} (hc : Takes c x) (h : TextMatches p t) :
      TextMatches (c :: p) (x ++ t)

section Items

variable {r x cs p : List Char} {c d : Char} {s : CharSet} {i : Item} {items : List Item}

theorem leaves_nil_iff : Leaves [] cs r ↔ cs = r := by
  constructor
  · intro h
    cases h
    rfl
  · rintro rfl
    exact .nil cs

theorem leaves_cons_iff :
    Leaves (i :: items) cs r ↔ ∃ m ∈ i.rests cs, Leaves items m r := by
  constructor
  · intro h
    cases h with
    | cons hm h => exact ⟨_, hm, h⟩
  · rintro ⟨m, hm, h⟩
    exact .cons hm h

theorem contains_one : (CharSet.one c).contains d = true ↔ d = c := by
  rw [← Char.toNat_inj]
  simp [CharSet.one, CharSet.contains, Member.contains]
  omega

theorem contains_segmentSet : segmentSet.contains c = true ↔ c ≠ '/' := contains_except

theorem mem_afterMany_iff :
    r ∈ afterMany s cs ↔ ∃ x, cs = x ++ r ∧ ∀ c ∈ x, s.contains c = true := by
  induction cs with
  | nil =>
    rw [afterMany, List.mem_singleton]
    constructor
    · rintro rfl
      exact ⟨[], rfl, List.forall_mem_nil _⟩
    · rintro ⟨x, hx, -⟩
      exact (List.append_eq_nil_iff.1 hx.symm).2
  | cons c cs ih =>
    rw [afterMany, List.mem_cons]
    constructor
    · rintro (rfl | h)
      · exact ⟨[], rfl, List.forall_mem_nil _⟩
      · split at h
        case isFalse => cases h
        case isTrue hc =>
          obtain ⟨x, rfl, hx⟩ := ih.1 h
          exact ⟨c :: x, rfl, List.forall_mem_cons.2 ⟨hc, hx⟩⟩
    · rintro ⟨x, hcs, hx⟩
      cases x with
      | nil => exact .inl hcs.symm
      | cons d x =>
        obtain ⟨rfl, rfl⟩ := List.cons.inj hcs
        rw [List.forall_mem_cons] at hx
        rw [if_pos hx.1]
        exact .inr (ih.2 ⟨x, rfl, hx.2⟩)

theorem mem_afterSlashes_iff : r ∈ afterSlashes cs ↔ ∃ x, cs = x ++ '/' :: r ∧ '\n' ∉ x := by
  induction cs with
  | nil => simp [afterSlashes]
  | cons c cs ih =>
    rw [afterSlashes, List.mem_append]
    constructor
    · rintro (h | h)
      · split at h
        case isFalse => cases h
        case isTrue hc =>
          rw [List.mem_singleton.1 h, hc]
          exact ⟨[], rfl, List.not_mem_nil⟩
      · split at h
        case isFalse => cases h
        case isTrue hc =>
          obtain ⟨x, rfl, hx⟩ := ih.1 h
          refine ⟨c :: x, rfl, ?_⟩
          rw [List.mem_cons, not_or]
          exact ⟨Ne.symm (contains_anyChar.1 hc), hx⟩
    · rintro ⟨x, hcs, hx⟩
      cases x with
      | nil =>
        obtain ⟨rfl, rfl⟩ := List.cons.inj hcs
        exact .inl (by simp)
      | cons d x =>
        obtain ⟨rfl, rfl⟩ := List.cons.inj hcs
        rw [List.mem_cons, not_or] at hx
        rw [if_pos (contains_anyChar.2 (Ne.symm hx.1))]
        exact .inr (ih.2 ⟨x, rfl, hx.2⟩)

def itemOf (c : Char) : Item :=
  if c = '*' then .many segmentSet else if c = '?' then .one segmentSet else .one (.one c)

theorem itemsOf_append {rest : List Char} (hslash : '/' ∉ p) (hwhole : ¬ anySegments <:+: p)
    (hrest : ∀ c ∈ rest.head?, c = '/') : itemsOf (p ++ rest) = p.map itemOf ++ itemsOf rest := by
  induction p with
  | nil => rfl
  | cons c p ih =>
    rw [List.mem_cons, not_or] at hslash
    have hnext : c = '*' → (p ++ rest).head? ≠ some '*' := by
      rintro rfl hhead
      cases p with
      | nil => exact absurd (hrest '*' hhead) (by decide)
      | cons d p =>
        cases hhead
        exact hwhole ⟨[], p, rfl⟩
    have htail := ih hslash.2 fun h => hwhole (List.infix_cons h)
    rw [List.cons_append, List.map_cons, List.cons_append, ← htail]
    generalize p ++ rest = cs at hnext ⊢
    rw [itemOf]
    split
    case isTrue hc =>
      subst hc
      rw [itemsOf]
      · rintro cs rfl
        exact hnext rfl rfl
      · rintro cs rfl
        exact hnext rfl rfl
    case isFalse hstar =>
      split
      case isTrue hc =>
        subst hc
        rw [itemsOf]
      case isFalse hany =>
        rw [itemsOf]
        · rintro cs rfl
          exact absurd rfl hstar
        · rintro rfl
          exact absurd rfl hslash.1
        · rintro cs rfl
          exact absurd rfl hstar
        · rintro rfl
          exact absurd rfl hstar
        · rintro rfl
          exact absurd rfl hany

theorem mem_rests_one_iff :
    r ∈ (Item.one s).rests cs ↔ ∃ c, cs = c :: r ∧ s.contains c = true := by
  cases cs with
  | nil => simp [Item.rests]
  | cons c cs =>
    rw [Item.rests]
    by_cases hc : s.contains c = true
    · rw [if_pos hc, List.mem_singleton]
      constructor
      · rintro rfl
        exact ⟨c, rfl, hc⟩
      · rintro ⟨d, hd, -⟩
        exact (List.cons.inj hd).2.symm
    · rw [if_neg hc]
      constructor
      · intro h
        cases h
      · rintro ⟨d, hd, hd'⟩
        exact absurd ((List.cons.inj hd).1 ▸ hd') hc

theorem mem_rests_itemOf_iff (hc : c ≠ '/') :
    r ∈ (itemOf c).rests cs ↔ ∃ x, cs = x ++ r ∧ '/' ∉ x ∧ Takes c x := by
  unfold itemOf
  split
  case isTrue hstar =>
    subst hstar
    have hrests : r ∈ (Item.many segmentSet).rests cs ↔ r ∈ afterMany segmentSet cs := Iff.rfl
    simp only [hrests, mem_afterMany_iff, contains_segmentSet]
    refine exists_congr fun x => and_congr_right fun _ => ?_
    constructor
    · intro h
      exact ⟨fun hm => h _ hm rfl, .star x⟩
    · rintro ⟨h, -⟩ d hd
      exact ne_of_mem_of_not_mem hd h
  case isFalse hstar =>
    split
    case isTrue hany =>
      subst hany
      simp only [mem_rests_one_iff, contains_segmentSet]
      constructor
      · rintro ⟨d, rfl, hd⟩
        exact ⟨[d], rfl, by simpa using Ne.symm hd, .any d⟩
      · rintro ⟨x, rfl, hx, ht⟩
        cases ht with
        | any d => exact ⟨d, rfl, ne_of_mem_of_not_mem (List.mem_singleton_self d) hx⟩
        | self _ hany => exact absurd rfl hany
    case isFalse hany =>
      simp only [mem_rests_one_iff, contains_one]
      constructor
      · rintro ⟨d, rfl, rfl⟩
        exact ⟨[d], rfl, by simpa using Ne.symm hc, .self hstar hany⟩
      · rintro ⟨x, rfl, -, ht⟩
        cases ht with
        | star => exact absurd rfl hstar
        | any => exact absurd rfl hany
        | self => exact ⟨c, rfl, rfl⟩

theorem leaves_itemOf_iff (hslash : '/' ∉ p) :
    Leaves (p.map itemOf ++ items) cs r ↔
      ∃ x m, cs = x ++ m ∧ '/' ∉ x ∧ TextMatches p x ∧ Leaves items m r := by
  induction p generalizing cs with
  | nil =>
    constructor
    · intro h
      exact ⟨[], cs, rfl, List.not_mem_nil, .nil, h⟩
    · rintro ⟨x, m, rfl, -, hx, h⟩
      cases hx
      exact h
  | cons c p ih =>
    rw [List.mem_cons, not_or] at hslash
    have hc := Ne.symm hslash.1
    constructor
    · intro h
      cases h with
      | cons hm h =>
        obtain ⟨x, rfl, hx, htakes⟩ := (mem_rests_itemOf_iff hc).1 hm
        obtain ⟨y, m, rfl, hy, hmatch, h⟩ := (ih hslash.2).1 h
        refine ⟨x ++ y, m, (List.append_assoc ..).symm, ?_, .cons htakes hmatch, h⟩
        rw [List.mem_append, not_or]
        exact ⟨hx, hy⟩
    · rintro ⟨x, m, rfl, hx, hmatch, h⟩
      cases hmatch with
      | @cons _ y _ t htakes hmatch =>
        rw [List.mem_append, not_or] at hx
        refine .cons (m := t ++ m) ?_ ?_
        · exact (mem_rests_itemOf_iff hc).2 ⟨y, List.append_assoc .., hx.1, htakes⟩
        · exact (ih hslash.2).2 ⟨t, m, rfl, hx.2, hmatch, h⟩

end Items

end MdxLint.Glob
