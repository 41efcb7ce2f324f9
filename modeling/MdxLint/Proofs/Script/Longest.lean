import Mathlib.Data.Bool.AllAny
import MdxLint.Proofs.Script.Identifier

/-! # The longest lexemes

Names and punctuators end by no mark of their own: they go on as far as they can. Each is measured
as the longest beginning of a text that its grammar allows, so the measure can be told from any text
that begins alike and is long enough.
-/

namespace MdxLint

/-- The text is the longest that `G` holds of among those that begin there. -/
structure Maximal (G : List Char → Prop) (text behind : List Char) : Prop where
  mem : G text
  stop : ∀ x y, behind = x ++ y → G (text ++ x) → x = []

/-- The measure finds the longest beginning of a text that `G` holds of, if there is any. -/
structure Measures (G : List Char → Prop) (f : List Char → Option Nat) : Prop where
  sound : ∀ {cs : List Char} {n : Nat}, f cs = some n → n ≤ cs.length ∧ G (cs.take n)
  longest : ∀ {x : List Char} (y : List Char), G x → ∃ n, f (x ++ y) = some n ∧ x.length ≤ n

section Measures

variable {G : List Char → Prop} {f : List Char → Option Nat} (h : Measures G f)
  {cs x y : List Char} {n : Nat}

include h

theorem Measures.maximal (hn : f cs = some n) : Maximal G (cs.take n) (cs.drop n) where
  mem := (h.sound hn).2
  stop x y hdrop hx := by
    have hcs : cs.take n ++ x ++ y = cs := by
      rw [List.append_assoc, ← hdrop, List.take_append_drop]
    obtain ⟨m, hm, hle⟩ := h.longest y hx
    rw [hcs, hn] at hm
    cases hm
    rw [List.length_append, List.length_take, Nat.min_eq_left (h.sound hn).1] at hle
    exact List.eq_nil_of_length_eq_zero (by omega)

theorem Measures.not_prefix (hn : f cs = none) (hx : G x) : ¬x <+: cs := by
  rintro ⟨y, rfl⟩
  obtain ⟨m, hm, -⟩ := h.longest y hx
  rw [hn] at hm
  cases hm

theorem Measures.eq_some_of_append (hn : f (x ++ y) = some n) (hle : n ≤ x.length) :
    f x = some n := by
  have hG := (h.sound hn).2
  rw [List.take_append_of_le_length hle] at hG
  obtain ⟨m, hm, hnm⟩ := h.longest (x.drop n) hG
  rw [List.take_append_drop] at hm
  rw [List.length_take, Nat.min_eq_left hle] at hnm
  -- what is found in the first part alone is found in both parts
  obtain ⟨k, hk, hmk⟩ := h.longest (x.drop m ++ y) (h.sound hm).2
  rw [← List.append_assoc, List.take_append_drop, hn] at hk
  cases hk
  rw [List.length_take, Nat.min_eq_left (h.sound hm).1] at hmk
  rw [hm, Nat.le_antisymm hmk hnm]

theorem Measures.eq_none_of_append (hn : f (x ++ y) = none) : f x = none := by
  cases hm : f x with
  | none => rfl
  | some m =>
    refine (h.not_prefix hn (h.sound hm).2 ?_).elim
    exact (List.take_prefix m x).trans (List.prefix_append x y)

end Measures

namespace Lexeme

/-- An escape in a name. -/
inductive IsEscape : List Char → Prop
  | braces {ds : List Char} (hne : ds ≠ []) (hds : ∀ d ∈ ds, isHex d = true) :
      IsEscape ('\\' :: 'u' :: '\x7b' :: (ds ++ ['\x7d']))
  | digits {ds : List Char} (hlen : ds.length = 4) (hds : ∀ d ∈ ds, isHex d = true) :
      IsEscape ('\\' :: 'u' :: ds)

/-- Characters that may stand in a name, and escapes. -/
inductive NameRun : List Char → Prop
  | nil : NameRun []
  | char {c : Char} {cs : List Char} (hc : isNamePart c = true) (h : NameRun cs) :
      NameRun (c :: cs)
  | escape {e cs : List Char} (he : IsEscape e) (h : NameRun cs) : NameRun (e ++ cs)

section Names

variable {e cs : List Char} {n : Nat}

theorem nameEscape_of_isEscape (he : IsEscape e) (y : List Char) :
    nameEscape (e ++ y) = some e.length := by
  cases he with
  | @braces ds hne hds =>
    have hrun : run isHex (ds ++ '\x7d' :: y) = ds.length :=
      run_append hds (by rintro c ⟨⟩; decide)
    have hpos : ds.length ≠ 0 := mt List.eq_nil_of_length_eq_zero hne
    simp [nameEscape_braces, hrun, hpos]
  | @digits ds hlen hds =>
    obtain ⟨a, b, c, d, rfl⟩ : ∃ a b c d, ds = [a, b, c, d] := by
      match ds, hlen with
      | [a, b, c, d], _ => exact ⟨a, b, c, d, rfl⟩
    have ha : a ≠ '\x7b' := by
      rintro rfl
      exact absurd (hds _ List.mem_cons_self) (by decide)
    simp only [List.cons_append, List.nil_append, nameEscape_digits ha]
    rw [if_pos]
    · rfl
    · simpa [and_assoc] using hds

theorem isEscape_of_nameEscape (h : nameEscape cs = some n) : IsEscape (cs.take n) := by
  obtain hne | rfl | ⟨rest, rfl⟩ | ⟨c, rest, hc, rfl⟩ := escape_cases cs
  · rw [nameEscape_of_ne hne] at h
    cases h
  · cases h
  · rw [nameEscape_braces] at h
    split at h
    case isTrue => cases h
    case isFalse hpos =>
      split at h
      case isFalse => cases h
      case isTrue hclose =>
        cases h
        obtain ⟨y, hy⟩ := List.head?_eq_some_iff.1 hclose
        obtain ⟨ds, hds⟩ : ∃ ds, rest.take (run isHex rest) = ds := ⟨_, rfl⟩
        have hrest : rest = ds ++ '\x7d' :: y := by rw [← hds, ← hy, List.take_append_drop]
        have hlen : ds.length = run isHex rest := by
          rw [← hds, List.length_take_of_le (run_le_length isHex rest)]
        have hhex : ∀ d ∈ ds, isHex d = true := by
          intro d hd
          rw [← hds, take_run] at hd
          exact List.mem_takeWhile_imp hd
        have htake : ('\\' :: 'u' :: '\x7b' :: rest).take (ds.length + 4) =
            '\\' :: 'u' :: '\x7b' :: (ds ++ ['\x7d']) := by
          rw [hrest]
          simp [List.take_append]
        rw [← hlen] at hpos ⊢
        rw [htake]
        exact .braces (mt List.length_eq_zero_iff.2 hpos) hhex
  · rw [nameEscape_digits hc] at h
    split at h
    case isFalse => cases h
    case isTrue hdigits =>
      cases h
      simp only [Bool.and_eq_true, decide_eq_true_eq] at hdigits
      have hescape : IsEscape ('\\' :: 'u' :: (c :: rest.take 3)) := by
        refine .digits (by simp; omega) ?_
        exact List.forall_mem_cons.2 ⟨hdigits.1.1, List.all_eq_true.1 hdigits.2⟩
      exact hescape

theorem isEscape_ne_nil (he : IsEscape e) : ∃ rest, e = '\\' :: 'u' :: rest := by
  cases he with
  | braces => exact ⟨_, rfl⟩
  | digits => exact ⟨_, rfl⟩

theorem name_nameRun_append {x : List Char} (h : NameRun x) (y : List Char) :
    name (x ++ y) = x.length + name y := by
  induction h with
  | nil => simp
  | char hc _ ih =>
    rw [List.cons_append, name, if_pos hc, ih, List.length_cons]
    omega
  | @escape e cs he _ ih =>
    have hescape := nameEscape_of_isEscape he (cs ++ y)
    obtain ⟨rest, rfl⟩ := isEscape_ne_nil he
    have hpart : ¬isNamePart '\\' = true := by decide +kernel
    have hstep : name ('\\' :: ('u' :: (rest ++ (cs ++ y)))) =
        name (cs ++ y) + ('\\' :: 'u' :: rest).length := by
      rw [name, if_neg hpart]
      simp only [List.cons_append] at hescape
      rw [hescape]
      simp
    rw [List.append_assoc, List.cons_append, List.cons_append, hstep, ih, List.length_append]
    omega

theorem nameRun_take_name (cs : List Char) : NameRun (cs.take (name cs)) := by
  fun_induction name cs with
  | case1 => exact .nil
  | case2 c cs hc ih => exact .char hc ih
  | case3 => exact .nil
  | case4 c cs _ n hescape ih =>
    have he := isEscape_of_nameEscape hescape
    cases n with
    | zero => cases he
    | succ n =>
      rw [Nat.add_comm, List.take_add]
      exact .escape he ih

theorem measures_nameRun : Measures NameRun fun cs => some (name cs) where
  sound {cs n} h := by
    cases h
    exact ⟨name_le_length cs, nameRun_take_name cs⟩
  longest {x} y hx := by
    refine ⟨_, rfl, ?_⟩
    rw [name_nameRun_append hx]
    exact Nat.le_add_right _ _

end Names

section Punctuators

theorem measures_punctuators :
    Measures (· ∈ punctuators) fun cs => (punctuators.find? (·.isPrefixOf cs)).map List.length where
  sound {cs n} h := by
    obtain ⟨p, hp, rfl⟩ := Option.map_eq_some_iff.1 h
    have hstart := List.find?_some hp
    rw [List.isPrefixOf_iff_prefix] at hstart
    refine ⟨hstart.length_le, ?_⟩
    rw [← List.prefix_iff_eq_take.1 hstart]
    exact List.mem_of_find?_eq_some hp
  longest {x} y hx := by
    have hsorted : punctuators.Pairwise fun p q => q.length ≤ p.length := by decide +kernel
    have hstart : x.isPrefixOf (x ++ y) = true :=
      List.isPrefixOf_iff_prefix.2 (List.prefix_append x y)
    cases hfind : punctuators.find? (·.isPrefixOf (x ++ y)) with
    | none => exact absurd hstart (List.find?_eq_none.1 hfind x hx)
    | some p =>
      refine ⟨p.length, rfl, ?_⟩
      obtain ⟨-, front, back, hall, hfront⟩ := List.find?_eq_some_iff_append.1 hfind
      rw [hall] at hx hsorted
      rcases List.mem_append.1 hx with hx | hx
      · simpa [hstart] using hfront x hx
      · rcases List.mem_cons.1 hx with rfl | hx
        · exact Nat.le_refl _
        · exact List.rel_of_pairwise_cons (List.pairwise_append.1 hsorted).2.1 hx

end Punctuators

end Lexeme

end MdxLint
