import MdxLint.Proofs.Text.Parting
import MdxLint.Proofs.Text.Words
import MdxLint.Selection.Revisions

/-! # The ends of a range

A range that could be read has ends that are not empty. The blanks around the text are taken away
and blanks part two ends, but blanks that stand beside two points stay with the ends. The words for
a range join its ends with two points; they are read as that range again unless an end that blanks
had parted from the other puts a third point beside the two.
-/

namespace MdxLint.Revisions

/-- Two points. -/
abbrev twoPoints : List Char := ['.', '.']

/-- Three points. -/
abbrev threePoints : List Char := ['.', '.', '.']

inductive Spells : List Char → Revisions → Prop
  /-- One revision. -/
  | single {a : List Char} (ha : IsWord a) (hpoints : ¬ twoPoints <:+: a) :
      Spells a ⟨String.ofList a, none⟩
  /-- Two revisions parted by blanks. -/
  | gap {a gap b : List Char} (ha : IsWord a) (hgap : IsGap gap) (hb : IsWord b)
      (hpoints : ¬ twoPoints <:+: a ++ (gap ++ b)) :
      Spells (a ++ (gap ++ b)) ⟨String.ofList a, some (String.ofList b)⟩
  /-- Two revisions parted by two points. -/
  | points {a b : List Char} (ha : a ≠ []) (hb : b ≠ []) (hfirst : ¬ twoPoints <:+: a ++ ['.'])
      (hpoints : ¬ threePoints <:+: a ++ (twoPoints ++ b)) :
      Spells (a ++ (twoPoints ++ b)) ⟨String.ofList a, some (String.ofList b)⟩
  /-- Two revisions that stay together. -/
  | ancestor {a b : List Char} (ha : a ≠ []) (hb : b ≠ [])
      (hfirst : ¬ threePoints <:+: a ++ twoPoints) :
      Spells (a ++ (threePoints ++ b)) ⟨String.ofList (a ++ (threePoints ++ b)), none⟩

variable {raw : String} {r : Revisions} {text a b : List Char}

theorem twoPoints_infix_of_threePoints (h : threePoints <:+: text) : twoPoints <:+: text :=
  (List.infix_cons List.infix_rfl).trans h

theorem read_eq_ok_iff : read raw = .ok r ↔ Spells (trim raw.toList) r := by
  have htrim := trim_trim raw.toList
  rw [read]
  generalize trim raw.toList = text at htrim
  constructor
  · intro h
    split at h
    case isTrue => cases h
    case isFalse hne =>
      split at h
      case h_1 a b hthree =>
        obtain ⟨rfl, hfirst⟩ := (cutAt?_eq_some_iff (by decide)).1 hthree
        split at h
        case isTrue => cases h
        case isFalse hends =>
          rw [Bool.or_eq_true, List.isEmpty_iff, List.isEmpty_iff, not_or] at hends
          cases h
          exact .ancestor hends.1 hends.2 hfirst
      case h_2 a b hthree htwo =>
        obtain ⟨rfl, hfirst⟩ := (cutAt?_eq_some_iff (by decide)).1 htwo
        split at h
        case isTrue => cases h
        case isFalse hends =>
          rw [Bool.or_eq_true, List.isEmpty_iff, List.isEmpty_iff, not_or] at hends
          cases h
          exact .points hends.1 hends.2 hfirst (cutAt?_eq_none_iff.1 hthree)
      case h_3 hthree htwo =>
        have hpoints := cutAt?_eq_none_iff.1 htwo
        split at h
        case h_1 a hwords =>
          obtain ⟨rfl, ha⟩ := (wordsBy_eq_singleton_iff htrim).1 hwords
          cases h
          exact .single ha hpoints
        case h_2 a b hwords =>
          obtain ⟨gap, ha, hgap, hb, rfl⟩ := (wordsBy_eq_pair_iff htrim).1 hwords
          cases h
          exact .gap ha hgap hb hpoints
        case h_3 => cases h
  · intro h
    cases h with
    | single ha hpoints =>
      rw [cutAt?_eq_none_iff.2 (mt twoPoints_infix_of_threePoints hpoints),
        cutAt?_eq_none_iff.2 hpoints, ha.wordsBy_eq]
      simp [ha.ne_nil]
    | @gap a gap b ha hgap hb hpoints =>
      rw [cutAt?_eq_none_iff.2 (mt twoPoints_infix_of_threePoints hpoints),
        cutAt?_eq_none_iff.2 hpoints, (wordsBy_eq_pair_iff htrim).2 ⟨gap, ha, hgap, hb, rfl⟩]
      simp [ha.ne_nil]
    | points ha hb hfirst hpoints =>
      rw [cutAt?_eq_none_iff.2 hpoints, (cutAt?_eq_some_iff (by decide)).2 ⟨rfl, hfirst⟩]
      simp [ha, hb]
    | ancestor ha hb hfirst =>
      rw [(cutAt?_eq_some_iff (by decide)).2 ⟨rfl, hfirst⟩]
      simp [ha, hb]

/-! ## Points beside points -/

theorem isInfix_threePoints (h : a.getLast? = some '.' ∨ b.head? = some '.') :
    threePoints <:+: a ++ (twoPoints ++ b) := by
  rcases h with h | h
  · obtain ⟨s, rfl⟩ := List.getLast?_eq_some_iff.1 h
    exact ⟨s, b, by simp⟩
  · obtain ⟨t, rfl⟩ := List.head?_eq_some_iff.1 h
    exact ⟨a, t, by simp⟩

theorem not_twoPoints_append (ha : ¬ twoPoints <:+: a) (hlast : a.getLast? ≠ some '.') :
    ¬ twoPoints <:+: a ++ ['.'] := by
  rw [List.infix_concat_iff, or_iff_left ha]
  rintro ⟨s, hs⟩
  have ha : s ++ ['.'] = a := List.append_cancel_right (by simpa using hs)
  exact hlast (by rw [← ha, List.getLast?_concat])

theorem not_twoPoints_cons (hb : ¬ twoPoints <:+: b) (hhead : b.head? ≠ some '.') :
    ¬ twoPoints <:+: '.' :: b := by
  rw [List.infix_cons_iff, or_iff_left hb, List.cons_prefix_cons]
  rintro ⟨-, t, ht⟩
  exact hhead (by rw [← ht]; rfl)

theorem not_threePoints_append (ha : ¬ twoPoints <:+: a ++ ['.'])
    (hb : ¬ twoPoints <:+: '.' :: b) : ¬ threePoints <:+: a ++ (twoPoints ++ b) := by
  induction a with
  | nil =>
    rw [List.nil_append, List.cons_append, List.cons_append, List.nil_append, List.infix_cons_iff,
      List.cons_prefix_cons]
    rintro (⟨-, h⟩ | h)
    · exact hb h.isInfix
    · exact hb (twoPoints_infix_of_threePoints h)
  | cons c a ih =>
    rw [List.cons_append, List.infix_cons_iff, not_or] at ha ⊢
    refine ⟨fun h => ha.1 ?_, ih ha.2⟩
    obtain ⟨rfl, htail⟩ := List.cons_prefix_cons.1 h
    refine List.cons_prefix_cons.2 ⟨rfl, ?_⟩
    cases a with
    | nil => exact List.prefix_rfl
    | cons d a =>
      obtain ⟨rfl, -⟩ := List.cons_prefix_cons.1 htail
      exact List.cons_prefix_cons.2 ⟨rfl, List.nil_prefix⟩

/-! ## The ends -/

/-- The revisions of a range. -/
def ends (r : Revisions) : List String := r.first :: r.second.toList

/-- Two points part the text, for nowhere in it are there three, and a blank stands beside them. The
text is parted where points stand for the first time. -/
def BlankAtPoints (text : List Char) : Prop :=
  ∃ a b, text = a ++ (twoPoints ++ b) ∧ ¬ twoPoints <:+: a ++ ['.'] ∧ ¬ threePoints <:+: text ∧
    ((∃ c ∈ a.getLast?, isBlank c = true) ∨ ∃ c ∈ b.head?, isBlank c = true)

/-- The range has two ends, and one has a point on the side of the other. -/
def PointAtEnd (r : Revisions) : Prop :=
  ∃ b, r.second = some b ∧ (r.first.toList.getLast? = some '.' ∨ b.toList.head? = some '.')

theorem blankAtPoints_append_iff (hfirst : ¬ twoPoints <:+: a ++ ['.'])
    (hpoints : ¬ threePoints <:+: a ++ (twoPoints ++ b)) :
    BlankAtPoints (a ++ (twoPoints ++ b)) ↔
      (∃ c ∈ a.getLast?, isBlank c = true) ∨ ∃ c ∈ b.head?, isBlank c = true := by
  constructor
  · rintro ⟨a', b', heq, hfirst', -, hblank⟩
    obtain ⟨rfl, rfl⟩ := append_inj_of_first (by decide) heq hfirst hfirst'
    exact hblank
  · exact fun hblank => ⟨a, b, rfl, hfirst, hpoints, hblank⟩

/-- Ends that two points part in a text without blanks at its own ends have none at theirs exactly
if there is none beside the points. -/
theorem trim_ends_points_iff (ha : a ≠ []) (hb : b ≠ [])
    (htrim : trim (a ++ (twoPoints ++ b)) = a ++ (twoPoints ++ b)) :
    trim a = a ∧ trim b = b ↔
      ¬ ((∃ c ∈ a.getLast?, isBlank c = true) ∨ ∃ c ∈ b.head?, isBlank c = true) := by
  rw [trim_append_eq_self_iff ha hb] at htrim
  rw [trim_eq_self_iff, trim_eq_self_iff, and_iff_right htrim.1, and_iff_left htrim.2]
  simp

theorem toList_label_pair (hb : b ≠ []) :
    (label ⟨String.ofList a, some (String.ofList b)⟩).toList = a ++ (twoPoints ++ b) := by
  simp [label, hb]

theorem pointAtEnd_pair_iff : PointAtEnd ⟨String.ofList a, some (String.ofList b)⟩ ↔
    a.getLast? = some '.' ∨ b.head? = some '.' := by
  simp [PointAtEnd]

theorem not_pointAtEnd_single {s : String} : ¬ PointAtEnd ⟨s, none⟩ := by
  rintro ⟨b, hb, -⟩
  cases hb

namespace Spells

theorem not_threePoints (h : Spells text r) (hsecond : r.second ≠ none) :
    ¬ threePoints <:+: text := by
  cases h with
  | single => exact absurd rfl hsecond
  | gap _ _ _ hpoints => exact mt twoPoints_infix_of_threePoints hpoints
  | points _ _ _ hpoints => exact hpoints
  | ancestor => exact absurd rfl hsecond

theorem ne_empty (h : Spells text r) : ∀ e ∈ r.ends, e ≠ "" := by
  cases h with
  | single ha => simp [ends, ha.ne_nil]
  | gap ha _ hb => simp [ends, ha.ne_nil, hb.ne_nil]
  | points ha hb => simp [ends, ha, hb]
  | ancestor ha => simp [ends, ha]

theorem trim_ends_iff (h : Spells text r) (htrim : trim text = text) :
    (∀ e ∈ r.ends, trim e.toList = e.toList) ↔ ¬ BlankAtPoints text := by
  have htwo (hblank : BlankAtPoints text) : twoPoints <:+: text := by
    obtain ⟨a, b, rfl, -⟩ := hblank
    exact ⟨a, b, by simp⟩
  cases h with
  | single ha hpoints => simp [ends, ha.trim_eq, mt htwo hpoints]
  | gap ha hgap hb hpoints => simp [ends, ha.trim_eq, hb.trim_eq, mt htwo hpoints]
  | points ha hb hfirst hpoints =>
    rw [blankAtPoints_append_iff hfirst hpoints, ← trim_ends_points_iff ha hb htrim]
    simp [ends]
  | @ancestor a b ha hb hfirst =>
    have hnot : ¬ BlankAtPoints (a ++ (threePoints ++ b)) := by
      rintro ⟨-, -, -, -, hpoints, -⟩
      exact hpoints ⟨a, b, List.append_assoc _ _ _⟩
    rw [iff_true_right hnot, ends, Option.toList_none, List.forall_mem_singleton,
      String.toList_ofList, htrim]

/-- The label of a range spells the range, unless an end has a point on the side of the other. -/
theorem label_iff (h : Spells text r) (htrim : trim text = text) :
    Spells (trim r.label.toList) r ↔ ¬ r.PointAtEnd := by
  have hself := h
  cases h with
  | single => rwa [iff_true_right not_pointAtEnd_single, label, String.toList_ofList, htrim]
  | ancestor => rwa [iff_true_right not_pointAtEnd_single, label, String.toList_ofList, htrim]
  | points ha hb hfirst hpoints =>
    rw [toList_label_pair hb, htrim, iff_true_left hself, pointAtEnd_pair_iff]
    exact mt isInfix_threePoints hpoints
  | @gap a gap b ha hgap hb hpoints =>
    have hends := (trim_append_eq_self_iff ha.ne_nil hb.ne_nil _).1 htrim
    rw [toList_label_pair hb.ne_nil, (trim_append_eq_self_iff ha.ne_nil hb.ne_nil _).2 hends,
      pointAtEnd_pair_iff]
    constructor
    · intro hlabel htouch
      exact hlabel.not_threePoints (by simp) (isInfix_threePoints htouch)
    · intro hnot
      rw [not_or] at hnot
      have hfirst : ¬ twoPoints <:+: a ++ ['.'] :=
        not_twoPoints_append (mt List.infix_append_of_infix_left hpoints) hnot.1
      have hsecond : ¬ twoPoints <:+: '.' :: b := not_twoPoints_cons (mt (fun hb =>
        List.infix_append_of_infix_right (List.infix_append_of_infix_right hb)) hpoints) hnot.2
      exact .points ha.ne_nil hb.ne_nil hfirst (not_threePoints_append hfirst hsecond)

end Spells

/-- A range that could be read has ends that are not empty. They have blanks at their own ends
exactly if one stands beside the points that parted them, and the label of the range is read as
the range again unless an end has a point on the side of the other. -/
theorem ends_of_read (h : read raw = .ok r) :
    (∀ e ∈ r.ends, e ≠ "") ∧
      ((∀ e ∈ r.ends, trim e.toList = e.toList) ↔ ¬ BlankAtPoints (trim raw.toList)) ∧
      (read r.label = .ok r ↔ ¬ r.PointAtEnd) := by
  have hspells := read_eq_ok_iff.1 h
  have htrim := trim_trim raw.toList
  exact ⟨hspells.ne_empty, hspells.trim_ends_iff htrim,
    read_eq_ok_iff.trans (hspells.label_iff htrim)⟩

/-- Blanks beside two points stay with the ends, and two ends of which the first one ends with a
point have the label of a range of three points. -/
theorem ends_of_read_blankOrPoint :
    (read "a .. b" = .ok ⟨"a ", some " b"⟩ ∧ BlankAtPoints "a .. b".toList) ∧
      (read "a. b" = .ok ⟨"a.", some "b"⟩ ∧ label ⟨"a.", some "b"⟩ = "a...b" ∧
        read "a...b" ≠ .ok ⟨"a.", some "b"⟩) := by
  have hblank : read "a .. b" = .ok ⟨"a ", some " b"⟩ := rfl
  have hpoint : read "a. b" = .ok ⟨"a.", some "b"⟩ := rfl
  refine ⟨⟨hblank, ?_⟩, hpoint, rfl, ?_⟩
  · by_contra hnot
    exact absurd ((ends_of_read hblank).2.1.2 hnot "a " List.mem_cons_self) (by decide)
  · exact fun hread => (ends_of_read hpoint).2.2.1 hread ⟨"b", rfl, .inl rfl⟩

end MdxLint.Revisions
