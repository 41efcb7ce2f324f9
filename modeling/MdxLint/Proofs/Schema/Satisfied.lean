import Mathlib.Data.List.Basic
import MdxLint.Proofs.Data.Double
import MdxLint.Schema.Forms

/-! # What satisfies a schema

A schema is satisfied if nothing of it is violated. What that means for a value is told for each
rule, and from the rules for each form that a setting has to have.
-/

namespace MdxLint

namespace Value

/-- A text that is not empty. -/
def IsName (v : Value) : Prop := ∃ ps, v.points? = some ps ∧ ps ≠ []

/-- A plugin: a name, or a pair of a name and a map of options. -/
def IsPlugin (v : Value) : Prop :=
  v.IsName ∨ ∃ name options, name.IsName ∧ v = .list [name, .map options]

theorem isName_text_iff {s : String} : (text s).IsName ↔ s ≠ "" := by
  simp [IsName, points?, pointsOf]

theorem asText_of_points? {v : Value} {ps : List Point} (h : v.points? = some ps) :
    v.asText = v := by
  cases v <;> first | rfl | cases h

end Value

namespace Schema

/-! ## Rules -/

section Rules

variable {v : Value} {fits : Bool}

theorem violationsOf_eq_nil_iff {rules : List Rule} :
    violationsOf fits v rules = [] ↔ ∀ r ∈ rules, r.violations fits v = [] := by
  induction rules with
  | nil => simp [violationsOf]
  | cons r rules ih => rw [violationsOf, List.append_eq_nil_iff, ih, List.forall_mem_cons]

/-- Whether a rule is violated does not depend on the kinds that the other rules name. -/
theorem violations_eq_nil_congr (r : Rule) {fits' : Bool} :
    r.violations fits v = [] ↔ r.violations fits' v = [] := by
  cases r
  case oneOf branches =>
    rw [Rule.violations, Rule.violations]
    split
    · rfl
    · simp
  all_goals simp [Rule.violations]

theorem violations_eq_nil_iff {rules : List Rule} :
    violations v rules = [] ↔ rules.Forall fun r => r.violations true v = [] := by
  rw [violations, violationsOf_eq_nil_iff, List.forall_iff_forall_mem]
  simp only [@violations_eq_nil_congr v _ _ true]

theorem eq_nil_iff_of_objection {α β : Type} {c : Prop} [Decidable c] {f : α → β} {m : α} :
    List.map f (if c then [] else [m]) = [] ↔ c := by
  split
  · exact iff_of_true rfl ‹_›
  · exact iff_of_false (List.cons_ne_nil _ _) ‹_›

theorem violations_kind_iff {k : Kind} :
    (Rule.kinds [k]).violations fits v = [] ↔ k.holds v = true := by
  rw [← Bool.or_false (k.holds v)]
  exact eq_nil_iff_of_objection

theorem violations_enum_iff {vs : List Value} :
    (Rule.enum vs).violations fits v = [] ↔ ∃ w ∈ vs, same w v = true := by
  rw [← List.any_eq_true]
  exact eq_nil_iff_of_objection

theorem violations_minLength_iff {n : Nat} {ps : List Point} (h : v.points? = some ps) :
    (Rule.minLength n).violations fits v = [] ↔ n ≤ ps.length := by
  cases v <;> cases h
  · rw [pointsOf, List.length_map, String.length_toList]
    exact eq_nil_iff_of_objection
  · exact eq_nil_iff_of_objection

theorem violations_minItems_iff {n : Nat} {vs : List Value} :
    (Rule.minItems n).violations fits (.list vs) = [] ↔ n ≤ vs.length := eq_nil_iff_of_objection

theorem violations_maxItems_iff {n : Nat} {vs : List Value} :
    (Rule.maxItems n).violations fits (.list vs) = [] ↔ vs.length ≤ n := eq_nil_iff_of_objection

theorem violations_oneWord_iff {ps : List Point} (h : v.points? = some ps) :
    Rule.oneWord.violations fits v = [] ↔ isOneWord v.plain = true := by
  cases v <;> cases h
  · exact eq_nil_iff_of_objection
  · exact eq_nil_iff_of_objection

theorem violations_items_iff {rules : List Rule} {vs : List Value} :
    (Rule.items rules).violations fits (.list vs) = [] ↔ ∀ w ∈ vs, violations w rules = [] := by
  change (vs.mapIdx _).flatten = [] ↔ _
  rw [List.flatten_eq_nil_iff]
  constructor
  · intro h w hw
    obtain ⟨i, hi, rfl⟩ := List.getElem_of_mem hw
    exact List.map_eq_nil_iff.1 (h _ (List.mem_mapIdx.2 ⟨i, hi, rfl⟩))
  · intro h l hl
    obtain ⟨i, hi, rfl⟩ := List.mem_mapIdx.1 hl
    exact List.map_eq_nil_iff.2 (h _ (List.getElem_mem hi))

theorem mem_branchViolations_nil_iff {branches : List (List Rule)} :
    [] ∈ branchViolations v branches ↔ ∃ rules ∈ branches, violations v rules = [] := by
  induction branches with
  | nil => simp [branchViolations]
  | cons rules branches ih =>
    rw [branchViolations, List.mem_cons, ih, eq_comm]
    simp only [List.mem_cons, exists_eq_or_imp, violations]

theorem violations_oneOf_iff {branches : List (List Rule)} :
    (Rule.oneOf branches).violations fits v = [] ↔
      ∃ rules ∈ branches, violations v rules = [] := by
  rw [← mem_branchViolations_nil_iff, Rule.violations]
  simp

theorem violations_properties_iff {ps : List (String × List Rule)} :
    (Rule.properties ps).violations fits v = [] ↔
      ∀ p ∈ ps, ∀ part, v.get? p.1 = some part → violations part p.2 = [] := by
  change propertyViolations v ps = [] ↔ _
  induction ps with
  | nil => simp [propertyViolations]
  | cons p ps ih =>
    rw [propertyViolations, List.append_eq_nil_iff, ih, List.forall_mem_cons]
    cases v.get? p.1 <;> simp [violations]

theorem firstViolations_eq_nil_iff {i : Nat} {vs : List Value} {ss : List (List Rule)} :
    firstViolations i vs ss = [] ↔
      ∀ p ∈ vs.zip ss, violations p.1 p.2 = [] := by
  induction ss generalizing i vs with
  | nil => simp [firstViolations]
  | cons s ss ih =>
    cases vs with
    | nil => simp [firstViolations]
    | cons v vs =>
      rw [firstViolations, List.append_eq_nil_iff, ih, List.zip_cons_cons, List.forall_mem_cons,
        List.map_eq_nil_iff, violations]

theorem violations_firstItems_iff {ss : List (List Rule)} {vs : List Value} :
    (Rule.firstItems ss).violations fits (.list vs) = [] ↔
      ∀ p ∈ vs.zip ss, violations p.1 p.2 = [] := firstViolations_eq_nil_iff

end Rules

/-! ## Forms -/

section Forms

variable {v : Value}

theorem holds_string_iff : Kind.string.holds v = true ↔ ∃ ps, v.points? = some ps := by
  cases v <;> simp [Kind.holds, Value.points?]

theorem holds_array_iff : Kind.array.holds v = true ↔ ∃ vs, v = .list vs := by
  cases v <;> simp [Kind.holds]

theorem holds_object_iff : Kind.object.holds v = true ↔ ∃ es, v = .map es := by
  cases v <;> simp [Kind.holds]

theorem holds_boolean_iff : Kind.boolean.holds v = true ↔ ∃ b, v = .bool b := by
  cases v <;> simp [Kind.holds]

theorem holds_integer_iff :
    Kind.integer.holds v = true ↔ (∃ n, v = .int n) ∨ ∃ x, v = .float x ∧ isWhole x = true := by
  cases v <;> simp [Kind.holds]

theorem violations_name_iff :
    violations v [.kinds [.string], .minLength 1] = [] ↔ v.IsName := by
  rw [violations_eq_nil_iff]
  simp only [List.Forall, violations_kind_iff, holds_string_iff]
  constructor
  · rintro ⟨⟨ps, hps⟩, h⟩
    exact ⟨ps, hps, List.ne_nil_of_length_pos ((violations_minLength_iff hps).1 h)⟩
  · rintro ⟨ps, hps, hne⟩
    exact ⟨⟨ps, hps⟩, (violations_minLength_iff hps).2 (List.length_pos_of_ne_nil hne)⟩

theorem isName_of_isOneWord {ps : List Point} (h : v.points? = some ps)
    (hword : isOneWord v.plain = true) : v.IsName := by
  refine ⟨ps, h, ?_⟩
  rintro rfl
  cases v <;> simp [Value.points?, pointsOf] at h
  · subst h
    exact absurd hword (by decide)
  · subst h
    exact absurd hword (by decide)

theorem isName_of_violations_word (h : violations v [.kinds [.string], .oneWord] = []) :
    v.IsName := by
  rw [violations_eq_nil_iff] at h
  simp only [List.Forall, violations_kind_iff, holds_string_iff] at h
  obtain ⟨⟨ps, hps⟩, h⟩ := h
  exact isName_of_isOneWord hps ((violations_oneWord_iff hps).1 h)

theorem violations_textList_iff :
    violations v textList = [] ↔ ∃ vs, v = .list vs ∧ ∀ w ∈ vs, w.IsName := by
  rw [textList, violations_eq_nil_iff]
  simp only [List.Forall, violations_kind_iff, holds_array_iff]
  constructor
  · rintro ⟨⟨vs, rfl⟩, h⟩
    simp only [violations_items_iff, violations_name_iff] at h
    exact ⟨vs, rfl, h⟩
  · rintro ⟨vs, rfl, h⟩
    simp only [violations_items_iff, violations_name_iff]
    exact ⟨⟨vs, rfl⟩, h⟩

theorem violations_command_iff :
    violations v [.kinds [.array], .items [.kinds [.string], .minLength 1], .minItems 1] = [] ↔
      ∃ vs, v = .list vs ∧ (∀ w ∈ vs, w.IsName) ∧ vs ≠ [] := by
  have hsplit : violations v
      [.kinds [.array], .items [.kinds [.string], .minLength 1], .minItems 1] = [] ↔
      violations v textList = [] ∧ (Rule.minItems 1).violations true v = [] := by
    rw [textList, violations_eq_nil_iff, violations_eq_nil_iff]
    simp only [List.Forall, and_assoc]
  rw [hsplit, violations_textList_iff]
  constructor
  · rintro ⟨⟨vs, rfl, hvs⟩, h⟩
    exact ⟨vs, rfl, hvs, List.ne_nil_of_length_pos (violations_minItems_iff.1 h)⟩
  · rintro ⟨vs, rfl, hvs, hne⟩
    exact ⟨⟨vs, rfl, hvs⟩, violations_minItems_iff.2 (List.length_pos_of_ne_nil hne)⟩

theorem violations_pair_iff :
    violations v
        [.kinds [.array], .firstItems [[.kinds [.string], .minLength 1], [.kinds [.object]]],
          .minItems 2, .maxItems 2] = [] ↔
      ∃ name options, name.IsName ∧ v = .list [name, .map options] := by
  rw [violations_eq_nil_iff]
  simp only [List.Forall, violations_kind_iff, holds_array_iff]
  have hmap (w : Value) : violations w [.kinds [.object]] = [] ↔ ∃ es, w = .map es := by
    rw [violations_eq_nil_iff, List.Forall, violations_kind_iff, holds_object_iff]
  constructor
  · rintro ⟨⟨vs, rfl⟩, hitems, hmin, hmax⟩
    rw [violations_minItems_iff] at hmin
    rw [violations_maxItems_iff] at hmax
    obtain ⟨a, b, rfl⟩ := List.length_eq_two.1 (Nat.le_antisymm hmax hmin)
    rw [violations_firstItems_iff] at hitems
    obtain ⟨es, rfl⟩ := (hmap b).1 (hitems (b, _) (by simp))
    exact ⟨a, es, violations_name_iff.1 (hitems (a, _) (by simp)), rfl⟩
  · rintro ⟨name, es, hname, rfl⟩
    refine ⟨⟨_, rfl⟩, ?_, violations_minItems_iff.2 (Nat.le_refl 2),
      violations_maxItems_iff.2 (Nat.le_refl 2)⟩
    rw [violations_firstItems_iff]
    rintro p hp
    obtain rfl | rfl : p = _ ∨ p = _ := by simpa using hp
    · exact violations_name_iff.2 hname
    · exact (hmap _).2 ⟨es, rfl⟩

theorem violations_pluginList_iff :
    violations v pluginList = [] ↔ ∃ vs, v = .list vs ∧ ∀ w ∈ vs, w.IsPlugin := by
  rw [pluginList, violations_eq_nil_iff]
  simp only [List.Forall, violations_kind_iff, holds_array_iff]
  have hplugin (w : Value) : violations w
      [.oneOf [[.kinds [.string], .minLength 1],
        [.kinds [.array], .firstItems [[.kinds [.string], .minLength 1], [.kinds [.object]]],
          .minItems 2, .maxItems 2]]] = [] ↔ w.IsPlugin := by
    rw [violations_eq_nil_iff, List.Forall, violations_oneOf_iff]
    simp only [List.mem_cons, List.not_mem_nil, or_false, exists_eq_or_imp, exists_eq_left,
      violations_name_iff, violations_pair_iff, Value.IsPlugin]
  constructor
  · rintro ⟨⟨vs, rfl⟩, h⟩
    simp only [violations_items_iff, hplugin] at h
    exact ⟨vs, rfl, h⟩
  · rintro ⟨vs, rfl, h⟩
    simp only [violations_items_iff, hplugin]
    exact ⟨⟨vs, rfl⟩, h⟩

theorem same_text_iff {x : String} : same (.text x) v = true ↔ v = .text x := by
  cases v <;> simp [same, sameScalar, Value.sameKey, Value.numeric?, eq_comm]

theorem violations_words_iff {xs : List String} :
    violations v [.enum (xs.map .text)] = [] ↔ ∃ x ∈ xs, v = .text x := by
  rw [violations_eq_nil_iff, List.Forall, violations_enum_iff]
  simp only [List.mem_map, exists_exists_and_eq_and, same_text_iff]

theorem violations_boolean_iff :
    violations v [.kinds [.boolean]] = [] ↔ ∃ b, v = .bool b := by
  rw [violations_eq_nil_iff, List.Forall, violations_kind_iff, holds_boolean_iff]

/-- Which names are allowed: a truth value, one of two words, or a list of names. -/
theorem names_of_violations_nil
    (h : violations v
      [.oneOf
        [[.kinds [.boolean]],
         [.enum [.text "default", .text "disabled"]],
         [.kinds [.array], .items [.kinds [.string], .oneWord], .uniqueItems]]] = []) :
    (∃ b, v = .bool b) ∨ v = .text "default" ∨ v = .text "disabled" ∨
      ∃ vs, v = .list vs ∧ ∀ w ∈ vs, w.IsName := by
  rw [violations_eq_nil_iff, List.Forall, violations_oneOf_iff] at h
  simp only [List.mem_cons, List.not_mem_nil, or_false, exists_eq_or_imp, exists_eq_left] at h
  obtain h | h | h := h
  · exact .inl (violations_boolean_iff.1 h)
  · obtain ⟨x, hx, rfl⟩ := (@violations_words_iff _ ["default", "disabled"]).1 h
    obtain rfl | rfl : x = _ ∨ x = _ := by simpa using hx
    · exact .inr (.inl rfl)
    · exact .inr (.inr (.inl rfl))
  · rw [violations_eq_nil_iff] at h
    simp only [List.Forall, violations_kind_iff, holds_array_iff] at h
    obtain ⟨⟨vs, rfl⟩, h, -⟩ := h
    rw [violations_items_iff] at h
    exact .inr (.inr (.inr ⟨vs, rfl, fun w hw => isName_of_violations_word (h w hw)⟩))

/-- A whole number, written with or without a fraction of zero, that is not below a bound. -/
theorem violations_minimum_iff {n : Int} :
    violations v [.kinds [.integer], .minimum n] = [] ↔
      (∃ m, v = .int m ∧ n ≤ m) ∨ ∃ x, v = .float x ∧ isWhole x = true ∧ ¬ x < Float.ofInt n := by
  rw [violations_eq_nil_iff]
  simp only [List.Forall, violations_kind_iff, holds_integer_iff]
  constructor
  · rintro ⟨⟨m, rfl⟩ | ⟨x, rfl, hx⟩, h⟩
    · exact .inl ⟨m, rfl, by simpa [Rule.violations, Rule.objections] using h⟩
    · exact .inr ⟨x, rfl, hx, by simpa [Rule.violations, Rule.objections] using h⟩
  · rintro (⟨m, rfl, h⟩ | ⟨x, rfl, hx, h⟩)
    · exact ⟨.inl ⟨m, rfl⟩, by simpa [Rule.violations, Rule.objections] using h⟩
    · exact ⟨.inr ⟨x, rfl, hx⟩, by simpa [Rule.violations, Rule.objections] using h⟩

/-- The settings of a file that has the form of a settings file have their own forms. -/
theorem violations_get?_of_settingsForm {file : Value} (h : violations file settingsForm = []) :
    settingForms.Forall fun p => ∀ v, file.get? p.1 = some v → violations v p.2 = [] := by
  rw [settingsForm, violations_eq_nil_iff] at h
  simp only [List.Forall, violations_properties_iff] at h
  exact List.forall_iff_forall_mem.2 h.2.2

end Forms

end Schema

end MdxLint
