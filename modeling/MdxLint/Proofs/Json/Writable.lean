import MdxLint.Json.Writer

/-! # Values that can be written as JSON

A value has a text iff no part of it is a time stamp, a byte string, a set, the value itself or a
number with too many digits, and every key is a scalar that has a text. A writer finds nothing in its
way iff the value has a text and is not nested deeper than the writer goes.
-/

namespace MdxLint

/-- Every part of the value can be written as JSON. -/
inductive Value.Writable : Value → Prop where
  | null : Writable .null
  | bool (b : Bool) : Writable (.bool b)
  | int {n : Int} (h : canBeWritten n = true) : Writable (.int n)
  | float (x : Float) : Writable (.float x)
  | text (s : String) : Writable (.text s)
  | torn (ps : List Point) : Writable (.torn ps)
  | list {vs : List Value} (h : ∀ v ∈ vs, Writable v) : Writable (.list vs)
  | pair {a b : Value} (ha : Writable a) (hb : Writable b) : Writable (.pair a b)
  | map {es : List (Value × Value)}
      (hk : ∀ e ∈ es, (Json.keyText? e.1).isSome = true) (h : ∀ e ∈ es, Writable e.2) :
      Writable (.map es)

namespace Value

theorem writable_int_iff {n : Int} : Writable (.int n) ↔ canBeWritten n = true := by
  constructor
  · rintro ⟨⟩
    assumption
  · exact .int

theorem writable_list_iff {vs : List Value} : Writable (.list vs) ↔ ∀ v ∈ vs, v.Writable := by
  constructor
  · rintro ⟨⟩
    assumption
  · exact .list

theorem writable_pair_iff {a b : Value} : Writable (.pair a b) ↔ a.Writable ∧ b.Writable := by
  constructor
  · rintro ⟨⟩
    exact ⟨‹_›, ‹_›⟩
  · exact fun h => .pair h.1 h.2

theorem writable_map_iff {es : List (Value × Value)} :
    Writable (.map es) ↔ ∀ e ∈ es, (Json.keyText? e.1).isSome = true ∧ e.2.Writable := by
  constructor
  · rintro ⟨⟩
    rename_i hk h
    exact fun e he => ⟨hk e he, h e he⟩
  · exact fun h => .map (fun e he => (h e he).1) fun e he => (h e he).2

end Value

namespace Json

section Layouts

variable (l : Layout)

mutual

theorem Layout.isSome_write?_iff (depth : Nat) (v : Value) :
    (l.write? depth v).isSome = true ↔ v.Writable := by
  match v with
  | .null => exact iff_of_true rfl .null
  | .bool true => exact iff_of_true rfl (.bool true)
  | .bool false => exact iff_of_true rfl (.bool false)
  | .int n =>
    rw [Value.writable_int_iff, write?]
    split
    · exact iff_of_true rfl ‹_›
    · exact iff_of_false Bool.false_ne_true ‹_›
  | .float x => exact iff_of_true rfl (.float x)
  | .text s => exact iff_of_true rfl (.text s)
  | .torn ps => exact iff_of_true rfl (.torn ps)
  | .stamp _ | .bytes _ | .set _ | .again => exact iff_of_false Bool.false_ne_true (by rintro ⟨⟩)
  | .list vs =>
    rw [Value.writable_list_iff, write?, Option.isSome_map]
    exact isSome_writeItems?_iff (depth + 1) vs
  | .pair a b =>
    rw [Value.writable_pair_iff, ← isSome_write?_iff (depth + 1) a,
      ← isSome_write?_iff (depth + 1) b, write?]
    cases l.write? (depth + 1) a <;> cases l.write? (depth + 1) b <;> simp
  | .map es =>
    rw [Value.writable_map_iff, write?, Option.isSome_map]
    exact isSome_writeEntries?_iff (depth + 1) es

theorem Layout.isSome_writeItems?_iff (depth : Nat) (vs : List Value) :
    (l.writeItems? depth vs).isSome = true ↔ ∀ v ∈ vs, v.Writable := by
  match vs with
  | [] => simp [writeItems?]
  | v :: vs =>
    rw [List.forall_mem_cons, ← isSome_write?_iff depth v, ← isSome_writeItems?_iff depth vs,
      writeItems?]
    cases l.write? depth v <;> cases l.writeItems? depth vs <;> simp

theorem Layout.isSome_writeEntries?_iff (depth : Nat) (es : List (Value × Value)) :
    (l.writeEntries? depth es).isSome = true ↔
      ∀ e ∈ es, (keyText? e.1).isSome = true ∧ e.2.Writable := by
  match es with
  | [] => simp [writeEntries?]
  | (k, v) :: es =>
    rw [List.forall_mem_cons, ← isSome_write?_iff depth v, ← isSome_writeEntries?_iff depth es,
      writeEntries?]
    cases keyText? k <;> cases l.write? depth v <;> cases l.writeEntries? depth es <;> simp

end

theorem Layout.write?_eq_some_write {v : Value} (h : v.Writable) :
    l.write? 0 v = some (l.write v) := by
  obtain ⟨s, hs⟩ := Option.isSome_iff_exists.1 ((l.isSome_write?_iff 0 v).2 h)
  rw [write, hs]
  rfl

end Layouts

/-! ## Obstacles -/

theorem one_le_and_iff {p : Prop} {room depth : Nat} :
    1 ≤ room ∧ p ∧ depth ≤ room - 1 ↔ p ∧ depth + 1 ≤ room :=
  and_left_comm.trans <| and_congr_right fun _ => by omega

theorem ite_tooDeep_eq_none_iff {room : Nat} {o : Option Obstacle} :
    (if room = 0 then some Obstacle.tooDeep else o) = none ↔ 1 ≤ room ∧ o = none := by
  cases room with
  | zero => simp
  | succ room => simp

mutual

theorem obstacle?_eq_none_iff (room : Nat) (v : Value) :
    obstacle? room v = none ↔ v.Writable ∧ v.depth ≤ room := by
  match v with
  | .null => exact iff_of_true rfl ⟨.null, Nat.zero_le _⟩
  | .bool b => exact iff_of_true rfl ⟨.bool b, Nat.zero_le _⟩
  | .int n =>
    rw [Value.writable_int_iff, obstacle?]
    split
    · exact iff_of_true rfl ⟨‹_›, Nat.zero_le _⟩
    · exact iff_of_false nofun fun h => ‹¬ _› h.1
  | .float x => exact iff_of_true rfl ⟨.float x, Nat.zero_le _⟩
  | .text s => exact iff_of_true rfl ⟨.text s, Nat.zero_le _⟩
  | .torn ps => exact iff_of_true rfl ⟨.torn ps, Nat.zero_le _⟩
  | .stamp _ | .bytes _ | .set _ | .again => exact iff_of_false nofun (by rintro ⟨⟨⟩, -⟩)
  | .list vs =>
    rw [obstacle?, ite_tooDeep_eq_none_iff, obstacleInItems?_eq_none_iff,
      Value.writable_list_iff, Value.depth]
    exact one_le_and_iff
  | .pair a b =>
    rw [obstacle?, ite_tooDeep_eq_none_iff, Option.or_eq_none_iff, obstacle?_eq_none_iff _ a,
      obstacle?_eq_none_iff _ b, Value.writable_pair_iff, Value.depth, and_and_and_comm,
      ← Nat.max_le]
    exact one_le_and_iff
  | .map es =>
    rw [obstacle?, ite_tooDeep_eq_none_iff, obstacleInEntries?_eq_none_iff,
      Value.writable_map_iff, Value.depth]
    exact one_le_and_iff

theorem obstacleInItems?_eq_none_iff (room : Nat) (vs : List Value) :
    obstacleInItems? room vs = none ↔ (∀ v ∈ vs, v.Writable) ∧ Value.depthOfAll vs ≤ room := by
  match vs with
  | [] => simp [obstacleInItems?, Value.depthOfAll]
  | v :: vs =>
    rw [obstacleInItems?, Option.or_eq_none_iff, obstacle?_eq_none_iff room v,
      obstacleInItems?_eq_none_iff room vs, List.forall_mem_cons, Value.depthOfAll, Nat.max_le]
    exact and_and_and_comm

theorem obstacleInEntries?_eq_none_iff (room : Nat) (es : List (Value × Value)) :
    obstacleInEntries? room es = none ↔
      (∀ e ∈ es, (keyText? e.1).isSome = true ∧ e.2.Writable) ∧
        Value.depthOfEntries es ≤ room := by
  match es with
  | [] => simp [obstacleInEntries?, Value.depthOfEntries]
  | (k, v) :: es =>
    rw [obstacleInEntries?, List.forall_mem_cons, Value.depthOfEntries, Nat.max_le]
    cases keyText? k with
    | none => simp
    | some ps =>
      simp only [Option.or_eq_none_iff, obstacle?_eq_none_iff room v,
        obstacleInEntries?_eq_none_iff room es, Option.isSome_some, true_and]
      exact and_and_and_comm

end

end Json

end MdxLint
