import MdxLint.Proofs.Json.Denoting
import MdxLint.Proofs.Run.Session

/-! # What is printed of a batch

The rows of a batch and its report hold texts, whole numbers and lists and maps of these, so
everybody who reads a printed report finds the report in it.
-/

namespace MdxLint

namespace Value

variable {P : Value → Prop}

theorem portable_object_iff {fields : List (String × Value)} :
    (object fields).Portable P ↔
      (fields.map fun f => (text f.1).units?).Nodup ∧ ∀ f ∈ fields, f.2.Portable P := by
  rw [object, portable_map_iff, List.map_map, List.forall_mem_map, List.forall_mem_map]
  exact and_iff_right fun _ _ => rfl

end Value

end MdxLint
