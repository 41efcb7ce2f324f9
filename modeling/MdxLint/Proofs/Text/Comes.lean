/-! # What a step of a reader comes to

Readers answer a result or a fault. A property of the results and a property of the faults pass
together through a reader.
-/

namespace MdxLint

/-- The step comes to something of which `Q` holds, or to a fault of which `P` does. -/
def Comes {ε α : Type} (P : ε → Prop) (Q : α → Prop) (e : Except ε α) : Prop :=
  match e with
  | .ok a => Q a
  | .error f => P f

namespace Comes

variable {ε α : Type} {P : ε → Prop} {Q : α → Prop} {e : Except ε α}

theorem of_ok {a : α} (h : Comes P Q e) (he : e = .ok a) : Q a := by
  rw [he] at h
  exact h

theorem of_error {f : ε} (h : Comes P Q e) (he : e = .error f) : P f := by
  rw [he] at h
  exact h

theorem ite {c : Prop} [Decidable c] {e' : Except ε α} (h : Comes P Q e)
    (h' : Comes P Q e') : Comes P Q (if c then e else e') := by
  split
  · exact h
  · exact h'

end Comes

end MdxLint
