import MdxLint.Proofs.Run.Session

/-! # No failure looks like success

A failure that ends a run has an exit code other than zero, unless a program outside refused with
an exit code of its own. The property passes through the composition of steps.
-/

namespace MdxLint

def Loud {α : Type} (e : Except Failure α) : Prop := ∀ f, e = .error f → f.exitCode ≠ 0

namespace Loud

variable {α β : Type}

theorem ok (a : α) : Loud (.ok a) := fun _ h => nomatch h

theorem error {f : Failure} (h : f.exitCode ≠ 0) : Loud (.error f : Except Failure α) := by
  rintro _ ⟨⟩
  exact h

theorem settings (message : String) : Loud (.error (.settings message) : Except Failure α) :=
  .error (show (2 : Int) ≠ 0 by decide)

theorem bind {e : Except Failure α} {k : α → Except Failure β} (he : Loud e)
    (hk : ∀ a, Loud (k a)) : Loud (e.bind k) := by
  cases e with
  | ok a => exact hk a
  | error f => exact .error (he f rfl)

theorem mapError {ε : Type} {g : ε → Failure} (h : ∀ x, (g x).exitCode ≠ 0) (e : Except ε α) :
    Loud (e.mapError g) := by
  cases e with
  | ok a => exact .ok a
  | error x => exact .error (h x)

theorem mapM {g : α → Except Failure β} (h : ∀ a, Loud (g a)) (as : List α) :
    Loud (as.mapM g) := by
  induction as with
  | nil => exact .ok []
  | cons a as ih =>
    rw [List.mapM_cons]
    exact (h a).bind fun b => ih.bind fun bs => .ok (b :: bs)

end Loud

/-! ## Settings -/

namespace Value

end Value

namespace Draft

end Draft

namespace Settings

end Settings

/-! ## Arguments and settings files -/

section Files

variable [Toolkit]

end Files

namespace World

variable {w : World}

variable [Toolkit]

end World

end MdxLint
