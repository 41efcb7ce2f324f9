import MdxLint.Text.Digit

/-! # Moments

A moment of universal time, in the two forms that logs and run names use.
-/

namespace MdxLint

structure Moment where
  year : Nat
  month : Nat
  day : Nat
  hour : Nat
  minute : Nat
  second : Nat
  microsecond : Nat
  deriving DecidableEq, Repr, Inhabited

namespace Moment

/-- Date, time and zone; the fraction of a second is left out when it is zero. -/
def iso (m : Moment) : String :=
  let d := paddedDigits 2
  let fraction := if m.microsecond = 0 then "" else "." ++ paddedDigits 6 m.microsecond
  paddedDigits 4 m.year ++ "-" ++ d m.month ++ "-" ++ d m.day ++ "T"
    ++ d m.hour ++ ":" ++ d m.minute ++ ":" ++ d m.second ++ fraction ++ "+00:00"

def stamp (m : Moment) : String :=
  let d := paddedDigits 2
  paddedDigits 4 m.year ++ d m.month ++ d m.day ++ "-" ++ d m.hour ++ d m.minute ++ d m.second

end Moment

end MdxLint
