import MdxLint.CommandLine.Program
import MdxLint.Session.Scene

/-! # The command

The arguments are those of the command line, and the world they are about is read as a scene from
the standard input: one value in JSON, with the files, the answers of the programs outside, the time
and the environment.
-/

namespace MdxLint

def runInScene (arguments : List String) (input : String) : Ended :=
  let scene := match Json.read input.toList with
    | .ok v => v
    | .error _ => .null
  let home := (Scene.text? (Scene.field scene "home")).getD "/project"
  let script := (Scene.text? (Scene.field scene "script")).getD ""
  (Scene.worldOf home script scene).run arguments

end MdxLint

def main (arguments : List String) : IO UInt32 := do
  let input ← (← IO.getStdin).readToEnd
  let ended := MdxLint.runInScene arguments input
  IO.print ended.stdout
  IO.eprint ended.stderr
  return UInt32.ofNat ended.exit.toNat
