import MdxLint.Mdx.Fence

/-! # Inline code

Code between backticks on its way through prose. Two readings of it are in use. For comments, code
ends with as many backticks as it begins with, or a shorter even part of a run is taken by itself.
For elements, code ends with the next run of backticks, of any length.
-/

namespace MdxLint.Mdx

def proseLength (cs : List Char) : Nat := (cs.takeWhile (· ≠ '\x60')).length

/-- The length of the code at the front that comments cannot begin in; zero if there is none. A
run of `n` backticks looks for `n` in the run behind it, and else is split in halves. -/
def quotedCodeLength (cs : List Char) : Nat :=
  let n := runLength '\x60' cs
  let behind := cs.drop n
  let gap := proseLength behind
  let closing := runLength '\x60' (behind.drop gap)
  if n ≤ closing then n + gap + n else 2 * (n / 2)

/-- The length of the code at the front in which elements are left alone; zero if there is none.
It ends with the next run of backticks. A run with none behind it is code if it can be split. -/
def spanLength (cs : List Char) : Nat :=
  let n := runLength '\x60' cs
  let behind := cs.drop n
  let gap := proseLength behind
  let closing := runLength '\x60' (behind.drop gap)
  if 0 < closing then n + gap + closing else if 1 < n then n else 0

def consProse (c : Char) : List Chunk → List Chunk
  | ⟨false, t⟩ :: rest => ⟨false, c :: t⟩ :: rest
  | rest => ⟨false, [c]⟩ :: rest

def spans : List Char → List Chunk
  | [] => []
  | c :: cs =>
    if c = '\x60' && 0 < spanLength (c :: cs) then
      let n := spanLength (c :: cs) - 1
      ⟨true, c :: cs.take n⟩ :: spans (cs.drop n)
    else consProse c (spans cs)
  termination_by cs => cs.length
  decreasing_by all_goals simp only [List.length_drop, List.length_cons]; omega

end MdxLint.Mdx
