import MdxLint.Yaml.Character

/-! # Plain scalars

A plain scalar ends before a comment, before a colon that a gap follows, and, between the brackets
of a collection, before an indicator. It may go on in the next lines: between brackets in any
column, elsewhere only to the right of the block that holds it.
-/

namespace MdxLint.Yaml

def isBracketing (c : Char) : Bool := c ∈ [',', '[', ']', '\x7b', '\x7d']

def startsPlain (inFlow : Bool) (c : Char) (tail : List Char) : Bool :=
  let indicator := c ∈ ['-', '?', ':', '#', '&', '*', '!', '|', '>', '\'', '"', '%', '@', '\x60']
  !(indicator || isBracketing c || c = '\t' || spaceFollows [c])
    || (!gapFollows tail && (c = '-' || (!inFlow && (c = '?' || c = ':'))))

/-- The number of characters of the word of a plain scalar at the front of a text. -/
def plainWord (inFlow : Bool) : List Char → Nat
  | [] => 0
  | c :: tail =>
    let colonEnds := gapFollows tail || (inFlow && tail.head?.any isBracketing)
    if c = '\t' || spaceFollows [c] then 0
    else if c = ':' && colonEnds then 0
    else if inFlow && (c = '?' || isBracketing c) then 0
    else plainWord inFlow tail + 1

def plainGap (cs : List Char) : List Char := cs.takeWhile fun c => c = ' ' || isBreak c

def columnBehind (gap : List Char) : Nat := (gap.reverse.takeWhile (· = ' ')).length

/-- A plain scalar goes on behind the gap, where `rest` follows; `margin` is the least column in
which it may. -/
def plainGoesOn (inFlow : Bool) (margin : Nat) (gap rest : List Char) : Bool :=
  let broken := gap.any isBreak
  let marked := gap.getLast?.any isBreak && markFollows rest
  !gap.isEmpty && !marked && rest.head? ≠ some '#'
    && (inFlow || !broken || margin ≤ columnBehind gap)

/-- The text of the plain scalar at the front of a text, and the number of its characters. -/
def plain (inFlow : Bool) (margin : Nat) (cs : List Char) : List Char × Nat :=
  let n := plainWord inFlow cs
  let word := cs.take n
  let gap := plainGap (cs.drop n)
  let rest := (cs.drop n).drop gap.length
  if n = 0 || !plainGoesOn inFlow margin gap rest then (word, n)
  else
    let (text, m) := plain inFlow margin rest
    if m = 0 then (word, n) else (word ++ folded gap ++ text, n + gap.length + m)
  termination_by cs.length
  decreasing_by
    have hn : plainWord inFlow cs ≠ 0 := by simp_all [n]
    cases cs with
    | nil => simp [plainWord] at hn
    | cons c cs => simp; omega

end MdxLint.Yaml
