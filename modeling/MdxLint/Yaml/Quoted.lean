import MdxLint.Yaml.Character

/-! # Quoted scalars

A scalar between single quotes writes a quote twice; one between double quotes has escapes. In both
a run of blanks with line breaks is folded. Each reader begins behind the opening quote and answers
the text and the number of characters up to and with the closing quote.
-/

namespace MdxLint.Yaml

def isSpacing (c : Char) : Bool := c = ' ' || c = '\t' || isBreak c

def spacing (cs : List Char) : List Char := cs.takeWhile isSpacing

def runsIntoMark (run rest : List Char) : Bool := run.getLast?.any isBreak && markFollows rest

def simpleEscape? : Char → Option Char
  | '0' => some '\x00'
  | 'a' => some '\x07'
  | 'b' => some '\x08'
  | 't' => some '\t'
  | '\t' => some '\t'
  | 'n' => some '\n'
  | 'v' => some '\x0b'
  | 'f' => some '\x0c'
  | 'r' => some '\r'
  | 'e' => some '\x1b'
  | ' ' => some ' '
  | '"' => some '"'
  | '\\' => some '\\'
  | '/' => some '/'
  | 'N' => some '\x85'
  | '_' => some '\xa0'
  | 'L' => some '\u2028'
  | 'P' => some '\u2029'
  | _ => none

def escapeWidth? : Char → Option Nat
  | 'x' => some 2
  | 'u' => some 4
  | 'U' => some 8
  | _ => none

/-- The character with a number; a half of a pair is replaced. -/
def numberedChar (n : Nat) : Except Fault Char :=
  if 0x80000000 ≤ n then .error (.tooLarge "signed integer is greater than maximum")
  else if 0x110000 ≤ n then .error (.wrongValue "chr() arg not in range(0x110000)")
  else if 0xD800 ≤ n && n < 0xE000 then .ok '\ufffd'
  else .ok (Char.ofNat n)

/-- An escape behind its backslash: what it stands for and the number of its characters. -/
def escape (c : Char) (tail : List Char) : Except Fault (List Char × Nat) :=
  match simpleEscape? c, escapeWidth? c with
  | some d, _ => .ok ([d], 1)
  | none, some w =>
    let ds := tail.take w
    if ds.length = w && ds.all isHex then (numberedChar (hexNumber ds)).map fun d => ([d], w + 1)
    else .error .syntactic
  | none, none =>
    if isBreak c then
      let run := spacing tail
      if runsIntoMark (c :: run) (tail.drop run.length) then .error .syntactic
      else .ok (breaksOf run, run.length + 1)
    else .error .syntactic

def singleQuoted (cs : List Char) : Except Fault (List Char × Nat) :=
  match cs with
  | [] => .error .syntactic
  | c :: tail =>
    if c = '\'' then
      if tail.head? = some '\'' then
        (singleQuoted (tail.drop 1)).map fun r => ('\'' :: r.1, r.2 + 2)
      else .ok ([], 1)
    else if isSpacing c then
      let run := spacing tail
      let rest := tail.drop run.length
      if runsIntoMark (c :: run) rest then .error .syntactic
      else (singleQuoted rest).map fun r => (folded (c :: run) ++ r.1, run.length + 1 + r.2)
    else (singleQuoted tail).map fun r => (c :: r.1, r.2 + 1)
  termination_by cs.length
  decreasing_by all_goals simp_all only [List.length_drop, List.length_cons]; omega

def doubleQuoted (cs : List Char) : Except Fault (List Char × Nat) :=
  match cs with
  | [] => .error .syntactic
  | c :: tail =>
    if c = '"' then .ok ([], 1)
    else if c = '\\' then
      match tail with
      | [] => .error .syntactic
      | d :: tail =>
        match escape d tail with
        | .error f => .error f
        | .ok (s, n) =>
          (doubleQuoted (tail.drop (n - 1))).map fun r => (s ++ r.1, n + 1 + r.2)
    else if isSpacing c then
      let run := spacing tail
      let rest := tail.drop run.length
      if runsIntoMark (c :: run) rest then .error .syntactic
      else (doubleQuoted rest).map fun r => (folded (c :: run) ++ r.1, run.length + 1 + r.2)
    else (doubleQuoted tail).map fun r => (c :: r.1, r.2 + 1)
  termination_by cs.length
  decreasing_by all_goals simp_all only [List.length_drop, List.length_cons]; omega

end MdxLint.Yaml
