import MdxLint.Script.Nesting

/-! # Declarations

What a script says about its names, token by token: `Script.marksAt` lists for each token the
names that the construct beginning there declares, and the tokens that look like uses of a name
and are none, such as property keys. The names of nested scopes form one table.
-/

namespace MdxLint

/-- What is known about the token at an index. -/
inductive Mark where
  /-- The token declares the name it is. -/
  | declares (i : Nat)
  /-- The token is no use of a name. -/
  | silences (i : Nat)
  deriving DecidableEq, Repr

/-- One entry of a pattern: what it says itself, and the inner pattern it holds. -/
structure PatternPart where
  marks : List Mark
  inner : Option Nat
  deriving DecidableEq, Repr

def declarationKeywords : List String := ["const", "let", "var", "import", "export"]

def statementKeywords : List String :=
  ["break", "class", "continue", "do", "for", "function", "if", "return", "switch", "throw",
   "try", "while"]

/-- Keywords that are complete values. -/
def valueKeywords : List String := ["false", "null", "super", "this", "true"]

def valueEnds : List String := [")", "]", "\x7d", "++", "--"]

def blockHeads : List String := ["if", "for", "while", "switch", "catch", "with", "function"]

def memberLeads : List String := ["\x7b", ";", "\x7d", ",", "*", "get", "set", "async", "static"]

def memberTrails : List String := ["=", ";", "(", "\x7d"]

namespace Script

def listPart (s : Script) (e : Span) : PatternPart :=
  let i := if s.isPunct e.start "..." then e.start + 1 else e.start
  ⟨[], if i < e.stop then some i else none⟩

def objectPart (s : Script) (e : Span) : PatternPart :=
  if s.isPunct e.start "..." then ⟨[], some (e.start + 1)⟩
  else if s.isPunct e.start "[" then
    let i := s.lastOf e.start
    ⟨[], if s.isPunct (i + 1) ":" then some (i + 2) else none⟩
  else if s.isPunct (e.start + 1) ":" then ⟨[.silences e.start], some (e.start + 2)⟩
  else if s.isName e.start then ⟨[.declares e.start], none⟩
  else ⟨[], none⟩

theorem le_inner_listPart {s : Script} {e : Span} {i : Nat} (h : (s.listPart e).inner = some i) :
    e.start ≤ i := by
  simp only [listPart] at h
  split at h <;> split at h <;> simp_all
  omega

theorem le_inner_objectPart {s : Script} {e : Span} {i : Nat}
    (h : (s.objectPart e).inner = some i) : e.start ≤ i := by
  have := s.le_lastOf e.start
  simp only [objectPart] at h
  split at h
  · simp_all; omega
  · split at h
    · split at h <;> simp_all
      omega
    · split at h
      · simp_all; omega
      · split at h <;> simp_all

def patternParts (s : Script) (i : Nat) : List PatternPart :=
  if s.paired i then
    if s.isPunct i "\x7b" then (s.entriesOf i).map s.objectPart
    else if s.isPunct i "[" then (s.entriesOf i).map s.listPart
    else []
  else []

theorem lt_inner_patternParts {s : Script} {i j : Nat} {p : PatternPart}
    (h : p ∈ s.patternParts i) (hj : p.inner = some j) : i < j := by
  unfold patternParts at h
  split at h
  · split at h
    · obtain ⟨e, he, rfl⟩ := List.mem_map.1 h
      exact Nat.lt_of_lt_of_le (lt_start_of_mem_entriesOf he) (le_inner_objectPart hj)
    · split at h
      · obtain ⟨e, he, rfl⟩ := List.mem_map.1 h
        exact Nat.lt_of_lt_of_le (lt_start_of_mem_entriesOf he) (le_inner_listPart hj)
      · simp at h
  · simp at h

/-- What the pattern at `i` says: a name declares itself, a pattern in brackets what its entries
say. -/
def patternMarks (s : Script) (i : Nat) : List Mark :=
  if i < s.size then
    if s.isName i then [.declares i]
    else (s.patternParts i).attach.flatMap fun ⟨p, _hp⟩ =>
      p.marks ++
        match _h : p.inner with
        | none => []
        | some j => s.patternMarks j
  else []
  termination_by s.size - i
  decreasing_by
    have := lt_inner_patternParts _hp _h
    omega

def patternEnd (s : Script) (i : Nat) : Nat :=
  if s.isPunct i "\x7b" || s.isPunct i "[" then i + s.extent i
  else if i < s.size then i + 1
  else i

theorem lt_patternEnd {s : Script} {i : Nat} (h : i < s.size) : i < s.patternEnd i := by
  have := s.extent_pos i
  unfold patternEnd
  split
  · omega
  · simp

def parameterMarks (s : Script) (i : Nat) : List Mark :=
  (s.entriesOf i).flatMap fun e =>
    match (s.listPart e).inner with
    | none => []
    | some j => s.patternMarks j

def startsStatement (s : Script) (i : Nat) (t : Token) : Bool :=
  match s.before? i with
  | none => true
  | some prev =>
    if t.place.line ≤ prev.place.line then false
    else match prev.kind with
      | .punctuator => prev.text ∈ valueEnds
      | .keyword => prev.text ∈ valueKeywords
      | _ => true

def endsValue (s : Script) (i : Nat) (t : Token) : Bool :=
  match t.kind with
  | .punctuator => t.text == "," || t.text == ";" || t.closes
  | .keyword =>
    (t.text ∈ declarationKeywords
      && !(t.text == "import" && (s.text (i + 1) == "(" || s.text (i + 1) == ".")))
    || (t.text ∈ statementKeywords && s.startsStatement i t)
  | _ => false

def valueEnd (s : Script) (i : Nat) : Nat :=
  match _h : s.tokens[i]? with
  | none => i
  | some t => if s.endsValue i t then i else s.valueEnd (i + s.extent i)
  termination_by s.size - i
  decreasing_by
    have := s.extent_pos i
    have := (Array.getElem?_eq_some_iff.1 _h).1
    simp only [size]; omega

theorem le_valueEnd (s : Script) (i : Nat) : i ≤ s.valueEnd i := by
  fun_induction valueEnd s i with
  | case1 => exact Nat.le_refl _
  | case2 => exact Nat.le_refl _
  | case3 => omega

/-- The index behind the declarator at `i`: a pattern, and a value if `=` follows. -/
def declaratorEnd (s : Script) (i : Nat) : Nat :=
  let j := s.patternEnd i
  if s.isPunct j "=" then s.valueEnd (j + 1) else j

theorem lt_declaratorEnd {s : Script} {i : Nat} (h : i < s.size) : i < s.declaratorEnd i := by
  have hp := lt_patternEnd h
  have hv := s.le_valueEnd (s.patternEnd i + 1)
  simp only [declaratorEnd]
  split <;> omega

def declaratorMarks (s : Script) (i : Nat) : List Mark :=
  if i < s.size then
    let j := s.declaratorEnd i
    s.patternMarks i ++ if s.isPunct j "," then s.declaratorMarks (j + 1) else []
  else []
  termination_by s.size - i
  decreasing_by
    have : i < s.declaratorEnd i := lt_declaratorEnd ‹_›
    omega

/-- What the function says whose keyword is at `i`: its name and its parameters. -/
def functionMarks (s : Script) (i : Nat) : List Mark :=
  let j := if s.isPunct (i + 1) "*" then i + 2 else i + 1
  let k := if s.isName j then j + 1 else j
  (if s.isName j then [.declares j] else [])
    ++ if s.isPunct k "(" then s.parameterMarks k else []

/-- The first brace at or behind `i` that stands in no group, or the end of the script. -/
def bodyStart (s : Script) (i : Nat) : Nat :=
  if i < s.size then
    if s.isPunct i "\x7b" then i else s.bodyStart (i + s.extent i)
  else i
  termination_by s.size - i
  decreasing_by have := s.extent_pos i; omega

def isMemberName (s : Script) (i : Nat) : Bool :=
  s.isName i
    && (s.textBefore i 1 ∈ memberLeads || (s.before? i).any (·.isPunct "#"))
    && s.text (i + 1) ∈ memberTrails

def memberMarks (s : Script) (stop i : Nat) : List Mark :=
  if i < stop then
    (if s.isMemberName i then [.silences i] else []) ++ s.memberMarks stop (i + s.extent i)
  else []
  termination_by stop - i
  decreasing_by have := s.extent_pos i; omega

/-- What the class says whose keyword is at `i`: its name and the names of its members. -/
def classMarks (s : Script) (i : Nat) : List Mark :=
  let body := s.bodyStart (i + 1)
  (if s.isName (i + 1) then [.declares (i + 1)] else [])
    ++ if s.paired body then s.memberMarks (s.lastOf body) (body + 1) else []

/-- What the arrow at `i` says: its parameter or parameters stand before it. -/
def arrowMarks (s : Script) (i : Nat) : List Mark :=
  match i with
  | 0 => []
  | j + 1 =>
    if s.isName j then [.declares j]
    else if s.isPunct j ")" then
      match s.partner? j with
      | some o => s.parameterMarks o
      | none => []
    else []

/-- The parenthesis at `i` may open the parameters of a method: a word that heads no block stands
before it, and before that what may stand before a member. -/
def opensMethod (s : Script) (i : Nat) : Bool :=
  match s.before? i with
  | none => false
  | some name =>
    name.kind ∈ [TokenKind.name, .keyword, .string, .number]
      && name.text ∉ blockHeads
      && s.textBefore i 2 != "function"
      && !(s.textBefore i 2 == "*" && s.textBefore i 3 == "function")
      && (i < 2 || s.textBefore i 2 ∈ memberLeads)

def methodMarks (s : Script) (i : Nat) : List Mark :=
  match s.partner? i with
  | none => []
  | some o => if s.opensMethod o then .silences (o - 1) :: s.parameterMarks o else []

/-- An entry of an import list: the local name is declared, an outer name is silent. -/
def importedMarks (s : Script) (e : Span) : List Mark :=
  if e.start + 3 ≤ e.stop && s.text (e.start + 1) == "as" then
    [.silences e.start, .declares (e.start + 2)]
  else if s.isName e.start then [.declares e.start]
  else []

/-- An entry of an export list: the outer name is silent. -/
def exportedMarks (s : Script) (e : Span) : List Mark :=
  if e.start + 3 ≤ e.stop && s.text (e.start + 1) == "as" then [.silences (e.start + 2)] else []

/-- The names that an import declares, from `i` up to its `from`, module text or semicolon. -/
def importMarksFrom (s : Script) (i : Nat) : List Mark :=
  match _h : s.tokens[i]? with
  | none => []
  | some t =>
    if t.kind = .name then
      if t.text = "from" then [] else .declares i :: s.importMarksFrom (i + 1)
    else if t.kind = .string || t.isPunct ";" then []
    else if t.isPunct "*" && s.text (i + 1) == "as" then
      (if i + 2 < s.size then [.declares (i + 2)] else []) ++ s.importMarksFrom (i + 3)
    else if t.isPunct "\x7b" then
      (if s.paired i then (s.entriesOf i).flatMap s.importedMarks else [])
        ++ s.importMarksFrom (i + s.extent i)
    else s.importMarksFrom (i + 1)
  termination_by s.size - i
  decreasing_by
    all_goals
      have := s.extent_pos i
      have := (Array.getElem?_eq_some_iff.1 _h).1
      simp only [size]; omega

/-- What the import at `i` says; a dynamic import and `import.meta` say nothing. -/
def importMarks (s : Script) (i : Nat) : List Mark :=
  if s.isPunct (i + 1) "(" || s.isPunct (i + 1) "." then [] else s.importMarksFrom (i + 1)

/-- What the export at `i` says. In a list that another module provides, no entry is a use. -/
def exportMarks (s : Script) (i : Nat) : List Mark :=
  let j := i + 1
  if s.isPunct j "*" then
    if s.text (j + 1) == "as" then [.silences (j + 2)] else []
  else if s.isPunct j "\x7b" && s.paired j then
    let provided := s.text (s.lastOf j + 1) == "from"
    (s.entriesOf j).flatMap fun e =>
      s.exportedMarks e ++ if provided then [.silences e.start] else []
  else []

/-- What the construct at `i` says that this token announces. -/
def marksAt (s : Script) (i : Nat) : List Mark :=
  match s.tokens[i]? with
  | none => []
  | some t =>
    match t.kind with
    | .keyword =>
      if t.text ∈ ["var", "let", "const"] then s.declaratorMarks (i + 1)
      else if t.text = "function" then s.functionMarks i
      else if t.text = "class" then s.classMarks i
      else if t.text = "catch" then
        if s.isPunct (i + 1) "(" then s.parameterMarks (i + 1) else []
      else if t.text = "import" then s.importMarks i
      else if t.text = "export" then s.exportMarks i
      else []
    | .punctuator =>
      if t.text = "=>" then s.arrowMarks i
      else if t.text = ")" && s.isPunct (i + 1) "\x7b" then s.methodMarks i
      else []
    | _ => []

def marks (s : Script) : List Mark := (List.range s.size).flatMap s.marksAt

end Script

/-- Where the names of a script are declared, and which of its tokens are no uses. -/
structure Declarations where
  declared : List Nat
  silent : List Nat
  deriving DecidableEq, Repr

namespace Declarations

def ofMarks (ms : List Mark) : Declarations where
  declared := ms.filterMap fun
    | .declares i => some i
    | .silences _ => none
  silent := ms.filterMap fun
    | .declares _ => none
    | .silences i => some i

def excludes (d : Declarations) (i : Nat) : Bool := d.declared.contains i || d.silent.contains i

end Declarations

namespace Script

/-- The declarations of a script. -/
def declarations (s : Script) : Declarations := .ofMarks s.marks

/-- The declared names. -/
def declaredNames (s : Script) : List String := s.declarations.declared.map s.text

end Script

end MdxLint
