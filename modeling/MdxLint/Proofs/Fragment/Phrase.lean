import MdxLint.Proofs.Fragment.Piece

/-! # Programs of the fragment

One indexed family holds the trees of every category: expressions, patterns, statements and the
lists of them. A list that stands behind an opening bracket has the index `true`; behind its first
entry it has the index `false`, and then each entry begins with a comma. `Phrase.pieces` writes a
tree down. What the program declares and uses is read off the words it is written with; what may
stand next to a word is said by `Piece.Fits`.
-/

namespace MdxLint

inductive Cat where
  | expr
  | args (first : Bool)
  | entries (first : Bool)
  | pattern
  | fields (first : Bool)
  | params (first : Bool)
  | default
  | declarators
  | stmt
  | stmts
  /-- The names of an import or an export. -/
  | specs (imported first : Bool)
  deriving DecidableEq, Repr

def declarators : List String := ["var", "let", "const"]

/-- Programs of the fragment and their parts. -/
inductive Phrase : Cat → Type where
  -- expressions
  | name (x : Name) : Phrase .expr
  | number (d : Digits) : Phrase .expr
  | string (q : Quote) : Phrase .expr
  | member (e : Phrase .expr) (x : Name) : Phrase .expr
  | callName (f : Name) (es : Phrase (.args true)) : Phrase .expr
  | callMember (e : Phrase .expr) (x : Name) (es : Phrase (.args true)) : Phrase .expr
  | callGroup (e : Phrase .expr) (es : Phrase (.args true)) : Phrase .expr
  | group (e : Phrase .expr) : Phrase .expr
  | array (es : Phrase (.args true)) : Phrase .expr
  | object (es : Phrase (.entries true)) : Phrase .expr
  | add (a b : Phrase .expr) : Phrase .expr
  | cond (a b c : Phrase .expr) : Phrase .expr
  | function (f : Option Name) (ps : Phrase (.params true)) (body : Phrase .stmts) : Phrase .expr
  | arrow (ps : Phrase (.params true)) (e : Phrase .expr) : Phrase .expr
  /-- A template, and whether a line feed stands behind its opening. -/
  | template (turn : Bool) (e : Phrase .expr) : Phrase .expr
  -- arguments and elements
  | noArgs {b : Bool} : Phrase (.args b)
  | arg {b : Bool} (e : Phrase .expr) (es : Phrase (.args false)) : Phrase (.args b)
  -- the entries of an object
  | noEntries {b : Bool} : Phrase (.entries b)
  | pair {b : Bool} (k : Name) (e : Phrase .expr) (es : Phrase (.entries false)) :
      Phrase (.entries b)
  | short {b : Bool} (x : Name) (es : Phrase (.entries false)) : Phrase (.entries b)
  | spread {b : Bool} (e : Phrase .expr) (es : Phrase (.entries false)) : Phrase (.entries b)
  -- patterns
  | bind (x : Name) : Phrase .pattern
  | objectPattern (fs : Phrase (.fields true)) : Phrase .pattern
  | arrayPattern (ps : Phrase (.params true)) : Phrase .pattern
  | noFields {b : Bool} : Phrase (.fields b)
  | restField {b : Bool} (x : Name) : Phrase (.fields b)
  | field {b : Bool} (x : Name) (d : Phrase .default) (fs : Phrase (.fields false)) :
      Phrase (.fields b)
  | keyed {b : Bool} (k : Name) (p : Phrase .pattern) (d : Phrase .default)
      (fs : Phrase (.fields false)) : Phrase (.fields b)
  | noParams {b : Bool} : Phrase (.params b)
  | restParam {b : Bool} (x : Name) : Phrase (.params b)
  | param {b : Bool} (p : Phrase .pattern) (d : Phrase .default) (ps : Phrase (.params false)) :
      Phrase (.params b)
  | noDefault : Phrase .default
  | value (e : Phrase .expr) : Phrase .default
  -- declarators
  | lastDeclarator (p : Phrase .pattern) (e : Phrase .expr) : Phrase .declarators
  | declarator (p : Phrase .pattern) (e : Phrase .expr) (ds : Phrase .declarators) :
      Phrase .declarators
  -- statements
  | declare (k : String) (hk : k ∈ declarators) (ds : Phrase .declarators) : Phrase .stmt
  | functionStmt (f : Name) (ps : Phrase (.params true)) (body : Phrase .stmts) : Phrase .stmt
  | run (e : Phrase .expr) : Phrase .stmt
  | ret (e : Phrase .expr) : Phrase .stmt
  | ifStmt (e : Phrase .expr) (body : Phrase .stmts) : Phrase .stmt
  | tryStmt (body : Phrase .stmts) (p : Phrase .pattern) (handler : Phrase .stmts) : Phrase .stmt
  | forOf (p : Phrase .pattern) (e : Phrase .expr) (body : Phrase .stmts) : Phrase .stmt
  | importNames (x : Name) (ss : Phrase (.specs true true)) (source : Quote) : Phrase .stmt
  | importAll (x : Name) (source : Quote) : Phrase .stmt
  | exportNames (ss : Phrase (.specs false true)) : Phrase .stmt
  | noStmts : Phrase .stmts
  | stmt (st : Phrase .stmt) (sts : Phrase .stmts) : Phrase .stmts
  -- the names of an import or an export
  | noSpecs {i b : Bool} : Phrase (.specs i b)
  | renamed {i b : Bool} (x y : Name) (ss : Phrase (.specs i false)) : Phrase (.specs i b)
  | spec {i b : Bool} (x : Name) (ss : Phrase (.specs i false)) : Phrase (.specs i b)

def Cat.goesOn : Cat → Bool
  | args first => !first
  | entries first => !first
  | fields first => !first
  | params first => !first
  | specs _ first => !first
  | _ => false

def comma (first : Bool) : List Piece := if first then [] else [.sign ","]

def Piece.functionWord : Piece := .keyword "function"

theorem mem_keywords_of_mem_declarators {k : String} (h : k ∈ declarators) : k ∈ keywords :=
  (by decide : declarators ⊆ keywords) h

namespace Phrase

def beginsFunction : {c : Cat} → Phrase c → Bool
  | _, member e _ => e.beginsFunction
  | _, callMember e _ _ => e.beginsFunction
  | _, add a _ => a.beginsFunction
  | _, cond a _ _ => a.beginsFunction
  | _, function _ _ _ => true
  | _, _ => false

/-- A template outside of all brackets opens with a line feed and goes on with the keyword of a
function. -/
def breaks : {c : Cat} → Phrase c → Bool
  | _, member e _ => e.breaks
  | _, callMember e _ _ => e.breaks
  | _, add a b => a.breaks || b.breaks
  | _, cond a b c => a.breaks || b.breaks || c.breaks
  | _, template turn e => (turn && e.beginsFunction) || e.breaks
  | _, _ => false

/-- The pieces that a tree is written with. The names of a pattern and of declarators are `reached`
or not. -/
def pieces : {c : Cat} → Phrase c → Bool → List Piece
  | _, name x, _ => [.use x]
  | _, number d, _ => [.number d]
  | _, string q, _ => [.string q]
  | _, member e x, _ => e.pieces true ++ [.sign ".", .plain x]
  | _, callName f es, _ => [.use f, .sign "("] ++ es.pieces true ++ [.sign ")"]
  | _, callMember e x es, _ =>
    e.pieces true ++ [.sign ".", .plain x, .sign "("] ++ es.pieces true ++ [.sign ")"]
  | _, callGroup e es, _ =>
    [.sign "("] ++ e.pieces true ++ [.sign ")", .sign "("] ++ es.pieces true ++ [.sign ")"]
  | _, group e, _ => [.sign "("] ++ e.pieces true ++ [.sign ")"]
  | _, array es, _ => [.sign "["] ++ es.pieces true ++ [.sign "]"]
  | _, object es, _ => [.sign "\x7b"] ++ es.pieces true ++ [.sign "\x7d"]
  | _, add a b, _ => a.pieces true ++ [.sign "+"] ++ b.pieces true
  | _, cond a b c, _ =>
    a.pieces true ++ [.sign "?"] ++ b.pieces true ++ [.sign ":"] ++ c.pieces true
  | _, function f ps body, _ =>
    [.keyword "function"] ++ (f.map (.binder true)).toList ++ [.sign "("] ++ ps.pieces true ++
      [.headEnd, .sign "\x7b"] ++ body.pieces true ++ [.sign "\x7d"]
  | _, arrow ps e, _ =>
    [.sign "("] ++ ps.pieces true ++ [.sign ")", .sign "=>", .sign "("] ++ e.pieces true ++
      [.sign ")"]
  | _, template turn e, _ => [.opening turn] ++ e.pieces true ++ [.ending]
  | _, noArgs, _ => []
  | .args b, arg e es, _ => comma b ++ e.pieces true ++ es.pieces true
  | _, noEntries, _ => []
  | .entries b, pair k e es, _ =>
    comma b ++ [.plain k, .sign ":"] ++ e.pieces true ++ es.pieces true
  | .entries b, short x es, _ => comma b ++ [.use x] ++ es.pieces true
  | .entries b, spread e es, _ => comma b ++ [.sign "..."] ++ e.pieces true ++ es.pieces true
  | _, bind x, r => [.binder r x]
  | _, objectPattern fs, r => [.sign "\x7b"] ++ fs.pieces r ++ [.sign "\x7d"]
  | _, arrayPattern ps, r => [.sign "["] ++ ps.pieces r ++ [.sign "]"]
  | _, noFields, _ => []
  | .fields b, restField x, r => comma b ++ [.sign "...", .binder r x]
  | .fields b, field x d fs, r => comma b ++ [.binder r x] ++ d.pieces true ++ fs.pieces r
  | .fields b, keyed k p d fs, r =>
    comma b ++ [.plain k, .sign ":"] ++ p.pieces r ++ d.pieces true ++ fs.pieces r
  | _, noParams, _ => []
  | .params b, restParam x, r => comma b ++ [.sign "...", .binder r x]
  | .params b, param p d ps, r => comma b ++ p.pieces r ++ d.pieces true ++ ps.pieces r
  | _, noDefault, _ => []
  | _, value e, _ => [.sign "="] ++ e.pieces true
  | _, lastDeclarator p e, r => p.pieces r ++ [.sign "="] ++ e.pieces true
  | _, declarator p e ds, r =>
    p.pieces r ++ [.sign "="] ++ e.pieces true ++ [.sign ","] ++ ds.pieces (r && !e.breaks)
  | _, declare k hk ds, _ =>
    [.keyword k (mem_keywords_of_mem_declarators hk)] ++ ds.pieces true ++ [.sign ";"]
  | _, functionStmt f ps body, _ =>
    [.keyword "function", .binder true f, .sign "("] ++ ps.pieces true ++
      [.headEnd, .sign "\x7b"] ++ body.pieces true ++ [.sign "\x7d"]
  | _, run e, _ => [.sign "("] ++ e.pieces true ++ [.sign ")", .sign ";"]
  | _, ret e, _ => [.keyword "return"] ++ e.pieces true ++ [.sign ";"]
  | _, ifStmt e body, _ =>
    [.keyword "if", .sign "("] ++ e.pieces true ++ [.headEnd, .sign "\x7b"] ++ body.pieces true ++
      [.sign "\x7d"]
  | _, tryStmt body p handler, _ =>
    [.keyword "try", .sign "\x7b"] ++ body.pieces true ++
      [.sign "\x7d", .keyword "catch", .sign "("] ++ p.pieces true ++ [.headEnd, .sign "\x7b"] ++
      handler.pieces true ++ [.sign "\x7d"]
  | _, forOf p e body, _ =>
    [.keyword "for", .sign "(", .keyword "const"] ++ p.pieces true ++ [.ofWord] ++ e.pieces true ++
      [.headEnd, .sign "\x7b"] ++ body.pieces true ++ [.sign "\x7d"]
  | _, importNames x ss q, _ =>
    [.keyword "import", .binder true x, .sign ",", .sign "\x7b"] ++ ss.pieces true ++
      [.sign "\x7d", .fromWord, .string q, .sign ";"]
  | _, importAll x q, _ =>
    [.keyword "import", .sign "*", .as, .binder true x, .fromWord, .string q, .sign ";"]
  | _, exportNames ss, _ =>
    [.keyword "export", .sign "\x7b"] ++ ss.pieces true ++ [.sign "\x7d", .sign ";"]
  | _, noStmts, _ => []
  | _, stmt st sts, _ => st.pieces true ++ sts.pieces true
  | _, noSpecs, _ => []
  | .specs i b, renamed x y ss, _ =>
    comma b ++ [.word x.toIdentifier (if i then .outer else .uses), .as,
      .word y.toIdentifier (if i then .binds else .outer)] ++ ss.pieces true
  | .specs i b, spec x ss, _ =>
    comma b ++ [.word x.toIdentifier (if i then .binds else .uses)] ++ ss.pieces true

def size {c : Cat} (t : Phrase c) : Nat := (t.pieces true).length

@[simp] theorem length_pieces {c : Cat} (t : Phrase c) (r : Bool) :
    (t.pieces r).length = t.size := by
  cases r with
  | true => rfl
  | false =>
    unfold size
    induction t <;> simp_all [pieces]
    case declarator e _ _ _ _ => cases e.breaks <;> simp_all

theorem size_pos (p : Phrase .pattern) : 0 < p.size := by
  rw [← p.length_pieces true]
  cases p <;> simp [pieces]

theorem pieces_cases {c : Cat} (t : Phrase c) (r : Bool) (hc : c.goesOn = true) :
    t.pieces r = [] ∨ ∃ ps, t.pieces r = .sign "," :: ps := by
  cases t <;> simp_all [pieces, comma, Cat.goesOn]

end Phrase

namespace Piece

def admits : Piece → Bool
  | sign p _ => p ≠ "."
  | keyword k _ => k ∉ ["break", "continue"]
  | _ => true

def leadsKey : Piece → Bool
  | sign p _ => p ∈ ["\x7b", ",", ";", "\x7d"]
  | _ => false

def ends : Piece → Bool
  | sign p _ => p ∉ [":", "\x7b"]
  | _ => true

def Fits (p prev next : Piece) : Prop :=
  match p with
  | word _ .outer => True
  | word w .plain =>
    w.text ∈ contextualKeywords ∨ prev = sign "." ∨ (prev.leadsKey = true ∧ next = sign ":")
  | word w _ =>
    w.text ∉ contextualKeywords ∧ prev.admits = true ∧ (next = sign ":" → prev.leadsKey = false)
  | sign x _ => x = ")" → next ≠ sign "\x7b"
  | _ => True

def Fit (prev next : Piece) : List Piece → Prop
  | [] => True
  | p :: ps => p.Fits prev (ps.headD next) ∧ Fit p next ps

end Piece

def Piece.lead (prev : Piece) (first : Bool) : Piece := if first then prev else .sign ","

def Cat.Between (prev next : Piece) : Cat → Prop
  | expr =>
    prev.admits = true ∧ next ≠ .sign "\x7b" ∧ (next = .sign ":" → prev.leadsKey = false)
  | args first | params first | specs _ first =>
    (prev.lead first).admits = true ∧ next.ends = true
  | entries first | fields first =>
    (prev.lead first).admits = true ∧ (prev.lead first).leadsKey = true ∧ next.ends = true
  | pattern | declarators => prev.admits = true ∧ next.ends = true
  | default => next.ends = true
  | stmt | stmts => True

def prevAt (all : List Piece) (i : Nat) : Piece := (.sign ";" :: all)[i]?.getD (.sign ";")

def nextAt (all : List Piece) (i : Nat) : Piece := all[i + 1]?.getD (.sign ";")

end MdxLint
