import MdxLint.Yaml.Token

/-! # Nodes

What the tokens of a document say: scalars, sequences and mappings, each with the tag and the anchor
in front of it, and aliases. Each reader answers the tokens it left together with the fact that they
are fewer, or at least not more.
-/

namespace MdxLint.Yaml

structure Properties where
  anchor : Option (List Char) := none
  /-- The tag in full. -/
  tag : Option (List Char) := none
  deriving DecidableEq, Repr

def Properties.count (p : Properties) : Nat := p.anchor.toList.length + p.tag.toList.length

inductive Node where
  | alias (name : List Char)
  | scalar (p : Properties) (text : List Char) (isPlain : Bool)
  | sequence (p : Properties) (items : List Node)
  | mapping (p : Properties) (entries : List (Node × Node))
  deriving Repr

def Node.absent : Node := .scalar {} [] true

abbrev Handles := List (List Char × List Char)

def defaultHandles : Handles :=
  [("!".toList, "!".toList), ("!!".toList, "tag:yaml.org,2002:".toList)]

def Handles.fullTag? (hs : Handles) (t : WrittenTag) : Option (List Char) :=
  match t.handle with
  | none => some t.suffix
  | some h => (hs.lookup h).map (· ++ t.suffix)

def misplaced (ts : List Token) : Fault :=
  match ts with
  | .fault f :: _ => f
  | _ => .syntactic

abbrev NotLonger (ts : List Token) := { r : List Token // r.length ≤ ts.length }

abbrev Shorter (ts : List Token) := { r : List Token // r.length < ts.length }

/-- The properties at the front of a row of tokens, and what is left behind them. -/
def properties (hs : Handles) (ts : List Token) :
    Except Fault { x : Properties × List Token // x.2.length + x.1.count ≤ ts.length } :=
  let tagged (t : WrittenTag) : Except Fault (List Char) := orSyntactic (hs.fullTag? t)
  match ts with
  | .anchor a :: .tag t :: r => do
    let t ← tagged t
    return ⟨(⟨some a, some t⟩, r), by simp [Properties.count]⟩
  | .tag t :: .anchor a :: r => do
    let t ← tagged t
    return ⟨(⟨some a, some t⟩, r), by simp [Properties.count]⟩
  | .anchor a :: r => .ok ⟨(⟨some a, none⟩, r), by simp [Properties.count]⟩
  | .tag t :: r => do
    let t ← tagged t
    return ⟨(⟨none, some t⟩, r), by simp [Properties.count]⟩
  | r => .ok ⟨({}, r), by simp [Properties.count]⟩

def endsItem : Token → Bool
  | .dash => true
  | .blockEnd => true
  | _ => false

/-- Tokens before which the last item of a sequence without indentation is absent. -/
def endsBareItem : Token → Bool
  | .dash => true
  | .key => true
  | .value => true
  | .blockEnd => true
  | _ => false

def endsEntry : Token → Bool
  | .key => true
  | .value => true
  | .blockEnd => true
  | _ => false

def endsFlowKey (e : Enclosure) : Token → Bool
  | .value => true
  | .comma => true
  | .closer e' => e = e'
  | _ => false

def endsFlowValue (e : Enclosure) : Token → Bool
  | .comma => true
  | .closer e' => e = e'
  | _ => false

inductive Position where
  /-- Between brackets. -/
  | flow
  /-- In a block. -/
  | block
  /-- In a mapping, where the dashes of a sequence may stand in the column of the keys. -/
  | entry
  deriving DecidableEq, Repr

mutual

def node (hs : Handles) (pos : Position) (ts : List Token) : Except Fault (Node × Shorter ts) := do
  let ⟨(p, ts'), hp⟩ ← properties hs ts
  match h : ts' with
  | .alias n :: r =>
    if hc : p.count = 0 then return (.alias n, ⟨r, by simp [h] at hp; omega⟩)
    else return (.scalar p [] true, ⟨.alias n :: r, by simp [h] at hp ⊢; omega⟩)
  | .scalar text isPlain :: r =>
    return (.scalar p text isPlain, ⟨r, by simp [h] at hp; omega⟩)
  | .opener .square :: r =>
    let (ns, r') ← flowItems hs r
    return (.sequence p ns, ⟨r'.1, by have := r'.2; simp [h] at hp; omega⟩)
  | .opener .curly :: r =>
    let (es, r') ← flowEntries hs r
    return (.mapping p es, ⟨r'.1, by have := r'.2; simp [h] at hp; omega⟩)
  | t :: r =>
    if t = .dash && pos = .entry then
      let (ns, r') ← bareItems hs r
      return (.sequence p ns, ⟨r'.1, by have := r'.2; simp [h] at hp; omega⟩)
    else if t = .itemBlock && pos ≠ .flow then
      let (ns, r') ← blockItems hs r
      return (.sequence p ns, ⟨r'.1, by have := r'.2; simp [h] at hp; omega⟩)
    else if t = .entryBlock && pos ≠ .flow then
      let (es, r') ← blockEntries hs r
      return (.mapping p es, ⟨r'.1, by have := r'.2; simp [h] at hp; omega⟩)
    else if hc : p.count = 0 then throw (misplaced (t :: r))
    else return (.scalar p [] true, ⟨t :: r, by simp [h] at hp ⊢; omega⟩)
  | [] =>
    if hc : p.count = 0 then throw .syntactic
    else return (.scalar p [] true, ⟨[], by simp [h] at hp ⊢; omega⟩)
  termination_by 3 * ts.length
  decreasing_by all_goals simp [h] at hp; omega

/-- The node at the front of a row of tokens, which is absent before certain tokens. -/
def slot (hs : Handles) (pos : Position) (ends : Token → Bool) (ts : List Token) :
    Except Fault (Node × NotLonger ts) := do
  if ts.head?.any ends then return (.absent, ⟨ts, Nat.le_refl _⟩)
  else
    let (n, r) ← node hs pos ts
    return (n, ⟨r.1, Nat.le_of_lt r.2⟩)
  termination_by 3 * ts.length + 1

def blockItems (hs : Handles) (ts : List Token) : Except Fault (List Node × NotLonger ts) :=
  match ts with
  | .dash :: r => do
    let (n, r') ← slot hs .block endsItem r
    let (ns, r'') ← blockItems hs r'.1
    return (n :: ns, ⟨r''.1, by have := r'.2; have := r''.2; simp; omega⟩)
  | .blockEnd :: r => .ok ([], ⟨r, by simp⟩)
  | ts => .error (misplaced ts)
  termination_by 3 * ts.length
  decreasing_by
    · simp; omega
    · have := r'.2; simp; omega

/-- Items behind dashes that stand in the column of the keys around them; the first dash has been
taken. -/
def bareItems (hs : Handles) (ts : List Token) : Except Fault (List Node × NotLonger ts) := do
  let (n, r) ← slot hs .block endsBareItem ts
  match h : r.1 with
  | .dash :: r' =>
    have : r'.length < ts.length := by
      have := r.2
      rw [h] at this
      simp at this
      omega
    let (ns, r'') ← bareItems hs r'
    return (n :: ns, ⟨r''.1, by have := r''.2; omega⟩)
  | _ => return ([n], r)
  termination_by 3 * ts.length + 2

def blockEntries (hs : Handles) (ts : List Token) :
    Except Fault (List (Node × Node) × NotLonger ts) :=
  match ts with
  | .key :: r => do
    let (k, r₁) ← slot hs .entry endsEntry r
    let (v, r₂) ← blockValue hs r₁.1
    let (es, r₃) ← blockEntries hs r₂.1
    return ((k, v) :: es,
      ⟨r₃.1, by have := r₁.2; have := r₂.2; have := r₃.2; simp; omega⟩)
  | .blockEnd :: r => .ok ([], ⟨r, by simp⟩)
  | ts => .error (misplaced ts)
  termination_by 3 * ts.length
  decreasing_by
    · simp; omega
    · have := r₁.2; simp; omega
    · have := r₁.2; have := r₂.2; simp; omega

def blockValue (hs : Handles) (ts : List Token) : Except Fault (Node × NotLonger ts) :=
  match ts with
  | .value :: r => do
    let (v, r') ← slot hs .entry endsEntry r
    return (v, ⟨r'.1, by have := r'.2; simp; omega⟩)
  | ts => .ok (.absent, ⟨ts, Nat.le_refl _⟩)
  termination_by 3 * ts.length
  decreasing_by simp; omega

def flowValue (hs : Handles) (e : Enclosure) (ts : List Token) :
    Except Fault (Node × NotLonger ts) :=
  match ts with
  | .value :: r => do
    let (v, r') ← slot hs .flow (endsFlowValue e) r
    return (v, ⟨r'.1, by have := r'.2; simp; omega⟩)
  | ts => .ok (.absent, ⟨ts, Nat.le_refl _⟩)
  termination_by 3 * ts.length
  decreasing_by simp; omega

def flowEntry (hs : Handles) (e : Enclosure) (ts : List Token) :
    Except Fault ((Node × Node) × NotLonger ts) := do
  let (k, r) ← slot hs .flow (endsFlowKey e) ts
  let (v, r') ← flowValue hs e r.1
  return ((k, v), ⟨r'.1, by have := r.2; have := r'.2; omega⟩)
  termination_by 3 * ts.length + 2
  decreasing_by
    · omega
    · have := r.2; omega

/-- The items between square brackets from behind a bracket or comma on, and the bracket that
closes. An item may be a mapping of one key. -/
def flowItems (hs : Handles) (ts : List Token) : Except Fault (List Node × NotLonger ts) :=
  match ts with
  | .closer .square :: r => .ok ([], ⟨r, by simp⟩)
  | .key :: r => do
    let (e, r') ← flowEntry hs .square r
    let (ns, r'') ← moreItems hs r'.1
    return (.mapping {} [e] :: ns, ⟨r''.1, by have := r'.2; have := r''.2; simp; omega⟩)
  | ts => do
    let (n, r) ← node hs .flow ts
    let (ns, r') ← moreItems hs r.1
    return (n :: ns, ⟨r'.1, by have := r.2; have := r'.2; omega⟩)
  termination_by 3 * ts.length + 1
  decreasing_by
    · simp; omega
    · have := r'.2; simp; omega
    · omega
    · have := r.2; omega

def moreItems (hs : Handles) (ts : List Token) : Except Fault (List Node × NotLonger ts) :=
  match ts with
  | .comma :: r => do
    let (ns, r') ← flowItems hs r
    return (ns, ⟨r'.1, by have := r'.2; simp; omega⟩)
  | .closer .square :: r => .ok ([], ⟨r, by simp⟩)
  | ts => .error (misplaced ts)
  termination_by 3 * ts.length
  decreasing_by simp; omega

/-- The entries between curly brackets from behind a bracket or comma on, and the bracket that
closes. -/
def flowEntries (hs : Handles) (ts : List Token) :
    Except Fault (List (Node × Node) × NotLonger ts) :=
  match ts with
  | .closer .curly :: r => .ok ([], ⟨r, by simp⟩)
  | .key :: r => do
    let (e, r') ← flowEntry hs .curly r
    let (es, r'') ← moreEntries hs r'.1
    return (e :: es, ⟨r''.1, by have := r'.2; have := r''.2; simp; omega⟩)
  | ts => do
    let (k, r) ← node hs .flow ts
    let (es, r') ← moreEntries hs r.1
    return ((k, .absent) :: es, ⟨r'.1, by have := r.2; have := r'.2; omega⟩)
  termination_by 3 * ts.length + 1
  decreasing_by
    · simp; omega
    · have := r'.2; simp; omega
    · omega
    · have := r.2; omega

def moreEntries (hs : Handles) (ts : List Token) :
    Except Fault (List (Node × Node) × NotLonger ts) :=
  match ts with
  | .comma :: r => do
    let (es, r') ← flowEntries hs r
    return (es, ⟨r'.1, by have := r'.2; simp; omega⟩)
  | .closer .curly :: r => .ok ([], ⟨r, by simp⟩)
  | ts => .error (misplaced ts)
  termination_by 3 * ts.length
  decreasing_by simp; omega

end

/-- The directives in front of a document: the handles that they explain. -/
def directives (hs : Handles) (versioned : Bool) :
    List Token → Except Fault (Handles × List Token)
  | .directive (.version major) :: ts =>
    if versioned || major ≠ 1 then .error .syntactic else directives hs true ts
  | .directive (.handle h lead) :: ts =>
    if hs.any (·.1 = h) then .error .syntactic else directives (hs ++ [(h, lead)]) versioned ts
  | .directive .other :: ts => directives hs versioned ts
  | ts => .ok (hs, ts)

def nothingLeft (ts : List Token) : Except Fault Unit :=
  match ts.dropWhile (· = .documentEnd) with
  | [] => .ok ()
  | ts => .error (misplaced ts)

def noContent (ts : List Token) : Bool :=
  match ts with
  | [] => true
  | .directive _ :: _ => true
  | .documentStart :: _ => true
  | .documentEnd :: _ => true
  | _ => false

/-- The root of the only document of a text; there may be none. -/
def root? (ts : List Token) : Except Fault (Option Node) := do
  let begun := match ts with
    | [] => none
    | .directive _ :: _ => some ts
    | .documentStart :: _ => some ts
    | _ => none
  match begun with
  | none =>
    if ts.isEmpty then return none
    else
      let (n, r) ← node defaultHandles .block ts
      nothingLeft r.1
      return some n
  | some ts =>
    let (hs, ts) ← directives [] false ts
    match ts with
    | .documentStart :: ts =>
      if noContent ts then
        nothingLeft ts
        return some .absent
      else
        let (n, r) ← node (hs ++ defaultHandles) .block ts
        nothingLeft r.1
        return some n
    | ts => throw (misplaced ts)

end MdxLint.Yaml
