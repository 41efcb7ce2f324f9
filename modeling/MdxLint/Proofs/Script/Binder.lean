import MdxLint.Proofs.Script.Standing

/-! # Patterns among the tokens of a script

A tree of tokens is a pattern or a list of parameters, with whatever stands in default values and
computed keys. All names that it binds are declared by what the functions on scripts find at its
place, whatever else stands in the script.
-/

namespace MdxLint

/-- What may stand behind a binding: nothing, or a sign and a value. -/
structure Default where
  tokens : List Token
  starts : ∀ t ∈ tokens.head?, t.isPunct "=" = true
  nest : Nest tokens

/-- Patterns, the entries of patterns and parameter lists, and lists of entries. -/
inductive Binder.Cat where
  | pattern
  | entry (braces : Bool)
  | entries (braces : Bool)

def Binder.bracket (braces : Bool) : Bracket := if braces then .curly else .square

inductive Binder : Binder.Cat → Type where
  | name (t : Token) (ht : t.kind = .name) : Binder .pattern
  | group {b : Bool} (o c : Token) (ho : o.isPunct (Binder.bracket b).opener = true)
      (hc : c.isPunct (Binder.bracket b).closer = true) (es : Binder (.entries b)) :
      Binder .pattern
  -- entries
  | hole {b : Bool} : Binder (.entry b)
  | rest {b : Bool} (dots : Token) (hdots : dots.isPunct "..." = true) (p : Binder .pattern) :
      Binder (.entry b)
  | item (p : Binder .pattern) (d : Default) : Binder (.entry false)
  | short (t : Token) (ht : t.kind = .name) (d : Default) : Binder (.entry true)
  | keyed (k colon : Token) (hk : k.kind ≠ .punctuator) (hcolon : colon.isPunct ":" = true)
      (p : Binder .pattern) (d : Default) : Binder (.entry true)
  | computed (o : Token) (ks : List Token) (c colon : Token) (ho : o.isPunct "[" = true)
      (hks : Nest ks) (hc : c.isPunct "]" = true) (hcolon : colon.isPunct ":" = true)
      (p : Binder .pattern) (d : Default) : Binder (.entry true)
  -- lists of entries
  | last {b : Bool} (e : Binder (.entry b)) : Binder (.entries b)
  | more {b : Bool} (e : Binder (.entry b)) (comma : Token) (hcomma : comma.isPunct "," = true)
      (es : Binder (.entries b)) : Binder (.entries b)

namespace Binder

@[simp] def toks : {c : Cat} → Binder c → List Token
  | _, name t _ => [t]
  | _, group o c _ _ es => o :: (es.toks ++ [c])
  | _, hole => []
  | _, rest dots _ p => dots :: p.toks
  | _, item p d => p.toks ++ d.tokens
  | _, short t _ d => t :: d.tokens
  | _, keyed k colon _ _ p d => k :: colon :: (p.toks ++ d.tokens)
  | _, computed o ks c colon _ _ _ _ p d => o :: (ks ++ c :: colon :: (p.toks ++ d.tokens))
  | _, last e => e.toks
  | _, more e comma _ es => e.toks ++ comma :: es.toks

@[simp] def spots : {c : Cat} → Binder c → Nat → List Nat
  | _, name _ _, n => [n]
  | _, group _ _ _ _ es, n => es.spots (n + 1)
  | _, hole, _ => []
  | _, rest _ _ p, n => p.spots (n + 1)
  | _, item p _, n => p.spots n
  | _, short _ _ _, n => [n]
  | _, keyed _ _ _ _ p _, n => p.spots (n + 2)
  | _, computed _ ks _ _ _ _ _ _ p _, n => p.spots (n + 1 + ks.length + 2)
  | _, last e, n => e.spots n
  | _, more e _ _ es, n => e.spots n ++ es.spots (n + e.toks.length + 1)

/-- The names that a tree binds. -/
@[simp] def names : {c : Cat} → Binder c → List String
  | _, name t _ => [t.text]
  | _, group _ _ _ _ es => es.names
  | _, hole => []
  | _, rest _ _ p => p.names
  | _, item p _ => p.names
  | _, short t _ _ => [t.text]
  | _, keyed _ _ _ _ p _ => p.names
  | _, computed _ _ _ _ _ _ _ _ p _ => p.names
  | _, last e => e.names
  | _, more e _ _ es => e.names ++ es.names

theorem opens_of_bracket {b : Bool} {o : Token} (ho : o.isPunct (bracket b).opener = true) :
    o.opens = true := (Token.opens_of_isPunct (by cases b <;> decide) ho).1

theorem closes_of_bracket {b : Bool} {c : Token} (hc : c.isPunct (bracket b).closer = true) :
    c.opens = false ∧ c.closes = true := Token.closes_of_isPunct (by cases b <;> decide) hc

theorem nest {c : Cat} (t : Binder c) : Nest t.toks := by
  induction t with
  | name t ht => exact .cons (Token.isBracket_of_kind_ne (by simp [ht])) .nil
  | group o c ho hc es ih => exact .wrap (opens_of_bracket ho) (closes_of_bracket hc) ih .nil
  | hole => exact .nil
  | rest dots hdots p ih => exact .cons (Token.isBracket_of_isPunct hdots (by decide)) ih
  | item p d ih => exact ih.append d.nest
  | short t ht d => exact .cons (Token.isBracket_of_kind_ne (by simp [ht])) d.nest
  | keyed k colon hk hcolon p d ih =>
    exact .cons (Token.isBracket_of_kind_ne hk)
      (.cons (Token.isBracket_of_isPunct hcolon (by decide)) (ih.append d.nest))
  | computed o ks c colon ho hks hc hcolon p d ih =>
    exact .wrap (opens_of_bracket (b := false) ho) (closes_of_bracket (b := false) hc) hks
      (.cons (Token.isBracket_of_isPunct hcolon (by decide)) (ih.append d.nest))
  | last e ih => exact ih
  | more e comma hcomma es ih ihs =>
    exact ih.append (.cons (Token.isBracket_of_isPunct hcomma (by decide)) ihs)

theorem length_pos (p : Binder .pattern) : 0 < p.toks.length := by
  cases p <;> simp [toks]

end Binder

/-! ## What is declared -/

namespace Binder

variable {all : List Token} {n : Nat}

def part (s : Script) : Bool → Span → PatternPart
  | true => s.objectPart
  | false => s.listPart

/-- What the functions on scripts have to find at the index of a tree: every name that it binds is
declared. An entry has to be found at the head of the ranges from its index on, and no colon may
turn it into a key. -/
def Heard (s : Script) : {c : Cat} → Binder c → Nat → Prop
  | .pattern, t, n => ∀ i ∈ t.spots n, .declares i ∈ s.patternMarks n
  | .entry b, t, n => s.isPunct (n + t.toks.length) ":" = false →
      ∀ stop, n + t.toks.length ≤ stop → ∀ i ∈ t.spots n,
        ∃ e es, s.spansFrom stop n n = e :: es ∧ e.start < e.stop ∧
          .declares i ∈ s.partMarks (part s b e)
  | .entries b, t, n => s.isPunct (n + t.toks.length) ":" = false →
      ∀ i ∈ t.spots n, ∃ e ∈ s.spansFrom (n + t.toks.length) n n, e.start < e.stop ∧
        .declares i ∈ s.partMarks (part s b e)

theorem isPunct_first (p : Binder .pattern) (hat : Stands all n p.toks) {x : String}
    (hx : x ∉ ["\x7b", "["]) : (Script.ofTokens all).isPunct n x = false := by
  rw [List.mem_cons, List.mem_singleton, not_or] at hx
  cases p with
  | name t ht =>
    rw [Script.isPunct_of_stands (stands_cons.1 hat).1, Token.isPunct_of_kind_ne (by simp [ht])]
  | @group b o c ho hc es =>
    rw [Script.isPunct_of_stands (stands_cons.1 hat).1]
    refine Token.isPunct_eq_false ho ?_
    cases b with
    | true => exact Ne.symm hx.1
    | false => exact Ne.symm hx.2

theorem walk_pattern (p : Binder .pattern) (hat : Stands all n p.toks) :
    (Script.ofTokens all).Walk (fun i => (Script.ofTokens all).isPunct i "," = false) n
      (n + p.toks.length) := by
  have hcomma := p.isPunct_first hat (x := ",") (by decide)
  cases p with
  | name t ht =>
    exact Script.walk_of_stands (stands_cons.1 hat).1
      (Token.isBracket_of_kind_ne (by simp [ht])) hcomma
  | group o c ho hc es =>
    exact Script.walk_group_of_stands hat (opens_of_bracket ho) (closes_of_bracket hc) es.nest
      hcomma

/-- What is heard of the entries of a group is said by the parts of the group. -/
theorem Heard.mem_group {o c : Token} {b : Bool} {es : Binder (.entries b)}
    (hat : Stands all n (o :: (es.toks ++ [c]))) (ho : o.opens = true)
    (hc : c.opens = false ∧ c.closes = true) (h : es.Heard (Script.ofTokens all) (n + 1))
    {i : Nat} (hi : i ∈ es.spots (n + 1)) :
    .declares i ∈ (((Script.ofTokens all).entriesOf n).map (part (Script.ofTokens all) b)).flatMap
      (Script.ofTokens all).partMarks := by
  have hcolon : (Script.ofTokens all).isPunct (n + 1 + es.toks.length) ":" = false := by
    rw [stands_cons, stands_append, stands_cons] at hat
    rw [Script.isPunct_of_stands hat.2.2.1]
    exact Token.isPunct_of_closes hc.2 (by decide)
  obtain ⟨e, he, hlt, hmem⟩ := h hcolon i hi
  refine List.mem_flatMap.2 ⟨_, List.mem_map_of_mem (List.mem_filter.2 ⟨?_, ?_⟩), hmem⟩
  · rw [Script.lastOf_of_stands hat ho hc es.nest]
    exact he
  · exact decide_eq_true hlt

theorem patternMarks_group {o c : Token} {b : Bool} {es : Binder (.entries b)}
    (hat : Stands all n (o :: (es.toks ++ [c]))) (ho : o.isPunct (bracket b).opener = true)
    (hc : c.isPunct (bracket b).closer = true) :
    (Script.ofTokens all).patternMarks n =
      (((Script.ofTokens all).entriesOf n).map (part (Script.ofTokens all) b)).flatMap
        (Script.ofTokens all).partMarks := by
  have htok := (stands_cons.1 hat).1
  have hkind : o.kind = .punctuator := beq_iff_eq.1 (Bool.and_eq_true_iff.1 ho).1
  rw [Script.patternMarks_eq, if_pos (Script.lt_size_of_stands htok), Script.isName_of_stands htok,
    hkind, if_neg (by decide), Script.patternParts,
    if_pos (Script.paired_of_stands hat (opens_of_bracket ho) (closes_of_bracket hc) es.nest),
    Script.isPunct_of_stands htok, Script.isPunct_of_stands htok]
  cases b with
  | true =>
    have hbrace : o.isPunct "\x7b" = true := ho
    rw [if_pos hbrace]
    rfl
  | false =>
    have hbracket : o.isPunct "[" = true := ho
    rw [Token.isPunct_eq_false hbracket (by decide), if_neg (by decide), if_pos hbracket]
    rfl

theorem mem_partMarks_inner {s : Script} {p : PatternPart} {i j : Nat} (hp : p.inner = some j)
    (h : .declares i ∈ s.patternMarks j) : .declares i ∈ s.partMarks p := by
  rw [Script.partMarks, hp]
  exact List.mem_append_right _ h

/-- An entry is heard if its range says all it binds, wherever that range ends behind a walk that meets
no comma. -/
theorem Heard.of_walk {s : Script} {b : Bool} {t : Binder (.entry b)} {j : Nat}
    (hwalk : s.Walk (fun i => s.isPunct i "," = false) n j) (hn : n < j)
    (hj : j ≤ n + t.toks.length)
    (h : s.isPunct (n + t.toks.length) ":" = false → ∀ e : Span, e.start = n → j ≤ e.stop →
      ∀ i ∈ t.spots n, .declares i ∈ s.partMarks (part s b e)) : t.Heard s n := by
  intro hcolon stop hstop i hi
  obtain ⟨e, es, heq, hstart, hle⟩ :=
    Script.exists_head_of_walk hwalk stop (Nat.le_trans hj hstop)
  exact ⟨e, es, heq, by omega, h hcolon e hstart hle i hi⟩

section Entries

variable {p : Binder .pattern} {d : Default}

theorem heard_rest {b : Bool} {dots : Token} (hdots : dots.isPunct "..." = true)
    (hat : Stands all n (dots :: p.toks)) (hp : p.Heard (Script.ofTokens all) (n + 1)) :
    (rest (b := b) dots hdots p).Heard (Script.ofTokens all) n := by
  obtain ⟨htok, hat'⟩ := stands_cons.1 hat
  have hsign := (Script.isPunct_of_stands htok "...").trans hdots
  have hcomma := (Script.isPunct_of_stands htok ",").trans
    (Token.isPunct_eq_false hdots (by decide))
  have hwalk := (Script.walk_of_stands htok (Token.isBracket_of_isPunct hdots (by decide))
    hcomma).trans (p.walk_pattern hat')
  have hpos := p.length_pos
  refine .of_walk hwalk (by omega) (by simp only [toks, List.length_cons]; omega) ?_
  rintro - e rfl hle i hi
  refine mem_partMarks_inner ?_ (hp i hi)
  cases b with
  | true => simp [part, Script.objectPart, hsign]
  | false => simp [part, Script.listPart, hsign, show e.start + 1 < e.stop by omega]

theorem heard_item (hat : Stands all n (p.toks ++ d.tokens))
    (hp : p.Heard (Script.ofTokens all) n) : (item p d).Heard (Script.ofTokens all) n := by
  have hat' := (stands_append.1 hat).1
  have hpos := p.length_pos
  refine .of_walk (p.walk_pattern hat') (by omega)
    (by simp only [toks, List.length_append]; omega) ?_
  rintro - e rfl hle i hi
  refine mem_partMarks_inner ?_ (hp i hi)
  simp [part, Script.listPart, p.isPunct_first hat' (x := "...") (by decide),
    show e.start < e.stop by omega]

theorem heard_short {t : Token} (ht : t.kind = .name) (hat : Stands all n (t :: d.tokens)) :
    (short t ht d).Heard (Script.ofTokens all) n := by
  obtain ⟨htok, hd⟩ := stands_cons.1 hat
  have hkind : t.kind ≠ .punctuator := by simp [ht]
  have hsign (x : String) : (Script.ofTokens all).isPunct n x = false :=
    (Script.isPunct_of_stands htok x).trans (Token.isPunct_of_kind_ne hkind x)
  have hname : (Script.ofTokens all).isName n = true :=
    (Script.isName_of_stands htok).trans (beq_iff_eq.2 ht)
  refine .of_walk (Script.walk_of_stands htok (Token.isBracket_of_kind_ne hkind) (hsign ","))
    (Nat.lt_succ_self n) (by simp only [toks, List.length_cons]; omega) ?_
  rintro hcolon e rfl - i hi
  -- behind the name stands the value, or else what follows the entry
  have hkey : (Script.ofTokens all).isPunct (e.start + 1) ":" = false := by
    cases hds : d.tokens with
    | nil => simpa [toks, hds] using hcolon
    | cons u us =>
      rw [hds] at hd
      rw [Script.isPunct_of_stands (stands_cons.1 hd).1]
      exact Token.isPunct_eq_false (d.starts u (by rw [hds]; rfl)) (by decide)
  simpa [part, Script.objectPart, Script.partMarks, hsign, hkey, hname, spots] using hi

theorem heard_keyed {k colon : Token} (hk : k.kind ≠ .punctuator)
    (hcolon : colon.isPunct ":" = true) (hat : Stands all n (k :: colon :: (p.toks ++ d.tokens)))
    (hp : p.Heard (Script.ofTokens all) (n + 2)) :
    (keyed k colon hk hcolon p d).Heard (Script.ofTokens all) n := by
  obtain ⟨htok, hat'⟩ := stands_cons.1 hat
  have hsign (x : String) : (Script.ofTokens all).isPunct n x = false :=
    (Script.isPunct_of_stands htok x).trans (Token.isPunct_of_kind_ne hk x)
  have hkey := (Script.isPunct_of_stands (stands_cons.1 hat').1 ":").trans hcolon
  refine .of_walk (Script.walk_of_stands htok (Token.isBracket_of_kind_ne hk) (hsign ","))
    (Nat.lt_succ_self n) (by simp only [toks, List.length_cons]; omega) ?_
  rintro - e rfl - i hi
  refine mem_partMarks_inner ?_ (hp i hi)
  simp [part, Script.objectPart, hsign, hkey]

theorem heard_computed {o c colon : Token} {ks : List Token} (ho : o.isPunct "[" = true)
    (hks : Nest ks) (hc : c.isPunct "]" = true) (hcolon : colon.isPunct ":" = true)
    (hat : Stands all n (o :: (ks ++ [c]) ++ colon :: (p.toks ++ d.tokens)))
    (hp : p.Heard (Script.ofTokens all) (n + 1 + ks.length + 2)) :
    (computed o ks c colon ho hks hc hcolon p d).Heard (Script.ofTokens all) n := by
  have hopens := opens_of_bracket (b := false) ho
  have hcloses := closes_of_bracket (b := false) hc
  have hlen : n + (o :: (ks ++ [c])).length = n + 1 + ks.length + 1 := by
    simp only [List.length_cons, List.length_append, List.length_nil]
    omega
  obtain ⟨hgroup, hat'⟩ := stands_append.1 hat
  rw [hlen] at hat'
  have htok := (stands_cons.1 hgroup).1
  have hopen := (Script.isPunct_of_stands htok "[").trans ho
  have hsign {x : String} (hx : "[" ≠ x) : (Script.ofTokens all).isPunct n x = false :=
    (Script.isPunct_of_stands htok x).trans (Token.isPunct_eq_false ho hx)
  have hlast := Script.lastOf_of_stands hgroup hopens hcloses hks
  have hkey := (Script.isPunct_of_stands (stands_cons.1 hat').1 ":").trans hcolon
  have hwalk : (Script.ofTokens all).Walk (fun i => (Script.ofTokens all).isPunct i "," = false)
      n (n + 1 + ks.length + 1) :=
    (Script.walk_group_of_stands hgroup hopens hcloses hks (hsign (by decide))).upTo hlen
  refine .of_walk hwalk (by omega)
    (by simp only [toks, List.length_cons, List.length_append]; omega) ?_
  rintro - e rfl - i hi
  refine mem_partMarks_inner ?_ (hp i hi)
  simp [part, Script.objectPart, hsign (x := "...") (by decide), hopen, hlast, hkey]

end Entries

theorem heard_more {b : Bool} {e : Binder (.entry b)} {comma : Token}
    (hcomma : comma.isPunct "," = true) {es : Binder (.entries b)}
    (hat : Stands all n (e.toks ++ comma :: es.toks)) (he : e.Heard (Script.ofTokens all) n)
    (hes : es.Heard (Script.ofTokens all) (n + e.toks.length + 1)) :
    (more e comma hcomma es).Heard (Script.ofTokens all) n := by
  obtain ⟨hat₁, hat₂⟩ := stands_append.1 hat
  have htok := (stands_cons.1 hat₂).1
  have hlen : n + (more e comma hcomma es).toks.length =
      n + e.toks.length + 1 + es.toks.length := by
    simp only [toks, List.length_append, List.length_cons]
    omega
  intro hcolon i hi
  rw [hlen] at hcolon ⊢
  rcases List.mem_append.1 hi with hi | hi
  · have hkey := (Script.isPunct_of_stands htok ":").trans
      (Token.isPunct_eq_false hcomma (by decide))
    obtain ⟨f, fs, heq, h⟩ := he hkey (n + e.toks.length + 1 + es.toks.length) (by omega) i hi
    exact ⟨f, by rw [heq]; exact List.mem_cons_self .., h⟩
  · have hsep := (Script.isPunct_of_stands htok ",").trans hcomma
    obtain ⟨f, hf, h⟩ := hes hcolon i hi
    obtain ⟨fs, heq⟩ := Script.exists_spansFrom_append (Script.walk_nest e.nest hat₁) hsep
      (n + e.toks.length + 1 + es.toks.length) (by omega) n
    exact ⟨f, by rw [heq]; exact List.mem_append_right _ hf, h⟩

theorem heard {c : Cat} (t : Binder c) (hat : Stands all n t.toks) :
    t.Heard (Script.ofTokens all) n := by
  induction t generalizing n with
  | name t ht =>
    have htok := (stands_cons.1 hat).1
    intro i hi
    rw [Script.patternMarks_eq, if_pos (Script.lt_size_of_stands htok),
      Script.isName_of_stands htok, ht]
    simpa [spots] using hi
  | group o c ho hc es ih =>
    intro i hi
    rw [patternMarks_group hat ho hc]
    exact (ih (stands_append.1 (stands_cons.1 hat).2).1).mem_group hat (opens_of_bracket ho)
      (closes_of_bracket hc) hi
  | hole => exact fun _ _ _ _ hi => absurd hi List.not_mem_nil
  | rest dots hdots p ih => exact heard_rest hdots hat (ih (stands_cons.1 hat).2)
  | item p d ih => exact heard_item hat (ih (stands_append.1 hat).1)
  | short t ht d => exact heard_short ht hat
  | keyed k colon hk hcolon p d ih =>
    exact heard_keyed hk hcolon hat (ih (stands_append.1 (stands_cons.1 (stands_cons.1 hat).2).2).1)
  | computed o ks c colon ho hks hc hcolon p d ih =>
    have hp : Stands all (n + 1 + ks.length + 2) p.toks := by
      obtain ⟨-, -, -, -, hp, -⟩ : _ ∧ _ ∧ _ ∧ _ ∧ _ ∧ _ := by simpa [toks] using hat
      exact hp
    exact heard_computed ho hks hc hcolon (by simpa [toks] using hat) (ih hp)
  | last e ih =>
    intro hcolon i hi
    obtain ⟨e, es, heq, h⟩ := ih hat hcolon _ (Nat.le_refl _) i hi
    exact ⟨e, by rw [toks, heq]; exact List.mem_cons_self .., h⟩
  | more e comma hcomma es ih ihs =>
    obtain ⟨he, hes⟩ := stands_append.1 hat
    exact heard_more hcomma hat (ih he) (ihs (stands_cons.1 hes).2)

theorem map_text_spots {c : Cat} (t : Binder c) (hat : Stands all n t.toks) :
    (t.spots n).map (Script.ofTokens all).text = t.names := by
  induction t generalizing n with
  | name t ht => simp [spots, names, Script.text_of_stands (stands_cons.1 hat).1]
  | group o c ho hc es ih => exact ih (stands_append.1 (stands_cons.1 hat).2).1
  | hole => rfl
  | rest dots hdots p ih => exact ih (stands_cons.1 hat).2
  | item p d ih => exact ih (stands_append.1 hat).1
  | short t ht d => simp [spots, names, Script.text_of_stands (stands_cons.1 hat).1]
  | keyed k colon hk hcolon p d ih =>
    exact ih (stands_append.1 (stands_cons.1 (stands_cons.1 hat).2).2).1
  | computed o ks c colon ho hks hc hcolon p d ih =>
    obtain ⟨-, -, -, -, hat⟩ : _ ∧ _ ∧ _ ∧ _ ∧ _ := by simpa [toks] using hat
    exact ih hat.1
  | last e ih => exact ih hat
  | more e comma hcomma es ih ihs =>
    obtain ⟨he, hat⟩ := stands_append.1 hat
    rw [spots, names, List.map_append, ih he, ihs (stands_cons.1 hat).2]

end Binder

end MdxLint
