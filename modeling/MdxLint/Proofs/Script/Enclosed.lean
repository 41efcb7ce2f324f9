import MdxLint.Proofs.Script.Joining
import Mathlib.Data.List.Chain

/-! # Texts in templates

A text that can be read can stand in a substitution of a template, and its tokens are the same there,
only further on. One kind of text cannot: behind a piece of a template a slash divides, so a text that
begins with a regular expression is not read there as it is alone.
-/

namespace MdxLint

def inTemplate (code : String) : String := "\x60$\x7b" ++ code ++ "\n\x7d\x60"

/-- The text in so many templates, one in the other. -/
def inTemplates : Nat → String → String
  | 0, code => code
  | n + 1, code => inTemplate (inTemplates n code)

/-- What a token is, and where it begins. -/
def Token.sight (t : Token) : (TokenKind × String) × Nat := (t.content, t.place.offset)

/-- The tokens of a template that has a text of `size` characters in a substitution. -/
def enclosed (size : Nat) (ss : List ((TokenKind × String) × Nat)) :
    List ((TokenKind × String) × Nat) :=
  ((.template, "\x60$\x7b"), 0) :: (ss.map (fun s => (s.1, s.2 + 3)) ++
    [((.template, "\x7d\x60"), size + 4)])

/-- The tokens of a text of `size` characters in so many templates. -/
def enclosedTimes (size : Nat) : Nat → List ((TokenKind × String) × Nat) →
    List ((TokenKind × String) × Nat)
  | 0, ss => ss
  | n + 1, ss => enclosed (size + 6 * n) (enclosedTimes size n ss)

theorem length_inTemplate (code : String) : (inTemplate code).length = code.length + 6 := by
  rw [inTemplate, String.length_append, String.length_append]
  change 3 + code.length + 3 = code.length + 6
  omega

theorem length_inTemplates (n : Nat) (code : String) :
    (inTemplates n code).length = code.length + 6 * n := by
  induction n with
  | zero => rfl
  | succ n ih =>
    rw [inTemplates, length_inTemplate, ih]
    omega

/-! ## Inside of one template -/

theorem map_sight_of_sameFrom {p p' : Place} {ts us : List Token} {k : Nat}
    (h : List.Forall₂ (Reader.Alike.SameFrom p p') ts us) (hk : p'.offset = p.offset + k) :
    us.map Token.sight = (ts.map Token.sight).map fun s => (s.1, s.2 + k) := by
  induction h with
  | nil => rfl
  | cons hfirst _ ih =>
    obtain ⟨hcontent, x, hx, hx'⟩ := hfirst
    have hoffset : (p'.after x).offset = (p.after x).offset + k := by
      rw [Place.offset_after, Place.offset_after, hk]
      omega
    rw [List.map_cons, List.map_cons, List.map_cons, ih, Token.sight, Token.sight, hcontent, hx,
      hx', hoffset]

theorem Reader.tokens_substitutionEnd {s : Reader} {o : Opening} (hs : s.openings = [o])
    (ho : o.bracket = .substitution) :
    s.tokens ['\n', '\x7d', '\x60'] =
      .ok [⟨.template, "\x7d\x60", s.place.after ['\n']⟩] := by
  have hgap : s.tokens (['\n'] ++ ['\x7d', '\x60']) =
      (s.passed ['\n']).tokens ['\x7d', '\x60'] :=
    tokens_gap (List.forall_mem_singleton.2 (by decide))
  have hsub : (s.passed ['\n']).inSubstitution = true := by
    simp [inSubstitution, passed, hs, ho]
  let e : Token := ⟨.template, "\x7d\x60", s.place.after ['\n']⟩
  have hpush : (s.passed ['\n']).push (.token .template) '\x7d' ['\x60'] =
      .ok (some e, ⟨e.place.after ['\x7d', '\x60'], [], some e, false⟩) := by
    simp [push, aroundPiece, passed, hs, e]
  have hend : (s.passed ['\n']).tokens ('\x7d' :: (['\x60'] ++ [])) = _ :=
    tokens_cons (lexeme_ending hsub) hpush
  rw [Reader.tokens] at hend
  exact hgap.trans hend

/-- A text that begins with no regular expression is read in a template as it is alone. -/
theorem scan_inTemplate {code : String} {ts : List Token} (h : scan code = .ok ts)
    (hfirst : ∀ t ∈ ts.head?, t.kind ≠ .regex) :
    ∃ us, scan (inTemplate code) = .ok us ∧
      us.map Token.sight = enclosed code.length (ts.map Token.sight) := by
  -- the reader behind the piece that opens the substitution
  let o : Token := ⟨.template, "\x60$\x7b", Place.origin⟩
  let opening : Opening := ⟨.substitution, Place.origin.after ['\x60'], false⟩
  let r : Reader := ⟨Place.origin.after ['\x60', '$', '\x7b'], [opening], some o, false⟩
  have hopen : scan (inTemplate code) =
      (r.tokens (code.toList ++ '\n' :: ['\x7d', '\x60'])).map ([o] ++ ·) := by
    have hpush : Reader.initial.push .substitution '\x60' ['$', '\x7b'] = .ok (some o, r) := rfl
    have hlist : (inTemplate code).toList =
        '\x60' :: (['$', '\x7b'] ++ (code.toList ++ '\n' :: ['\x7d', '\x60'])) := by
      simp [inTemplate, String.toList_append]
    rw [scan, hlist]
    exact Reader.tokens_cons Reader.lexeme_opening hpush
  -- what stands behind that piece, with places as if it stood at the beginning
  let fresh := Reader.initial.behindToken o
  have hfresh : fresh.tokens code.toList = .ok ts :=
    Reader.tokens_behindToken rfl (by simp [o]) h (.inr hfirst)
  obtain ⟨s, hs, hplace, hread⟩ := Reader.exists_reader_amid hfresh
  let e : Token := ⟨.template, "\x7d\x60", (Place.origin.after code.toList).after ['\n']⟩
  have hend : (s.amid [opening]).tokens ['\n', '\x7d', '\x60'] = .ok [e] := by
    have hopenings : (s.amid [opening]).openings = [opening] := by simp [Reader.amid, hs]
    rw [Reader.tokens_substitutionEnd hopenings rfl, Reader.amid, hplace]
    rfl
  have hall : (fresh.amid [opening]).tokens (code.toList ++ '\n' :: ['\x7d', '\x60']) =
      .ok (ts ++ [e]) := by
    rw [hread, hend]
    rfl
  -- the reader knows the same where it stands in the template
  have halike : (fresh.amid [opening]).Alike r := ⟨rfl, rfl, rfl⟩
  obtain ⟨us, hus, hsame⟩ := halike.tokens_sameFrom hall
  refine ⟨o :: us, by rw [hopen, hus]; rfl, ?_⟩
  have he : e.sight = ((.template, "\x7d\x60"), code.length + 1) := by
    rw [Token.sight, Place.offset_after, Place.offset_after, String.length_toList]
    exact congrArg (Prod.mk _) (by simp [Place.origin])
  rw [List.map_cons, map_sight_of_sameFrom hsame (k := 3) rfl, List.map_append, List.map_append,
    List.map_singleton, List.map_singleton, he]
  rfl

/-! ## Behind a piece of a template -/

namespace Reader

variable {r r' : Reader} {c : Char} {cs tail : List Char} {piece : Lexeme} {ts : List Token}
  {token : Option Token}

theorem isChain_of_tokens (h : r.tokens cs = .ok ts) :
    List.IsChain (fun t u : Token => t.kind = .template → u.kind ≠ .regex)
      (r.last.toList ++ ts) := by
  refine tokens_induction (motive := fun r _ ts =>
    List.IsChain (fun t u : Token => t.kind = .template → u.kind ≠ .regex)
      (r.last.toList ++ ts)) ?_ ?_ h
  · intro r _
    cases r.last with
    | none => exact .nil
    | some t => exact .singleton t
  · intro r r' c tail piece token rest hl hp ih
    rw [last_of_push hp] at ih
    cases token with
    | none => exact ih
    | some t =>
      have hbehind : ∀ u ∈ r.last, u.kind = .template → t.kind ≠ .regex := by
        intro u hu hk ht
        have hshape := shape_of_push hp (by simp [ht])
        have hallowed := regexAllowed_of_lexeme hl (ht ▸ hshape)
        rw [regexAllowed, hu] at hallowed
        simp [hk] at hallowed
      cases hu : r.last with
      | none => exact ih
      | some u => exact .cons_cons (hbehind u hu) ih

end Reader

/-- A text that begins with a regular expression is not read in templates as it is alone. -/
theorem not_isChain_enclosedTimes {ss : List ((TokenKind × String) × Nat)}
    (hfirst : ∃ s ∈ ss.head?, s.1.1 = .regex) (size n : Nat) :
    ¬List.IsChain (fun s s' : (TokenKind × String) × Nat => s.1.1 = .template → s'.1.1 ≠ .regex)
      (enclosedTimes size (n + 1) ss) := by
  induction n with
  | zero =>
    obtain ⟨s, hs, hk⟩ := hfirst
    obtain ⟨rest, rfl⟩ := List.head?_eq_some_iff.1 hs
    intro h
    exact (List.isChain_cons_cons.1 h).1 rfl hk
  | succ n ih =>
    intro h
    have hinner := (List.IsChain.tail h).left_of_append
    exact ih ((List.isChain_map _).1 hinner)

theorem ne_regex_of_mem_enclosedTimes {ss : List ((TokenKind × String) × Nat)}
    (hfirst : ∀ s ∈ ss.head?, s.1.1 ≠ .regex) (size n : Nat) :
    ∀ s ∈ (enclosedTimes size n ss).head?, s.1.1 ≠ .regex := by
  cases n with
  | zero => exact hfirst
  | succ n =>
    intro s hs
    cases hs
    nofun

/-! ## Inside of many templates -/

/-- In templates a text is read as it is alone, iff it does not begin with a regular expression. -/
theorem scan_inTemplates_iff {code : String} {ts : List Token} (h : scan code = .ok ts) (n : Nat) :
    (∃ us, scan (inTemplates n code) = .ok us ∧
      us.map Token.sight = enclosedTimes code.length n (ts.map Token.sight)) ↔
    n = 0 ∨ ∀ t ∈ ts.head?, t.kind ≠ .regex := by
  constructor
  · rintro ⟨us, hus, hsight⟩
    cases n with
    | zero => exact .inl rfl
    | succ n =>
      refine .inr fun t ht hk => ?_
      have hchain := Reader.isChain_of_tokens hus
      have hfirst : ∃ s ∈ (ts.map Token.sight).head?, s.1.1 = .regex :=
        ⟨t.sight, by rw [List.head?_map, ht]; rfl, hk⟩
      refine not_isChain_enclosedTimes hfirst code.length n ?_
      rw [← hsight, List.isChain_map]
      exact hchain
  · intro hn
    induction n with
    | zero => exact ⟨ts, h, rfl⟩
    | succ n ih =>
      have hfirst := hn.resolve_left (Nat.succ_ne_zero n)
      obtain ⟨us, hus, hsight⟩ := ih (.inr hfirst)
      have hfirst' : ∀ s ∈ (ts.map Token.sight).head?, s.1.1 ≠ .regex := by
        intro s hs
        rw [List.head?_map] at hs
        obtain ⟨t, ht, rfl⟩ := Option.map_eq_some_iff.1 hs
        exact hfirst t ht
      have hhead : ∀ u ∈ us.head?, u.kind ≠ .regex := by
        intro u hu
        refine ne_regex_of_mem_enclosedTimes hfirst' code.length n u.sight ?_
        rw [← hsight, List.head?_map, hu]
        rfl
      obtain ⟨us', hus', hsight'⟩ := scan_inTemplate hus hhead
      refine ⟨us', hus', ?_⟩
      rw [hsight', hsight, length_inTemplates]
      rfl

/-- Inside of a call a regular expression is read in two templates as it is alone; at the beginning
of a substitution it comes apart. -/
theorem scan_inTemplates_iff_regex :
    scan "f(/a/)" = .ok [⟨.name, "f", ⟨0, 1, 1⟩⟩, ⟨.punctuator, "(", ⟨1, 1, 2⟩⟩,
      ⟨.regex, "/a/", ⟨2, 1, 3⟩⟩, ⟨.punctuator, ")", ⟨5, 1, 6⟩⟩] ∧
    (∃ us, scan (inTemplates 2 "f(/a/)") = .ok us ∧
      us.map Token.sight = [((.template, "\x60$\x7b"), 0), ((.template, "\x60$\x7b"), 3),
        ((.name, "f"), 6), ((.punctuator, "("), 7), ((.regex, "/a/"), 8), ((.punctuator, ")"), 11),
        ((.template, "\x7d\x60"), 13), ((.template, "\x7d\x60"), 16)]) ∧
    scan "/a/" = .ok [⟨.regex, "/a/", ⟨0, 1, 1⟩⟩] ∧
    ¬∃ us, scan (inTemplates 1 "/a/") = .ok us ∧
      us.map Token.sight = [((.template, "\x60$\x7b"), 0), ((.regex, "/a/"), 3),
        ((.template, "\x7d\x60"), 7)] := by
  have hcall : scan "f(/a/)" = .ok [⟨.name, "f", ⟨0, 1, 1⟩⟩, ⟨.punctuator, "(", ⟨1, 1, 2⟩⟩,
      ⟨.regex, "/a/", ⟨2, 1, 3⟩⟩, ⟨.punctuator, ")", ⟨5, 1, 6⟩⟩] := by decide +kernel
  have halone : scan "/a/" = .ok [⟨.regex, "/a/", ⟨0, 1, 1⟩⟩] := by decide +kernel
  refine ⟨hcall, (scan_inTemplates_iff hcall 2).2 (.inr (by decide)), halone, fun h => ?_⟩
  rcases (scan_inTemplates_iff halone 1).1 h with h | h
  · cases h
  · exact h _ rfl rfl

end MdxLint
