import MdxLint.Proofs.Script.Truncation

/-! # The lexical grammar

Each token of a scanned text obeys the grammar of its kind, and where the grammar allows more than
one token at its place, it is the longest one.
-/

namespace MdxLint

/-- A name or keyword: it begins with a character that may begin a name, or with an escape. -/
def IsName (x : List Char) : Prop :=
  Lexeme.NameRun x ∧
    ∃ c ∈ x.head?, isDigitLike c = false ∧ (Lexeme.isNameStart c = true ∨ c = '\\')

/-- The text is a token of the kind where it stands in front of `behind`. -/
inductive Lexical : TokenKind → List Char → List Char → Prop
  | name {text behind : List Char} (h : IsName text) (hk : String.ofList text ∉ keywords)
      (hmax : Maximal Lexeme.NameRun text behind) : Lexical .name text behind
  | keyword {text behind : List Char} (h : IsName text) (hk : String.ofList text ∈ keywords)
      (hmax : Maximal Lexeme.NameRun text behind) : Lexical .keyword text behind
  | string {text behind : List Char} (h : IsString text) : Lexical .string text behind
  | template {text behind : List Char} (h : IsPiece text) : Lexical .template text behind
  | regex {text behind : List Char} (h : IsRegex text)
      (hflags : ∀ c ∈ behind.head?, Lexeme.isFlag c = false) : Lexical .regex text behind
  | number {text behind : List Char} (hmax : Maximal Lexeme.IsNumeral text behind) :
      Lexical .number text behind
  | digit {c : Char} {behind : List Char}
      (hc : isDigitLike c = true ∨ c = '.' ∧ behind.head?.any isDigitLike = true)
      (hnone : ∀ x, Lexeme.IsNumeral x → ¬x <+: c :: behind) : Lexical .number [c] behind
  | punctuator {text behind : List Char} (hmax : Maximal (· ∈ Lexeme.punctuators) text behind)
      (hpoint : text = ['?', '.'] → behind.head?.any isDigitLike = false) :
      Lexical .punctuator text behind
  | question {d : Char} {behind : List Char} (hd : isDigitLike d = true) :
      Lexical .punctuator ['?'] ('.' :: d :: behind)

namespace Reader

variable {r r' : Reader} {c : Char} {cs tail : List Char} {piece : Lexeme} {t : Token}
  {ts : List Token}

theorem startsWord_of_isName {x : List Char} (h : IsName (c :: x)) (y : List Char) :
    startsWord c (x ++ y).head? = true := by
  obtain ⟨hrun, d, hd, hdigit, hstart⟩ := h
  obtain rfl := Option.some.inj hd
  rw [startsWord, hdigit, Bool.not_false, Bool.true_and, Bool.or_eq_true]
  refine hstart.imp_right ?_
  rintro rfl
  generalize hx : '\\' :: x = cs at hrun
  cases hrun with
  | nil => cases hx
  | char hpart =>
    obtain ⟨rfl, -⟩ := List.cons.inj hx
    exact absurd hpart (by decide +kernel)
  | escape he =>
    obtain ⟨rest, rfl⟩ := Lexeme.isEscape_ne_nil he
    obtain ⟨-, rfl⟩ := List.cons.inj hx
    rfl

section Kinds

variable {n : Nat} {kind : TokenKind}

theorem lexical_string (hc : c = '\'' ∨ c = '"') (h : Lexeme.quoted c tail = some n) :
    Lexical .string (c :: tail.take n) (tail.drop n) := by
  have hslash := Lexeme.ne_backslash_of_quote hc
  obtain ⟨body, rest, rfl, hbody, rfl⟩ := (Lexeme.quoted_eq_some_iff hslash).1 h
  have htake : (body ++ c :: rest).take (body.length + 1) = body ++ [c] := by
    rw [List.take_length_add_append, List.take_succ_cons, List.take_zero]
  rw [htake]
  exact .string (.intro hc hbody)

theorem lexical_template (hc : c = '\x60' ∨ c = '\x7d') {e : Lexeme.TemplateEnd}
    (h : Lexeme.template tail = some (n, e)) :
    Lexical .template (c :: tail.take n) (tail.drop n) := by
  obtain ⟨body, rest, rfl, hbody, rfl⟩ := Lexeme.template_eq_some_iff.1 h
  rw [List.take_length_add_append, List.take_left]
  exact .template (.intro hc hbody e)

theorem lexical_regex (h : Lexeme.regex false tail = some n) :
    Lexical .regex ('/' :: tail.take n) (tail.drop n) := by
  obtain ⟨body, rest, rfl, hbody, rfl⟩ := Lexeme.regex_false_eq_some_iff.1 h
  rw [Nat.add_assoc, Nat.add_comm 1, List.take_length_add_append, List.drop_length_add_append,
    List.take_succ_cons, List.drop_succ_cons]
  exact .regex (.intro hbody fun d => Lexeme.mem_take_run) (Lexeme.head?_drop_run _ _)

theorem lexical_number
    (hc : isDigitLike c = true ∨ c = '.' ∧ tail.head?.any isDigitLike = true) :
    Lexical .number (c :: tail.take (Lexeme.number (c :: tail) - 1))
      (tail.drop (Lexeme.number (c :: tail) - 1)) := by
  rw [Lexeme.number_eq]
  cases h : Lexeme.numeral (c :: tail) with
  | none => exact .digit hc fun x => Lexeme.measures_numeral.not_prefix h
  | some n =>
    have hmax := Lexeme.measures_numeral.maximal h
    cases n with
    | zero => exact absurd hmax.mem Lexeme.not_isNumeral_nil
    | succ n => exact .number hmax

theorem isName_of_name (hs : startsWord c tail.head? = true)
    (h : Lexeme.name (c :: tail) = n + 1) :
    IsName (c :: tail.take n) ∧ Maximal Lexeme.NameRun (c :: tail.take n) (tail.drop n) := by
  have hmax := Lexeme.measures_nameRun.maximal (congrArg some h)
  obtain ⟨hdigit, hstart⟩ := startsWord_cases hs
  exact ⟨⟨hmax.mem, c, rfl, hdigit, hstart.imp_right fun h => h.2.1⟩, hmax⟩

theorem lexical_punctuator (h : Lexeme.punctuator (c :: tail) = some n) :
    Lexical .punctuator (c :: tail.take (n - 1)) (tail.drop (n - 1)) := by
  obtain ⟨p, hp, rfl⟩ := Option.map_eq_some_iff.1 h
  have hmax := Lexeme.measures_punctuators.maximal (congrArg (Option.map _) hp)
  have hfront := List.find?_some hp
  rw [List.isPrefixOf_iff_prefix] at hfront
  obtain ⟨d, q, rfl⟩ : ∃ d q, p = d :: q := by
    cases p with
    | nil => exact absurd (List.mem_of_find?_eq_some hp) (by decide)
    | cons d q => exact ⟨d, q, rfl⟩
  obtain ⟨rfl, rest, rfl⟩ := List.cons_prefix_cons.1 hfront
  rw [List.length_cons, List.take_succ_cons, List.drop_succ_cons] at hmax
  by_cases hpoint :
      (d :: q = ['?', '.'] && ((d :: (q ++ rest)).drop 2).head?.any isDigitLike) = true
  · rw [if_pos hpoint]
    rw [Bool.and_eq_true, decide_eq_true_eq] at hpoint
    obtain ⟨heq, hdigit⟩ := hpoint
    cases heq
    cases rest with
    | nil => cases hdigit
    | cons e rest => exact .question hdigit
  · rw [if_neg hpoint]
    refine .punctuator hmax fun htext => ?_
    rw [List.length_cons, Nat.add_sub_cancel, List.take_left] at htext
    cases htext
    simpa using hpoint

end Kinds

theorem lexical_of_push (hl : r.lexeme c tail = .ok piece)
    (hp : r.push piece.shape c (tail.take piece.extra) = .ok (some t, r')) :
    Lexical t.kind (c :: tail.take piece.extra) (tail.drop piece.extra) := by
  have hkind := kind?_of_push hp
  generalize t.kind = kind at hkind ⊢
  cases lexes_of_lexeme hl with
  | space | line | block => cases hkind
  | string hc hn =>
    cases hkind
    exact lexical_string hc hn
  | closed hc hn | substitution hc hn =>
    cases hkind
    exact lexical_template (hc.imp_right And.left) hn
  | regex hc _ hn =>
    subst hc
    cases hkind
    exact lexical_regex hn
  | number hc =>
    cases hkind
    exact lexical_number hc
  | keyword hstart hn hk =>
    cases hkind
    obtain ⟨hname, hmax⟩ := isName_of_name hstart hn
    exact .keyword hname hk hmax
  | name hstart hn hk =>
    cases hkind
    obtain ⟨hname, hmax⟩ := isName_of_name hstart hn
    exact .name hname hk hmax
  | sign _ hn =>
    cases hkind
    exact lexical_punctuator hn

theorem lexical_of_tokens (h : r.tokens cs = .ok ts) : ∀ t ∈ ts, ∃ front behind,
    cs = front ++ (t.text.toList ++ behind) ∧ t.place = r.place.after front ∧
      Lexical t.kind t.text.toList behind := by
  refine tokens_induction (motive := fun r cs ts => ∀ t ∈ ts, ∃ front behind,
    cs = front ++ (t.text.toList ++ behind) ∧ t.place = r.place.after front ∧
      Lexical t.kind t.text.toList behind) ?_ ?_ h
  · intro r _ t ht
    cases ht
  · intro r r' c tail piece token rest hl hp ih t ht
    have hall : c :: tail = (c :: tail.take piece.extra) ++ tail.drop piece.extra := by simp
    obtain ⟨hplace, hstep⟩ := push_cases hl hp
    rcases List.mem_append.1 ht with ht | ht
    · obtain rfl := Option.mem_toList.1 ht
      obtain ⟨-, htoken, -⟩ | ⟨u, htoken, htext, hat, -⟩ := hstep
      · cases htoken
      · cases htoken
        rw [htext, String.toList_ofList]
        exact ⟨[], _, hall, hat, lexical_of_push hl hp⟩
    · obtain ⟨front, behind, hcs, hat, hlexical⟩ := ih t ht
      refine ⟨c :: tail.take piece.extra ++ front, behind, ?_, ?_, hlexical⟩
      · rw [List.append_assoc, ← hcs]
        exact hall
      · rw [hat, hplace, Place.after_append]

end Reader

/-- Each token of a scanned text stands there with the longest text that the grammar of its kind
allows at its place. -/
theorem lexical_of_scan {code : String} {ts : List Token} (h : scan code = .ok ts) :
    ∀ t ∈ ts, ∃ front behind, code.toList = front ++ (t.text.toList ++ behind) ∧
      t.place.offset = front.length ∧ Lexical t.kind t.text.toList behind := by
  intro t ht
  obtain ⟨front, behind, hcode, hplace, hlexical⟩ := Reader.lexical_of_tokens h t ht
  refine ⟨front, behind, hcode, ?_, hlexical⟩
  rw [hplace, Place.offset_after]
  exact Nat.zero_add _

/-- A text with tokens of every kind, and with digits behind a question mark and a point. -/
def everyKind : String := "if (a?.5:1n) /[/]\\//g.test(\x60t$\x7bb\x7d\x60) || '\\''"

theorem lexical_of_scan_everyKind :
    ∃ ts, scan everyKind = .ok ts ∧
      ts.map Token.content =
        [(.keyword, "if"), (.punctuator, "("), (.name, "a"), (.punctuator, "?"), (.number, ".5"),
          (.punctuator, ":"), (.number, "1n"), (.punctuator, ")"), (.regex, "/[/]\\//g"),
          (.punctuator, "."), (.name, "test"), (.punctuator, "("), (.template, "\x60t$\x7b"),
          (.name, "b"), (.template, "\x7d\x60"), (.punctuator, ")"), (.punctuator, "||"),
          (.string, "'\\''")] ∧
      ∀ t ∈ ts, ∃ front behind, everyKind.toList = front ++ (t.text.toList ++ behind) ∧
        t.place.offset = front.length ∧ Lexical t.kind t.text.toList behind := by
  have hread : (scan everyKind).map (List.map Token.content) =
      .ok [(.keyword, "if"), (.punctuator, "("), (.name, "a"), (.punctuator, "?"), (.number, ".5"),
        (.punctuator, ":"), (.number, "1n"), (.punctuator, ")"), (.regex, "/[/]\\//g"),
        (.punctuator, "."), (.name, "test"), (.punctuator, "("), (.template, "\x60t$\x7b"),
        (.name, "b"), (.template, "\x7d\x60"), (.punctuator, ")"), (.punctuator, "||"),
        (.string, "'\\''")] := by decide +kernel
  cases h : scan everyKind with
  | error e =>
    rw [h] at hread
    cases hread
  | ok ts =>
    rw [h] at hread
    exact ⟨ts, rfl, Except.ok.inj hread, lexical_of_scan h⟩

end MdxLint
