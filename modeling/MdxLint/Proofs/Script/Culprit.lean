import MdxLint.Proofs.Script.Lexical
import MdxLint.Proofs.Script.Unclosed

/-! # Where a fault is

A text that cannot be scanned is told by a fault and the place of its culprit: what stands there is
what the fault names, and the text in front of it has no fault but brackets that stay open.
-/

namespace MdxLint

/-- The text is read to its end as these tokens. -/
def ReadsTo (front : List Char) (ts : List Token) : Prop :=
  ∃ s, Reader.Passes [] Reader.initial front ts s

/-- The text is scanned, or has no fault but a bracket that stays open. -/
def Readable (front : List Char) : Prop :=
  (∃ ts, scan (String.ofList front) = .ok ts) ∨
    ∃ o p, scan (String.ofList front) = .error ⟨.unclosed o, p⟩

/-- The fault of a text at whose front no lexeme can be read. -/
inductive Broken : ScanFault → List Char → Prop
  | comment {rest : List Char} (h : ¬['*', '/'] <:+: rest) :
      Broken .unterminatedComment ('/' :: '*' :: rest)
  | string {quote : Char} {rest : List Char} (hquote : quote = '\'' ∨ quote = '"')
      (h : ∀ x, IsString x → ¬x <+: quote :: rest) : Broken .unterminatedString (quote :: rest)
  | template {c : Char} {rest : List Char} (hc : c = '\x60' ∨ c = '\x7d')
      (h : ∀ x, IsPiece x → ¬x <+: c :: rest) : Broken .unterminatedTemplate (c :: rest)
  | regex {rest : List Char} (h : ∀ x, IsRegex x → ¬x <+: '/' :: rest) :
      Broken .unterminatedRegex ('/' :: rest)
  | escape {rest : List Char} (h : ∀ x, Lexeme.IsEscape x → ¬x <+: '\\' :: 'u' :: rest) :
      Broken .invalidEscape ('\\' :: 'u' :: rest)
  | unexpected {c : Char} {rest : List Char} (hblank : isBlank c = false ∧ c ≠ '\ufeff')
      (h : ∀ kind x behind, c :: rest = x ++ behind → ¬Lexical kind x behind) :
      Broken (.unexpected c) (c :: rest)

/-- What the fault names stands between `front` and the rest of the text. -/
inductive Culprit : ScanFault → List Char → List Char → Prop
  | broken {fault : ScanFault} {front back : List Char} (h : Broken fault back)
      (hresumes : back.head? = some '\x7d' →
        ∃ ts t, ReadsTo front ts ∧ Innermost ts t .substitution) : Culprit fault front back
  | unbalanced {b : Bracket} {front rest : List Char} {ts : List Token} (hb : b ≠ .substitution)
      (hts : ReadsTo front ts)
      (h : Path ts [] [] ∨ ∃ t b', Innermost ts t b' ∧ b'.closer ≠ b.closer) :
      Culprit (.unbalanced b.closer) front (b.closer.toList ++ rest)
  | unclosed {b : Bracket} {front rest : List Char} {ts : List Token} {t : Token}
      (hts : ReadsTo (front ++ (b.opener.toList ++ rest)) ts) (h : Innermost ts t b)
      (ht : t.stop = front.length + b.opener.length) :
      Culprit (.unclosed b.opener) front (b.opener.toList ++ rest)

/-- The place and the message of a fault behind `front` in a text. -/
structure PointsBehind (e : ScanError) (front : List Char) : Prop where
  offset : e.place.offset = front.length
  line : e.place.line = 1 + front.count '\n'
  column : e.place.column = front.length - lastLine front + 1
  message : e.message =
    e.fault.describe ++ " at line " ++ toString e.place.line ++ ", column " ++
      toString e.place.column

section Faults

variable {e : ScanError} {fault : ScanFault} {front back : List Char}

theorem pointsBehind (h : e.place = Place.origin.after front) : PointsBehind e front where
  offset := by
    rw [h, Place.offset_after]
    exact Nat.zero_add _
  line := by rw [h, Place.line_after, Place.origin]
  column := by rw [h, column_after_origin]
  message := by
    rw [ScanError.message, Place.describe]
    simp only [String.append_assoc]
    rfl

theorem Culprit.ne_nil (h : Culprit fault front back) : back ≠ [] := by
  cases h with
  | broken h => cases h <;> exact List.cons_ne_nil _ _
  | @unbalanced b => cases b <;> exact List.cons_ne_nil _ _
  | @unclosed b => cases b <;> exact List.cons_ne_nil _ _

end Faults

namespace Reader

variable {r r' s : Reader} {c : Char} {tail front behind : List Char} {piece : Lexeme}
  {fault : ScanFault} {ts : List Token}

theorem Passes.readable (h : Passes [] initial front ts s) : Readable front := by
  have hscan : scan (String.ofList front) = (s.tokens []).map (ts ++ ·) := by
    rw [scan, String.toList_ofList, ← h.tokens_eq, List.append_nil]
  rw [Readable, hscan, tokens]
  cases s.openings with
  | nil => exact .inl ⟨_, rfl⟩
  | cons o os => exact .inr ⟨_, _, rfl⟩

section Signs

/-- A character that no other lexeme begins with starts no token if it starts no punctuator. -/
theorem not_lexical (hbegins : r.Begins c tail.head? .sign)
    (hnone : Lexeme.punctuator (c :: tail) = none) {kind : TokenKind} {x : List Char}
    (hx : c :: tail = x ++ behind) : ¬Lexical kind x behind := by
  intro h
  have hpunct : ∀ p ∈ Lexeme.punctuators, ¬p <+: c :: tail := by
    intro p hp
    refine Lexeme.measures_punctuators.not_prefix ?_ hp
    rw [Lexeme.punctuator, Option.map_eq_none_iff] at hnone
    rw [hnone, Option.map_none]
  have hne {d : Char} (hd : [d] ∈ Lexeme.punctuators) : c ≠ d := by
    rintro rfl
    exact hpunct _ hd ⟨tail, rfl⟩
  cases hbegins with
  | sign hblank hquote hbrace hdigit hword =>
    have hname (h : IsName x) : False := by
      obtain ⟨d, hd, -⟩ := h.2
      obtain ⟨x, rfl⟩ := List.head?_eq_some_iff.1 hd
      obtain ⟨rfl, rfl⟩ := List.cons.inj hx
      have hstarts := startsWord_of_isName h behind
      rw [List.append_eq, hstarts] at hword
      cases hword
    cases h with
    | name h | keyword h => exact hname h
    | string h =>
      cases h with
      | intro hq =>
        obtain ⟨rfl, -⟩ := List.cons.inj hx
        rcases hq with rfl | rfl
        · exact hquote (by decide)
        · exact hquote (by decide)
    | template h =>
      cases h with
      | intro hc =>
        obtain ⟨rfl, -⟩ := List.cons.inj hx
        rcases hc with rfl | rfl
        · exact hquote (by decide)
        · exact hne (by decide +kernel) rfl
    | regex h =>
      cases h with
      | intro =>
        obtain ⟨rfl, -⟩ := List.cons.inj hx
        exact hne (by decide +kernel) rfl
    | number hmax =>
      obtain ⟨d, hd, hc⟩ := hmax.mem.exists_head
      obtain ⟨x, rfl⟩ := List.head?_eq_some_iff.1 hd
      obtain ⟨rfl, -⟩ := List.cons.inj hx
      rcases hc with hc | rfl
      · exact hdigit (.inl hc)
      · exact hne (by decide +kernel) rfl
    | digit hc =>
      obtain ⟨rfl, rfl⟩ := List.cons.inj hx
      exact hdigit hc
    | punctuator hmax => exact hpunct x hmax.mem ⟨behind, hx.symm⟩
    | question =>
      obtain ⟨rfl, -⟩ := List.cons.inj hx
      exact hne (by decide +kernel) rfl

end Signs

section Lexemes

theorem broken_block (h : Lexeme.blockComment tail = none) :
    Broken .unterminatedComment ('/' :: '*' :: tail) :=
  .comment (Lexeme.blockComment_eq_none_iff.1 h)

theorem broken_string (hc : c = '\'' ∨ c = '"') (h : Lexeme.quoted c tail = none) :
    Broken .unterminatedString (c :: tail) := by
  refine .string hc fun x hx => ?_
  rintro ⟨rest, hrest⟩
  cases hx with
  | intro _ hbody =>
    obtain ⟨rfl, rfl⟩ := List.cons.inj hrest
    have hslash := Lexeme.ne_backslash_of_quote hc
    have hread := (Lexeme.quoted_eq_some_iff hslash).2 ⟨_, rest, rfl, hbody, rfl⟩
    rw [List.append_eq, List.append_assoc, List.singleton_append, hread] at h
    cases h

theorem broken_template (hc : c = '\x60' ∨ c = '\x7d') (h : Lexeme.template tail = none) :
    Broken .unterminatedTemplate (c :: tail) := by
  refine .template hc fun x hx => ?_
  rintro ⟨rest, hrest⟩
  cases hx with
  | intro _ hbody e =>
    obtain ⟨rfl, rfl⟩ := List.cons.inj hrest
    have hread := (Lexeme.template_eq_some_iff (e := e)).2 ⟨_, rest, rfl, hbody, rfl⟩
    rw [List.append_eq, List.append_assoc, hread] at h
    cases h

theorem broken_regex (h : Lexeme.regex false tail = none) :
    Broken .unterminatedRegex ('/' :: tail) := by
  refine .regex fun x hx => ?_
  rintro ⟨rest, hrest⟩
  cases hx with
  | @intro body flags hbody =>
    obtain ⟨-, rfl⟩ := List.cons.inj hrest
    rw [Lexeme.regex_false_eq_some_iff.2 ⟨body, flags ++ rest, by simp, hbody, rfl⟩] at h
    cases h

theorem broken_word (hs : startsWord c tail.head? = true) (h : word (c :: tail) = .error fault) :
    Broken fault (c :: tail) := by
  unfold word at h
  split at h
  case h_2 => cases h
  case h_1 hn =>
    cases h
    have hnone {x : List Char} (hx : Lexeme.NameRun x) (hfront : x <+: c :: tail) : x = [] := by
      obtain ⟨y, hy⟩ := hfront
      rw [← hy, Lexeme.name_nameRun_append hx] at hn
      exact List.eq_nil_of_length_eq_zero (by omega)
    obtain ⟨-, hstart | ⟨-, rfl, hnext⟩⟩ := startsWord_cases hs
    · have hpart := Lexeme.isNamePart_of_isNameStart hstart
      cases hnone (.char hpart .nil) ⟨tail, rfl⟩
    · obtain ⟨rest, rfl⟩ := List.head?_eq_some_iff.1 hnext
      refine .escape fun x hx hfront => ?_
      -- a complete escape would be a name
      have hrun := Lexeme.NameRun.escape hx .nil
      rw [List.append_nil] at hrun
      obtain ⟨rest', rfl⟩ := Lexeme.isEscape_ne_nil hx
      cases hnone hrun hfront

theorem broken_of_lexeme (hl : r.lexeme c tail = .error fault) : Broken fault (c :: tail) := by
  rw [lexeme_eq_readAs] at hl
  have hbegins : r.Begins c tail.head? (r.lead c tail.head?) := begins_lead
  generalize r.lead c tail.head? = l at hl hbegins
  cases hbegins with
  | space | line | number => cases hl
  | block hc hnext =>
    subst hc
    obtain ⟨tail, rfl⟩ := List.head?_eq_some_iff.1 hnext
    simp only [readAs, List.drop_one, List.tail_cons] at hl
    split at hl
    case h_1 hn =>
      cases hl
      exact broken_block hn
    case h_2 => cases hl
  | string hc =>
    simp only [readAs] at hl
    split at hl
    case h_1 hn =>
      cases hl
      exact broken_string hc hn
    case h_2 => cases hl
  | piece hc =>
    simp only [readAs, templatePiece] at hl
    split at hl
    case h_1 hn =>
      cases hl
      exact broken_template (hc.imp_right And.left) hn
    case h_2 | h_3 => cases hl
  | regex hc =>
    subst hc
    simp only [readAs] at hl
    split at hl
    case h_1 hn =>
      cases hl
      exact broken_regex hn
    case h_2 => cases hl
  | word hs => exact broken_word hs hl
  | sign hblank hquote hbrace hdigit hword =>
    simp only [readAs] at hl
    split at hl
    case h_1 hn =>
      cases hl
      have hsign : r.Begins c tail.head? .sign := .sign hblank hquote hbrace hdigit hword
      rw [not_or, Bool.not_eq_true] at hblank
      exact .unexpected hblank fun kind x behind hx => not_lexical hsign hn hx
    case h_2 => cases hl

theorem inSubstitution_of_lexeme_error (h : r.lexeme '\x7d' tail = .error fault) :
    r.inSubstitution = true := by
  by_contra hn
  have hd : isDigitLike '\x7d' = false := by decide
  have hb : isBlank '\x7d' = false := by decide
  have hns : Lexeme.isNameStart '\x7d' = false := by decide
  simp [lexeme, hd, hb, hns, hn] at h
  split at h
  case h_1 hnone =>
    rw [Lexeme.punctuator, Option.map_eq_none_iff, List.find?_eq_none] at hnone
    exact hnone ['\x7d'] (by decide +kernel) rfl
  case h_2 => cases h

theorem not_digit_of_broken (h : Broken fault (c :: tail)) : isDigitLike c = false := by
  cases h with
  | comment | regex | escape => decide
  | string hc | template hc => rcases hc with rfl | rfl <;> decide
  | unexpected _ h =>
    rw [← Bool.not_eq_true]
    intro hc
    have hnumber : Lexical .number (c :: tail.take _) (tail.drop _) := lexical_number (.inl hc)
    exact h _ _ _ (by simp) hnumber

end Lexemes

section Closers

theorem closer_of_ofCloser? {text : String} {b : Bracket} (h : Bracket.ofCloser? text = some b) :
    text = b.closer := by
  unfold Bracket.ofCloser? at h
  split at h <;> cases h <;> rfl

/-- Only a closing bracket that does not fit the innermost open one is read but not accepted. -/
theorem unbalanced_of_push {shape : Shape} {more : List Char}
    (h : r.push shape c more = .error fault) :
    shape = .token .punctuator ∧ ∃ b, Bracket.ofCloser? (String.ofList (c :: more)) = some b ∧
      fault = .unbalanced b.closer ∧ ∀ o ∈ r.openings.head?, o.bracket ≠ b := by
  unfold push at h
  dsimp only at h
  split at h
  case h_2 =>
    refine ⟨rfl, ?_⟩
    rcases hr : r.pushPunctuator _ _ with f | s
    · rw [hr] at h
      cases h
      unfold pushPunctuator at hr
      split at hr
      case h_1 => cases hr
      case h_3 => cases hr
      case h_2 b _ hb =>
        refine ⟨b, hb, ?_⟩
        rw [← closer_of_ofCloser? hb]
        split at hr
        case h_1 o os ho =>
          split at hr
          case isTrue => cases hr
          case isFalse hne =>
            cases hr
            rw [ho]
            exact ⟨rfl, by rintro _ ⟨⟩; exact hne⟩
        case h_2 ho =>
          cases hr
          rw [ho]
          exact ⟨rfl, by rintro _ ⟨⟩⟩
    · rw [hr] at h
      cases h
  all_goals cases h

theorem closer_ne {b b' : Bracket} (hb : b ≠ .substitution) (hne : b' ≠ b)
    (hcurly : b = .curly → b' ≠ .substitution) : b'.closer ≠ b.closer := by
  cases b <;> cases b' <;> simp_all [Bracket.closer]

theorem exists_closer (hl : r.lexeme c tail = .ok piece)
    (hp : r.push piece.shape c (tail.take piece.extra) = .error fault) :
    ∃ (b : Bracket) (rest : List Char), b ≠ .substitution ∧ fault = .unbalanced b.closer ∧
      c :: tail = b.closer.toList ++ rest ∧
      ∀ o ∈ r.openings.head?, o.bracket.closer ≠ b.closer := by
  obtain ⟨hshape, b, hb, hfault, hfits⟩ := unbalanced_of_push hp
  have hsub := ne_substitution_of_ofCloser? hb
  have htext : c :: tail.take piece.extra = b.closer.toList := by
    rw [← closer_of_ofCloser? hb, String.toList_ofList]
  refine ⟨b, tail.drop piece.extra, hsub, hfault, ?_, ?_⟩
  · rw [← htext, List.cons_append, List.take_append_drop]
  · intro o ho
    refine closer_ne hsub (hfits o ho) ?_
    rintro rfl hinner
    obtain rfl : c = '\x7d' := (List.cons.inj htext).1
    obtain ⟨os, hopenings⟩ := List.head?_eq_some_iff.1 ho
    have hin := not_inSubstitution_of_shape hl hshape
    rw [inSubstitution, hopenings] at hin
    dsimp only at hin
    rw [hinner] at hin
    cases hin

end Closers

section Stuck

variable {back : List Char} {e : ScanError}

theorem Stuck.not_digit (h : Stuck s back e) : ∀ d ∈ back.head?, isDigitLike d = false := by
  cases h with
  | unclosed => rintro _ ⟨⟩
  | lexeme hl =>
    rintro _ ⟨⟩
    exact not_digit_of_broken (broken_of_lexeme hl)
  | push hl hp =>
    obtain ⟨b, rest, -, -, hback, -⟩ := exists_closer hl hp
    rintro _ ⟨⟩
    cases b <;> obtain ⟨rfl, -⟩ := List.cons.inj hback <;> decide

theorem exists_opener {o : Opening} {os : List Opening} (hp : Passes [] initial front ts s)
    (hs : Stems ts s.openings) (ho : s.openings = o :: os) :
    ∃ f rest, front = f ++ (o.bracket.opener.toList ++ rest) ∧
      o.place = Place.origin.after f ∧
      Culprit (.unclosed o.bracket.opener) f (o.bracket.opener.toList ++ rest) := by
  rw [ho] at hs
  obtain ⟨t, ht, hopened, hinner⟩ := hs.innermost
  obtain ⟨u, htext, hplace⟩ := hopened.place
  obtain ⟨f, rest, hfront, hat⟩ := hp.exists_of_mem ht
  rw [htext, List.append_assoc, ← List.append_assoc] at hfront
  refine ⟨f ++ u, rest, hfront, ?_, ?_⟩
  · rw [hplace, hat, Place.after_append]
    rfl
  · refine .unclosed (hfront ▸ ⟨s, hp⟩) hinner ?_
    have hlength := congrArg List.length htext
    rw [List.length_append, String.length_toList, String.length_toList] at hlength
    rw [Token.stop, hat, Place.offset_after, hlength, List.length_append, ← Nat.add_assoc]
    exact congrArg (· + u.length + _) (Nat.zero_add _)

/-- Where a text is stuck, there is a culprit: the bracket that is open where it ends, or what
stands where it cannot be read on. -/
theorem Stuck.exists_culprit (h : Stuck s back e) (hp : Passes [] initial front ts s) :
    ∃ f b, front ++ back = f ++ b ∧ e.place = Place.origin.after f ∧ Culprit e.fault f b ∧
      ((∀ o, e.fault ≠ .unclosed o) → Readable f) := by
  have hplace : s.place = Place.origin.after front := hp.place_eq
  have hempty : Stems [] initial.openings := .nil .nil
  have hs : Stems ts s.openings := hp.stems hempty
  cases h with
  | unclosed ho =>
    obtain ⟨f, rest, hfront, hat, hculprit⟩ := exists_opener hp hs ho
    refine ⟨f, _, ?_, hat, hculprit, fun hne => (hne _ rfl).elim⟩
    rw [List.append_nil, hfront]
  | @lexeme c tail fault hl =>
    refine ⟨front, c :: tail, rfl, hplace, .broken (broken_of_lexeme hl) ?_, fun _ => hp.readable⟩
    -- the brace ends the innermost substitution, so one of the tokens opened it
    intro hc
    obtain rfl := Option.some.inj hc
    have hin := inSubstitution_of_lexeme_error hl
    unfold inSubstitution at hin
    split at hin
    case h_1 o os ho =>
      rw [ho] at hs
      obtain ⟨t, -, -, hinner⟩ := hs.innermost
      rw [beq_iff_eq.1 hin] at hinner
      exact ⟨ts, t, ⟨s, hp⟩, hinner⟩
    case h_2 => cases hin
  | @push c tail piece fault hl hpush =>
    obtain ⟨b, rest, hb, rfl, hback, hfits⟩ := exists_closer hl hpush
    refine ⟨front, b.closer.toList ++ rest, by rw [hback], hplace, ?_, fun _ => hp.readable⟩
    refine .unbalanced hb ⟨s, hp⟩ ?_
    cases ho : s.openings with
    | nil =>
      rw [ho] at hs
      cases hs with
      | nil h => exact .inl h
    | cons o os =>
      rw [ho] at hs hfits
      obtain ⟨t, -, -, hinner⟩ := hs.innermost
      exact .inr ⟨t, o.bracket, hinner, hfits o rfl⟩

end Stuck

end Reader

/-- The place of a fault is the one of its culprit, and the text in front of the culprit is read
to its end unless the culprit is a bracket that stays open. -/
theorem culprit_of_scan {code : String} {e : ScanError} (h : scan code = .error e) :
    ∃ front back, code.toList = front ++ back ∧ back ≠ [] ∧ PointsBehind e front ∧
      Culprit e.fault front back ∧ ((∀ o, e.fault ≠ .unclosed o) → Readable front) := by
  obtain ⟨front, back, ts, s, hcode, hpasses, hstuck⟩ := Reader.exists_passes_of_error h
  obtain ⟨f, b, hfb, hplace, hculprit, hreadable⟩ :=
    hstuck.exists_culprit (hpasses.alone hstuck.not_digit)
  exact ⟨f, b, hcode.trans hfb, hculprit.ne_nil, pointsBehind hplace, hculprit, hreadable⟩

/-- A parenthesis that closes neither the bracket nor the substitution it stands in. -/
def mismatched : String := "f(\n\x60a $\x7b[1)\x7d\x60)"

theorem culprit_of_scan_mismatched :
    scan mismatched = .error ⟨.unbalanced ")", ⟨10, 2, 8⟩⟩ ∧
      ∃ front back, mismatched.toList = front ++ back ∧ back ≠ [] ∧
        PointsBehind ⟨.unbalanced ")", ⟨10, 2, 8⟩⟩ front ∧
        Culprit (.unbalanced ")") front back ∧
        ((∀ o, ScanFault.unbalanced ")" ≠ .unclosed o) → Readable front) := by
  have hscan : scan mismatched = .error ⟨.unbalanced ")", ⟨10, 2, 8⟩⟩ := by decide +kernel
  exact ⟨hscan, culprit_of_scan hscan⟩

end MdxLint
