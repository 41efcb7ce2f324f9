import MdxLint.Proofs.Script.Respaced

/-! # A text behind another one

A text that is read to its end is read alike where a line feed and more stand behind it. A text
behind a semicolon is read as it is at the very beginning, for neither what opens a regular
expression nor what heads a control statement ends in a semicolon.
-/

namespace MdxLint

namespace Lexeme

/-- A line comment stays as long as it is if a line ends in what follows it, or there. -/
theorem lineComment_append {cs rest : List Char}
    (h : (∃ d ∈ cs, isLineEnd d = true) ∨ ∀ d ∈ rest.head?, isLineEnd d = true) :
    lineComment (cs ++ rest) = lineComment cs := by
  unfold lineComment
  induction cs with
  | nil =>
    cases rest with
    | nil => rfl
    | cons d rest =>
      have hend : isLineEnd d = true := h.resolve_left (by simp) d rfl
      simp [run, hend]
  | cons c cs ih =>
    rw [List.cons_append, run, run]
    split
    case isTrue hc =>
      rw [ih]
      refine h.imp_left ?_
      rintro ⟨d, hd, hend⟩
      rcases List.mem_cons.1 hd with rfl | hd
      · simp [hend] at hc
      · exact ⟨d, hd, hend⟩
    case isFalse => rfl

theorem blockComment_append {cs : List Char} {n : Nat} (h : blockComment cs = some n)
    (rest : List Char) : blockComment (cs ++ rest) = some n ∧ n ≤ cs.length := by
  fun_induction blockComment cs generalizing n with
  | case1 => cases h
  | case2 cs =>
    cases h
    exact ⟨rfl, by simp⟩
  | case3 c cs hclose ih =>
    obtain ⟨m, hm, rfl⟩ := Option.map_eq_some_iff.1 h
    obtain ⟨hrest, hle⟩ := ih hm
    have hcons : blockComment (c :: (cs ++ rest)) = (blockComment (cs ++ rest)).map (· + 1) := by
      rw [blockComment]
      rintro behind rfl hslash
      cases cs with
      | nil => simp [blockComment] at hm
      | cons d cs =>
        obtain ⟨rfl, -⟩ := List.cons.inj hslash
        exact hclose cs rfl rfl
    exact ⟨by rw [List.cons_append, hcons, hrest, Option.map_some], by simpa using hle⟩

end Lexeme

namespace Reader

variable {r r' : Reader} {c : Char} {cs tail rest : List Char} {piece : Lexeme} {ts : List Token}

/-- A blank stays what it is whatever comes to stand behind the text, unless it is a line comment
that goes on there. -/
theorem lexeme_blank_append (hl : r.lexeme c tail = .ok piece) (hs : piece.shape = .blank)
    (hrest : c = '/' → tail.head? = some '/' →
      (∃ d ∈ tail, isLineEnd d = true) ∨ ∀ d ∈ rest.head?, isLineEnd d = true) :
    r.lexeme c (tail ++ rest) = .ok piece ∧ piece.extra ≤ tail.length := by
  have hslash : isBlank '/' = false := by decide
  cases lexes_of_lexeme hl with
  | space hc => exact ⟨by simp [lexeme, hc], Nat.zero_le _⟩
  | @line tail hc htail =>
    subst hc htail
    have hrun := Lexeme.run_le_length (fun c => !isLineEnd c) tail
    have hcomment : Lexeme.lineComment (tail ++ rest) = Lexeme.lineComment tail := by
      refine Lexeme.lineComment_append ((hrest rfl rfl).imp_left ?_)
      rintro ⟨d, hd, hend⟩
      rcases List.mem_cons.1 hd with rfl | hd
      · exact absurd hend (by decide)
      · exact ⟨d, hd, hend⟩
    refine ⟨by simp [lexeme, hslash, hcomment], ?_⟩
    simp only [Lexeme.lineComment, List.length_cons]
    omega
  | @block tail n hc htail hn =>
    subst hc htail
    obtain ⟨happend, hle⟩ := Lexeme.blockComment_append hn rest
    refine ⟨by simp [lexeme, hslash, happend], ?_⟩
    rw [List.length_cons]
    dsimp only
    omega
  | _ => cases hs

/-- A lexeme stays what it is if a line feed and more come to stand behind the text. -/
theorem lexeme_before_line (hl : r.lexeme c tail = .ok piece) (rest : List Char) :
    r.lexeme c (tail ++ '\n' :: rest) = .ok piece ∧ piece.extra ≤ tail.length := by
  by_cases hs : piece.shape = .blank
  · refine lexeme_blank_append hl hs fun _ _ => .inr fun d hd => ?_
    cases hd
    decide
  · have hle := extra_le_of_lexeme hl hs
    have hrespaced : Respaced (tail.drop piece.extra) (tail.drop piece.extra ++ '\n' :: rest) := by
      refine ⟨tail.drop piece.extra, [], '\n' :: rest, (List.append_nil _).symm, rfl, nofun, ?_⟩
      intro d hd
      cases hd
      decide
    have hread := lexeme_respaced hl hs hrespaced
    rw [← List.append_assoc, List.take_append_drop] at hread
    exact ⟨hread, hle⟩

def amid (r : Reader) (outer : List Opening) : Reader :=
  { r with openings := r.openings ++ outer }

@[simp] theorem amid_nil (r : Reader) : r.amid [] = r := by
  rw [amid, List.append_nil]

theorem pushPunctuator_amid {t : Token} {behind : Place} (outer : List Opening)
    (h : r.pushPunctuator t behind = .ok r') :
    (r.amid outer).pushPunctuator t behind = .ok (r'.amid outer) := by
  obtain ⟨b, ho, rfl⟩ | ⟨b, o, os, ho, hc, hr, hb, rfl⟩ | ⟨ho, hc, rfl⟩ := pushPunctuator_cases h
  · exact pushPunctuator_opener ho
  · exact pushPunctuator_closer ho hc (by rw [amid, hr, List.cons_append]) hb
  · exact pushPunctuator_plain ho hc

section Amid

variable {token : Option Token} (hl : r.lexeme c tail = .ok piece)
  (hp : r.push piece.shape c (tail.take piece.extra) = .ok (token, r')) (outer : List Opening)

include hl hp

theorem openings_ne_nil_of_push (hc : c = '\x7d') : r.openings ≠ [] := by
  subst hc
  intro hr
  have hsub : r.inSubstitution = false := by
    rw [inSubstitution, hr]
  have hsign : r.lexeme '\x7d' tail = .ok ⟨.token .punctuator, 0⟩ :=
    lexeme_sign (x := "\x7d") (by decide) rfl (fun _ _ => rfl) fun _ => hsub
  rw [hsign] at hl
  cases hl
  have hpush : r.push (.token .punctuator) '\x7d' [] = .error (.unbalanced "\x7d") := by
    rw [push, pushPunctuator, hr]
    rfl
  rw [List.take_zero, hpush] at hp
  cases hp

theorem lexeme_amid : (r.amid outer).lexeme c tail = .ok piece := by
  have hsub : (decide (c = '\x7d') && (r.amid outer).inSubstitution) =
      (decide (c = '\x7d') && r.inSubstitution) := by
    by_cases hc : c = '\x7d'
    · obtain ⟨o, os, ho⟩ := List.exists_cons_of_ne_nil (openings_ne_nil_of_push hl hp hc)
      rw [inSubstitution, inSubstitution, amid, ho]
      rfl
    · rw [decide_eq_false hc, Bool.false_and, Bool.false_and]
  have hregex : (r.amid outer).regexAllowed = r.regexAllowed := rfl
  rw [← hl]
  simp only [lexeme, hsub, hregex]

theorem aroundPiece_amid : (r.amid outer).aroundPiece c = r.aroundPiece c ++ outer := by
  unfold aroundPiece
  split
  case isTrue hc =>
    obtain ⟨o, os, ho⟩ := List.exists_cons_of_ne_nil (openings_ne_nil_of_push hl hp hc)
    rw [amid, ho]
    rfl
  case isFalse => rfl

theorem push_amid : (r.amid outer).push piece.shape c (tail.take piece.extra) =
    .ok (token, r'.amid outer) := by
  have haround := aroundPiece_amid hl hp outer
  cases lexes_of_lexeme hl with
  | space | line | block | string | regex | number | keyword | name =>
    cases hp
    rfl
  | closed | substitution =>
    cases hp
    rw [push, haround]
    rfl
  | sign =>
    obtain ⟨rfl, hpush⟩ := pushPunctuator_of_push hp
    exact congrArg (Except.map _) (pushPunctuator_amid outer hpush)

end Amid

/-- A text that is read to its end is read alike in front of a line feed and more, and inside of
other brackets. -/
theorem exists_reader_amid (h : r.tokens cs = .ok ts) :
    ∃ s : Reader, s.openings = [] ∧ s.place = r.place.after cs ∧ ∀ outer rest,
      (r.amid outer).tokens (cs ++ '\n' :: rest) =
        ((s.amid outer).tokens ('\n' :: rest)).map (ts ++ ·) := by
  refine tokens_induction (motive := fun r cs ts => ∃ s : Reader, s.openings = [] ∧
    s.place = r.place.after cs ∧ ∀ outer rest, (r.amid outer).tokens (cs ++ '\n' :: rest) =
      ((s.amid outer).tokens ('\n' :: rest)).map (ts ++ ·)) ?_ ?_ h
  · intro r hr
    exact ⟨r, hr, rfl, fun outer rest => (map_nil_append _).symm⟩
  · intro r r' c tail piece token ts hl hp ih
    obtain ⟨s, hs, hplace, hread⟩ := ih
    refine ⟨s, hs, ?_, fun outer rest => ?_⟩
    · rw [hplace, (push_cases hl hp).1, ← Place.after_append, List.cons_append,
        List.take_append_drop]
    · obtain ⟨hl', hle⟩ := lexeme_before_line (lexeme_amid hl hp outer) rest
      have hpush : (r.amid outer).push piece.shape c ((tail ++ '\n' :: rest).take piece.extra) =
          .ok (token, r'.amid outer) := by
        rw [List.take_append_of_le_length hle]
        exact push_amid hl hp outer
      rw [List.cons_append, tokens_step hl' hpush, List.drop_append_of_le_length hle, hread,
        map_append_append]

/-- A text that is read to its end is read alike in front of a line feed and more. -/
theorem exists_reader_behind (h : r.tokens cs = .ok ts) :
    ∃ s : Reader, s.openings = [] ∧ s.place = r.place.after cs ∧
      ∀ rest, r.tokens (cs ++ '\n' :: rest) = (s.tokens ('\n' :: rest)).map (ts ++ ·) := by
  obtain ⟨s, hs, hplace, hread⟩ := exists_reader_amid h
  refine ⟨s, hs, hplace, fun rest => ?_⟩
  have hrest := hread [] rest
  rwa [amid_nil, amid_nil] at hrest

def behindToken (r : Reader) (t : Token) : Reader := { r with last := some t }

section Behind

variable {t : Token} (hr : r.last = none)

include hr

theorem lexeme_behindToken (hl : r.lexeme c tail = .ok piece)
    (hregex : (r.behindToken t).regexAllowed = true ∨ piece.shape ≠ .token .regex) :
    (r.behindToken t).lexeme c tail = .ok piece := by
  have hfree : r.regexAllowed = true := by rw [regexAllowed, hr]
  have hsub : (r.behindToken t).inSubstitution = r.inSubstitution := rfl
  rcases hregex with hregex | hs
  · rw [← hl]
    simp only [lexeme, hregex, hfree, hsub]
  by_cases hc : c = '/'
  · -- a slash begins a comment then, which it does behind every token
    subst hc
    have hblank : isBlank '/' = false := by decide
    have hline : tail.head? = some '/' ∨ tail.head? = some '*' := by
      by_contra hn
      rw [not_or] at hn
      simp [lexeme, hblank, hfree, hn] at hl
      split at hl
      · cases hl
      · cases hl
        exact hs rfl
    rw [← hl]
    rcases hline with hnext | hnext
    · simp [lexeme, hblank, hnext]
    · simp [lexeme, hblank, hnext]
  · rw [← hl]
    simp only [lexeme, hsub, hc, decide_false, Bool.false_and]

theorem push_behindToken (ht : t.kind ≠ .keyword) {shape : Shape} (hs : shape ≠ .blank)
    (more : List Char) : (r.behindToken t).push shape c more = r.push shape c more := by
  have hhead : (r.behindToken t).atControlHead = r.atControlHead := by
    simp [atControlHead, behindToken, hr, ht]
  cases shape with
  | blank => exact absurd rfl hs
  | substitution => rfl
  | token kind =>
    cases kind with
    | punctuator =>
      simp only [push, pushPunctuator, hhead]
      rfl
    | _ => rfl

/-- Behind a token a text is read as where nothing was read before, if it begins with no regular
expression or one may begin there. -/
theorem tokens_behindToken (ht : t.kind ≠ .keyword) (h : r.tokens cs = .ok ts)
    (hregex : (r.behindToken t).regexAllowed = true ∨ ∀ u ∈ ts.head?, u.kind ≠ .regex) :
    (r.behindToken t).tokens cs = .ok ts := by
  refine (tokens_induction (motive := fun r cs ts => r.tokens cs = .ok ts ∧ (r.last = none →
    (r.behindToken t).regexAllowed = true ∨ (∀ u ∈ ts.head?, u.kind ≠ .regex) →
    (r.behindToken t).tokens cs = .ok ts)) ?_ ?_ h).2 hr hregex
  · intro r ho
    refine ⟨by rw [Reader.tokens, ho], fun _ _ => ?_⟩
    rw [Reader.tokens, behindToken, ho]
  · intro r r' c tail piece token rest hl hp hread
    obtain ⟨hrest, ih⟩ := hread
    refine ⟨by rw [tokens_step hl hp, hrest]; rfl, fun hr hregex => ?_⟩
    by_cases hs : piece.shape = .blank
    · rw [hs] at hp
      cases hp
      have hl' := lexeme_behindToken hr hl (t := t) (.inr (by simp [hs]))
      have hp' : (r.behindToken t).push piece.shape c (tail.take piece.extra) =
          .ok (none, (r.passed (c :: tail.take piece.extra)).behindToken t) := by
        rw [hs]
        rfl
      rw [tokens_step hl' hp']
      exact congrArg (Except.map _) (ih hr hregex)
    · have hregex' : (r.behindToken t).regexAllowed = true ∨ piece.shape ≠ .token .regex := by
        refine hregex.imp_right fun hfirst hs' => ?_
        rw [hs'] at hp
        cases hp
        exact hfirst _ rfl rfl
      have hp' := (push_behindToken hr ht hs (tail.take piece.extra)).trans hp
      rw [tokens_step (lexeme_behindToken hr hl hregex') hp', hrest]
      rfl

end Behind

namespace Alike

/-- The tokens are the same, and each stands behind the same characters, those from one place on and
those from another. -/
def SameFrom (p p' : Place) (t t' : Token) : Prop :=
  t'.content = t.content ∧ ∃ x, t.place = p.after x ∧ t'.place = p'.after x

theorem tokens_sameFrom (h : r.Alike r') (hr : r.tokens cs = .ok ts) :
    ∃ ts', r'.tokens cs = .ok ts' ∧ List.Forall₂ (SameFrom r.place r'.place) ts ts' := by
  refine tokens_induction (motive := fun r cs ts => ∀ r' : Reader, r.Alike r' →
    ∃ ts', r'.tokens cs = .ok ts' ∧ List.Forall₂ (SameFrom r.place r'.place) ts ts') ?_ ?_ hr r' h
  · intro r ho r' halike
    obtain ⟨-, ho'⟩ | ⟨_, _, -, -, ho', -⟩ := halike.openings_cases
    · exact ⟨[], by rw [Reader.tokens, ho'], .nil⟩
    · rw [ho] at ho'
      cases ho'
  · intro r s c tail piece token rest hl hp ih r' halike
    have hl' : r'.lexeme c tail = .ok piece := (halike.lexeme c tail).trans hl
    obtain ⟨token', s', hp', hcontent, halike'⟩ := halike.push hp
    have hread := tokens_step hl' hp'
    obtain ⟨hplace, hstep⟩ := push_cases hl hp
    obtain ⟨hplace', hstep'⟩ := push_cases hl' hp'
    obtain ⟨ts', hts', hsame⟩ := ih s' halike'
    have hrest : List.Forall₂ (SameFrom r.place r'.place) rest ts' := by
      refine hsame.imp fun t t' ht => ⟨ht.1, ?_⟩
      obtain ⟨x, hx, hx'⟩ := ht.2
      refine ⟨c :: tail.take piece.extra ++ x, ?_, ?_⟩
      · rw [hx, hplace, Place.after_append]
      · rw [hx', hplace', Place.after_append]
    rcases hstep with ⟨-, rfl, -⟩ | ⟨t, rfl, -, ht, -⟩
    · obtain rfl : token' = none := by simpa using hcontent
      exact ⟨ts', by rw [hread, hts']; rfl, hrest⟩
    · obtain ⟨t', rfl, hcontent⟩ := Option.map_eq_some_iff.1 hcontent
      rcases hstep' with ⟨-, htoken, -⟩ | ⟨_, htoken, -, ht', -⟩
      · cases htoken
      cases htoken
      have hfirst : SameFrom r.place r'.place t t' :=
        ⟨Option.some.inj hcontent, [], by rw [ht, Place.after_nil], by rw [ht', Place.after_nil]⟩
      exact ⟨t' :: ts', by rw [hread, hts']; rfl, .cons hfirst hrest⟩

theorem told_eq_of_sameFrom {p p' : Place} {us us' : List Token}
    (h : List.Forall₂ (SameFrom p p') us us') {line line' : Nat}
    (hturn : ∀ n, line < p.line + n ↔ line' < p'.line + n) : told line' us' = told line us := by
  induction h generalizing line line' with
  | nil => rfl
  | cons hfirst _ ih =>
    obtain ⟨hcontent, x, hx, hx'⟩ := hfirst
    have hrest := @ih (p.after x).line (p'.after x).line fun n => by
      rw [Place.line_after, Place.line_after]
      omega
    rw [told, told, hcontent, hx, hx', hrest, Place.line_after, Place.line_after,
      decide_eq_decide.2 (hturn _)]

/-- Readers that know the same read the same tokens, and the same of them begin a line. -/
theorem tokens (h : r.Alike r') (hr : r.tokens cs = .ok ts) {line line' : Nat}
    (hle : line ≤ r.place.line) (hle' : line' ≤ r'.place.line)
    (hturn : line < r.place.line ↔ line' < r'.place.line) :
    ∃ ts', r'.tokens cs = .ok ts' ∧ told line' ts' = told line ts := by
  obtain ⟨ts', hts', hsame⟩ := h.tokens_sameFrom hr
  exact ⟨ts', hts', told_eq_of_sameFrom hsame fun n => by omega⟩

end Alike

end Reader

def semicolon (place : Place) : Token := ⟨.punctuator, ";", place⟩

/-- The text of the two scripts with a semicolon on a line of its own between them. -/
def joined (a b : String) : String := a ++ "\n;\n" ++ b

/-- Two texts that can be read can be read one behind the other, and the tokens of each are what
they were. -/
theorem scan_joined {a b : String} {ts us : List Token} (ha : scan a = .ok ts)
    (hb : scan b = .ok us) :
    ∃ place us', scan (joined a b) = .ok (ts ++ semicolon place :: us') ∧
      told place.line us' = told 0 us := by
  obtain ⟨s, hs, hplace, hread⟩ := Reader.exists_reader_behind ha
  have hblank : ∀ c ∈ ['\n'], isBlank c = true := List.forall_mem_singleton.2 (by decide)
  -- the reader behind the semicolon, and behind the line feed there
  let t := semicolon (s.passed ['\n']).place
  let s' : Reader := (s.passed ['\n']).behind (.sign ";") s.openings false
  have hsemicolon : s.tokens ('\n' :: ';' :: '\n' :: b.toList) =
      ((s'.passed ['\n']).tokens b.toList).map ([t] ++ ·) := by
    have hrest : ∀ d ∈ ('\n' :: b.toList).head?, (Piece.sign ";").runsOn d = false := by
      intro d hd
      cases hd
      decide
    have hpush : (s.passed ['\n']).push (Piece.sign ";").shape ';' [] = .ok (some t, s') :=
      Reader.push_plain rfl rfl
    obtain ⟨-, hsign⟩ := Reader.reads_single hblank hrest (by simp) (by simp) rfl hpush
    have hgap : s'.tokens (['\n'] ++ b.toList) = (s'.passed ['\n']).tokens b.toList :=
      Reader.tokens_gap hblank
    rw [← hgap]
    exact hsign
  -- it knows no more of the text behind it than a reader that has read nothing
  have hfresh : (Reader.initial.behindToken t).tokens b.toList = .ok us :=
    Reader.tokens_behindToken rfl (by simp [t, semicolon]) hb (.inl rfl)
  have halike : (Reader.initial.behindToken t).Alike (s'.passed ['\n']) := by
    constructor
    case openings =>
      change s.openings.map Reader.opened = []
      rw [hs, List.map_nil]
    case last => rfl
    case headClosed => rfl
  have hline : t.place.line < (s'.passed ['\n']).place.line := by
    change t.place.line < ((t.place.after [';']).after ['\n']).line
    rw [Place.line_after, Place.line_after]
    simp
  have horigin : 0 < (Reader.initial.behindToken t).place.line := Nat.one_pos
  obtain ⟨us', hread', htold⟩ :=
    halike.tokens hfresh horigin.le hline.le (iff_of_true horigin hline)
  refine ⟨_, us', ?_, htold⟩
  have hjoined : (joined a b).toList = a.toList ++ '\n' :: ';' :: '\n' :: b.toList := by
    simp [joined, String.toList_append]
  rw [scan, hjoined, hread, hsemicolon, hread']
  rfl

end MdxLint
