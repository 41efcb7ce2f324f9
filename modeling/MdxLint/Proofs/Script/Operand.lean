import MdxLint.Proofs.Script.Enclosed
import MdxLint.Proofs.Script.Lexical
import MdxLint.Proofs.Script.Passage

/-! # A slash behind a word that asks for an operand

Behind a text whose last token is one of these words, a regular expression is read as one token if
the word is a keyword. Some of the words are names where they stand, and behind a name a slash
divides. Nothing is read behind a text that ends in a line comment.
-/

namespace MdxLint

/-- A regular expression on one line, with two characters at its front that begin no comment. -/
structure IsOperand (r : String) : Prop where
  regex : IsRegex r.toList
  line : ∀ c ∈ r.toList, isLineEnd c = false
  front : r.toList.tail.head? ∉ [some '/', some '*']

theorem Lexeme.run_eq_length {P : Char → Bool} {cs : List Char} (h : ∀ c ∈ cs, P c = true) :
    run P cs = cs.length := by
  have hend : ∀ c ∈ ([] : List Char).head?, P c = false := nofun
  simpa using run_append h hend

namespace Reader

/-- The reading comes to a line comment that the text does not end. -/
def EndsInComment (r : Reader) (cs : List Char) : Prop :=
  ∃ front body ts s, cs = front ++ '/' :: '/' :: body ∧
    Passes ('/' :: '/' :: body) r front ts s ∧ ∀ c ∈ body, isLineEnd c = false

section Reading

variable {r r' s : Reader} {c : Char} {front behind cs tail : List Char} {ts : List Token}
  {piece : Lexeme} {t : Token}

theorem Passes.last_eq (h : Passes behind r front ts s) : s.last = ts.getLast?.or r.last := by
  induction h with
  | done => rfl
  | @step r r' s c x front piece token ts hl hx hp _ ih =>
    rw [ih, last_of_push hp, List.getLast?_append]
    cases token <;> cases ts.getLast? <;> rfl

/-- What was read is read alike where a space and more come to stand behind the text, unless the
text ends in a line comment. -/
theorem Passes.before_space (h : Passes behind r front ts s)
    (hopen : behind = [] → ¬r.EndsInComment front) (rest : List Char) :
    Passes (behind ++ ' ' :: rest) r front ts s := by
  induction h with
  | done => exact .done
  | @step r r' s c x front piece token ts hl hx hp h ih =>
    have hrest : behind = [] → ¬r'.EndsInComment front := by
      rintro rfl ⟨f, body, us, u, rfl, hf, hbody⟩
      refine hopen rfl ⟨c :: (x ++ f), body, token.toList ++ us, u, by simp, ?_, hbody⟩
      rw [List.append_nil] at hl
      exact .step hl hx hp hf
    refine .step ?_ hx hp (ih hrest)
    by_cases hs : piece.shape = .blank
    · have hblank := blank_of_lexeme hl hs
      rw [List.take_left' hx.symm, List.drop_left' hx.symm] at hblank
      rw [← List.append_assoc, ← List.append_assoc, List.append_assoc x]
      refine (lexeme_blank_append hl hs ?_).1
      rintro rfl hnext
      left
      generalize hall : '/' :: x = all at hblank
      cases hblank with
      | space hc =>
        obtain ⟨rfl, -⟩ := List.cons.inj hall
        exact absurd hc (by decide)
      | @line body _ hbody hend =>
        obtain ⟨-, rfl⟩ := List.cons.inj hall
        cases hfront : front ++ behind with
        | nil =>
          -- the comment would be the last thing in the text
          obtain ⟨rfl, rfl⟩ := List.append_eq_nil_iff.1 hfront
          exact (hopen rfl ⟨[], body, [], r, by simp, .done, hbody⟩).elim
        | cons d more => exact ⟨d, by simp, hend d (by rw [hfront]; rfl)⟩
      | block =>
        obtain ⟨-, rfl⟩ := List.cons.inj hall
        cases hnext
    · have hgap : Respaced ((x ++ (front ++ behind)).drop piece.extra)
          (front ++ (behind ++ ' ' :: rest)) := by
        rw [List.drop_left' hx.symm]
        refine ⟨front ++ behind, [], ' ' :: rest, by simp, by simp, nofun, ?_⟩
        intro d hd
        cases hd
        decide
      have hread := lexeme_respaced hl hs hgap
      rwa [List.take_left' hx.symm] at hread

theorem tokens_comment {body : List Char} (hbody : ∀ c ∈ body, isLineEnd c = false) :
    r.tokens ('/' :: '/' :: body) = r.tokens [] := by
  have hrun : Lexeme.lineComment body = body.length :=
    Lexeme.run_eq_length fun c hc => by simp [hbody c hc]
  have hslash : isBlank '/' = false := by decide
  have hl : r.lexeme '/' ('/' :: body ++ []) = .ok ⟨.blank, ('/' :: body).length⟩ := by
    simp [lexeme, hslash, hrun, Nat.add_comm]
  have hp : r.push .blank '/' ('/' :: body) = .ok (none, r.passed ('/' :: '/' :: body)) := rfl
  have hread := tokens_cons hl hp
  rw [List.append_nil] at hread
  rw [hread, tokens, tokens]
  exact map_nil_append _

theorem kind_of_push (hl : r.lexeme c tail = .ok piece)
    (hp : r.push piece.shape c (tail.take piece.extra) = .ok (some t, r'))
    (hc : startsWord c tail.head? = true) :
    t.kind = if t.text ∈ keywords then .keyword else .name := by
  have hkind := kind?_of_push hp
  obtain ⟨-, ⟨-, hnone, -⟩ | ⟨_, hsome, htext, -⟩⟩ := push_cases hl hp
  · cases hnone
  cases hsome
  rw [lexeme_of_startsWord hc] at hl
  rw [htext]
  obtain ⟨n, -, ⟨hk, rfl⟩ | ⟨hk, rfl⟩⟩ := word_cases hl
  · rw [if_pos hk]
    exact (Option.some.inj hkind).symm
  · rw [if_neg hk]
    exact (Option.some.inj hkind).symm

theorem kind_of_tokens (h : r.tokens cs = .ok ts) : ∀ t ∈ ts, t.text ∈ operandKeywords →
    t.kind = if t.text ∈ keywords then .keyword else .name := by
  refine tokens_induction (motive := fun _ _ ts => ∀ t ∈ ts, t.text ∈ operandKeywords →
    t.kind = if t.text ∈ keywords then .keyword else .name) ?_ ?_ h
  · exact fun r _ => List.forall_mem_nil _
  · intro r r' c tail piece token rest hl hp ih t ht hword
    rcases List.mem_append.1 ht with ht | ht
    · obtain rfl := Option.mem_toList.1 ht
      refine kind_of_push hl hp ?_
      obtain ⟨-, ⟨-, hnone, -⟩ | ⟨_, hsome, htext, -⟩⟩ := push_cases hl hp
      · cases hnone
      cases hsome
      -- each of the words begins with a letter
      have hfirst : ∀ w ∈ operandKeywords, w.toList.head?.all (startsWord · none) = true := by
        decide +kernel
      have hstart := hfirst _ hword
      rw [htext, String.toList_ofList] at hstart
      simp_all [startsWord]
    · exact ih t ht hword

end Reading

section Slash

variable {r : Reader} {tail : List Char} (hfront : tail.head? ∉ [some '/', some '*'])

include hfront

theorem lead_slash : r.lead '/' tail.head? = if r.regexAllowed then .regex else .sign := by
  have hblank : isBlank '/' = false := by decide
  have hdigit : isDigitLike '/' = false := by decide
  have hname : Lexeme.isNameStart '/' = false := by decide
  rw [List.mem_cons, List.mem_singleton, not_or] at hfront
  simp [lead, hblank, hdigit, hname, hfront]

theorem lexeme_regex (hr : IsRegex ('/' :: tail)) (hregex : r.regexAllowed = true) :
    r.lexeme '/' tail = .ok ⟨.token .regex, tail.length⟩ := by
  have hmeasure : Lexeme.regex false tail = some tail.length := by
    generalize hall : '/' :: tail = all at hr
    cases hr with
    | @intro body flags hbody hflags =>
      obtain ⟨-, rfl⟩ := List.cons.inj hall
      refine Lexeme.regex_false_eq_some_iff.2 ⟨body, flags, rfl, hbody, ?_⟩
      rw [Lexeme.run_eq_length hflags, List.length_append, List.length_cons]
      omega
  rw [lexeme_eq_readAs, lead_slash hfront, if_pos hregex, readAs, hmeasure]

theorem shape_of_slash (hregex : r.regexAllowed = false) {piece : Lexeme}
    (hl : r.lexeme '/' tail = .ok piece) : piece.shape = .token .punctuator := by
  rw [lexeme_eq_readAs, lead_slash hfront, if_neg (by simp [hregex]), readAs] at hl
  split at hl
  · cases hl
  · cases hl
    rfl

end Slash

/-- Behind a reader that has no open bracket, a regular expression at the end of the text is one
token where it may stand, and no token there begins with it where it may not. -/
theorem tokens_regex_iff {s : Reader} {r : String} (hr : IsOperand r) (hs : s.openings = []) :
    s.tokens r.toList = .ok [⟨.regex, r, s.place⟩] ↔ s.regexAllowed = true := by
  obtain ⟨tail, hchars⟩ : ∃ tail, r.toList = '/' :: tail := by
    have hregex := hr.regex
    generalize r.toList = cs at hregex
    cases hregex with
    | intro => exact ⟨_, rfl⟩
  have hfront := hr.front
  rw [hchars, List.tail_cons] at hfront
  rw [hchars]
  constructor
  · intro hread
    by_contra hregex
    obtain ⟨piece, token, s', rest, hl, hp, -, hts⟩ := exists_of_tokens hread
    have hshape := shape_of_slash hfront (by simpa using hregex) hl
    obtain ⟨-, ⟨hblank, -⟩ | ⟨t, rfl, -⟩⟩ := push_cases hl hp
    · rw [hshape] at hblank
      cases hblank
    · obtain ⟨rfl, -⟩ := List.cons.inj (show _ :: [] = t :: rest from hts)
      rw [hshape] at hp
      cases kind?_of_push hp
  · intro hregex
    have hl : s.lexeme '/' (tail ++ []) = .ok ⟨.token .regex, tail.length⟩ := by
      rw [List.append_nil]
      exact lexeme_regex hfront (hchars ▸ hr.regex) hregex
    have hread := tokens_cons hl rfl
    rw [List.append_nil, ← hchars, String.ofList_toList] at hread
    rw [← hchars, hread, tokens, hs]
    rfl

end Reader

/-- A regular expression behind a text that ends in a word that asks for an operand is the one token
behind those of the text if the word is a keyword and the text does not end in a line comment. -/
theorem scan_operand_iff {code r : String} {ts : List Token} {t : Token}
    (hcode : scan code = .ok ts) (ht : t ∈ ts.getLast?) (hword : t.text ∈ operandKeywords)
    (hr : IsOperand r) :
    scan (code ++ " " ++ r) =
        .ok (ts ++ [⟨.regex, r, Place.origin.after (code ++ " ").toList⟩]) ↔
      t.text ∈ keywords ∧ ¬Reader.initial.EndsInComment code.toList := by
  obtain ⟨s, hpasses, hs⟩ := Reader.exists_passes_of_ok hcode
  have hchars : (code ++ " " ++ r).toList = code.toList ++ ' ' :: r.toList := by simp
  rw [scan] at hcode ⊢
  rw [hchars]
  by_cases hopen : Reader.initial.EndsInComment code.toList
  case pos =>
    refine iff_of_false ?_ fun h => h.2 hopen
    obtain ⟨front, body, us, u, hfront, hpasses, hbody⟩ := hopen
    -- the comment takes up what comes to stand behind it
    have hline : ∀ c ∈ body ++ ' ' :: r.toList, isLineEnd c = false :=
      List.forall_mem_append.2 ⟨hbody, List.forall_mem_cons.2 ⟨by decide, hr.line⟩⟩
    have hlonger := (hpasses.before_space (absurd · (List.cons_ne_nil _ _)) r.toList).tokens_eq
    rw [List.cons_append, List.cons_append, Reader.tokens_comment hline,
      ← Reader.tokens_comment hbody, ← hpasses.tokens_eq, ← hfront, hcode] at hlonger
    rw [hfront, List.append_assoc, List.cons_append, List.cons_append, hlonger]
    simp
  case neg =>
    have hread := (hpasses.before_space (fun _ => hopen) r.toList).tokens_eq
    have hgap : s.tokens ([' '] ++ r.toList) = (s.passed [' ']).tokens r.toList :=
      Reader.tokens_gap (List.forall_mem_singleton.2 (by decide))
    rw [List.nil_append, ← List.singleton_append, hgap] at hread
    rw [← List.singleton_append, hread, and_iff_left hopen]
    have hplace : (s.passed [' ']).place = Place.origin.after (code ++ " ").toList := by
      rw [String.toList_append, Place.after_append]
      exact congrArg (Place.after · [' ']) hpasses.place_eq
    have hmap {us : List Token} : ((s.passed [' ']).tokens r.toList).map (ts ++ ·) = .ok (ts ++ us) ↔
        (s.passed [' ']).tokens r.toList = .ok us := by
      cases (s.passed [' ']).tokens r.toList <;> simp [Except.map]
    have hregex := Reader.tokens_regex_iff (s := s.passed [' ']) hr hs
    have hlast : (s.passed [' ']).last = some t := by
      change s.last = some t
      rw [hpasses.last_eq, Option.mem_def.1 ht]
      rfl
    rw [hmap, ← hplace, hregex, Reader.regexAllowed, hlast]
    dsimp only
    rw [Reader.kind_of_tokens hcode t (List.mem_of_mem_getLast? ht) hword]
    by_cases hk : t.text ∈ keywords
    · simp [hk, hword]
    · simp [hk]

def quoteClass : String := "/[']/"

theorem isOperand_quoteClass : IsOperand quoteClass where
  regex := by
    have hquote : Escaped InClass ['\''] := .char (by decide) (by unfold InClass; decide) .nil
    exact .intro (.group hquote .nil) (List.forall_mem_nil _)
  line := by simp [quoteClass, isLineEnd]
  front := by decide

/-- The slash begins a regular expression behind `typeof`, and divides behind `yield`. -/
theorem scan_operand_quoteClass :
    scan "typeof" = .ok [⟨.keyword, "typeof", .origin⟩] ∧
      scan "yield" = .ok [⟨.name, "yield", .origin⟩] ∧
      "typeof" ∈ operandKeywords ∧ "yield" ∈ operandKeywords ∧ IsOperand quoteClass ∧
      scan ("typeof" ++ " " ++ quoteClass) =
        .ok [⟨.keyword, "typeof", .origin⟩, ⟨.regex, quoteClass, ⟨7, 1, 8⟩⟩] ∧
      scan ("yield" ++ " " ++ quoteClass) ≠
        .ok [⟨.name, "yield", .origin⟩, ⟨.regex, quoteClass, ⟨6, 1, 7⟩⟩] := by
  have htypeof : scan "typeof" = .ok [⟨.keyword, "typeof", .origin⟩] := by decide +kernel
  have hyield : scan "yield" = .ok [⟨.name, "yield", .origin⟩] := by decide +kernel
  refine ⟨htypeof, hyield, by decide, by decide, isOperand_quoteClass, ?_, ?_⟩
  · refine (scan_operand_iff htypeof rfl (by decide) isOperand_quoteClass).2 ⟨by decide, ?_⟩
    rintro ⟨front, body, _, _, hchars, -⟩
    have hslash : '/' ∈ "typeof".toList := by simp [hchars]
    exact absurd hslash (by decide)
  · intro hread
    have hkeyword := ((scan_operand_iff hyield rfl (by decide) isOperand_quoteClass).1 hread).1
    exact absurd hkeyword (by decide)

end MdxLint
