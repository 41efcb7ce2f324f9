import MdxLint.Proofs.Script.Passage

/-! # Brackets that stay open

The reader keeps the open brackets with their places. They can be told from the tokens: the
innermost one belongs to the last token that opens a bracket which the tokens behind it do not
close.
-/

namespace MdxLint

/-- The token opens the bracket. -/
def Token.Opens (t : Token) (b : Bracket) : Prop :=
  if b = .substitution then t.suspends = true else t.isPunct b.opener = true

/-- What tokens do to the open brackets and substitutions, innermost first. -/
inductive Path : List Token → List Bracket → List Bracket → Prop
  | nil {bs : List Bracket} : Path [] bs bs
  | cons {t : Token} {ts : List Token} {bs bs' bs'' : List Bracket} (h : Moves t bs bs')
      (hs : Path ts bs' bs'') : Path (t :: ts) bs bs''

/-- The token opens the innermost bracket that the tokens leave open: those behind it close what
they open and nothing else. -/
def Innermost (ts : List Token) (t : Token) (b : Bracket) : Prop :=
  ∃ before inner, ts = before ++ t :: inner ∧ t.Opens b ∧ Path inner [] []

structure OpenedBy (t : Token) (o : Opening) : Prop where
  opens : t.Opens o.bracket
  place : ∃ u, t.text.toList = u ++ o.bracket.opener.toList ∧ o.place = t.place.after u

inductive Turn (t : Token) : List Opening → List Opening → Prop
  | stays {os : List Opening} (h : Moves t [] []) : Turn t os os
  | opens {o : Opening} {os : List Opening} (h : Moves t [] [o.bracket]) (ho : OpenedBy t o) :
      Turn t os (o :: os)
  | closes {o : Opening} {os : List Opening} (h : Moves t [o.bracket] []) : Turn t (o :: os) os
  | turns {o o' : Opening} {os : List Opening} (h : Moves t [o.bracket] [o'.bracket])
      (ho : OpenedBy t o') : Turn t (o :: os) (o' :: os)

/-- How the open brackets stem from the tokens: behind those that leave the outer ones open stand
some that open one more, with a token that opened it last. -/
inductive Stems : List Token → List Opening → Prop
  | nil {ts : List Token} (h : Path ts [] []) : Stems ts []
  | cons {before early inner : List Token} {t : Token} {o : Opening} {os : List Opening}
      (h : Stems before os) (hpath : Path (early ++ t :: inner) [] [o.bracket])
      (ht : OpenedBy t o) (hinner : Path inner [] []) :
      Stems (before ++ (early ++ t :: inner)) (o :: os)

section Paths

variable {t : Token} {ts us : List Token} {bs bs' bs'' : List Bracket} {o : Opening}
  {os os' : List Opening}

theorem Moves.around (h : Moves t bs bs') (outer : List Bracket) :
    Moves t (bs ++ outer) (bs' ++ outer) := by
  cases h with
  | opens hb ho => exact .opens hb ho
  | closes hb hc => exact .closes hb hc
  | @piece inner _ _ hk hbefore hbehind =>
    refine @Moves.piece _ (inner ++ outer) _ _ hk ?_ ?_
    · rw [hbefore, ← List.cons_append, ← apply_ite (· ++ outer)]
    · rw [hbehind, ← List.cons_append, ← apply_ite (· ++ outer)]
  | other hb hk => exact .other hb hk

theorem Path.single (h : Moves t bs bs') : Path [t] bs bs' := .cons h .nil

theorem Path.around (h : Path ts bs bs') (outer : List Bracket) :
    Path ts (bs ++ outer) (bs' ++ outer) := by
  induction h with
  | nil => exact .nil
  | cons hm _ ih => exact .cons (hm.around outer) ih

theorem Path.append (h : Path ts bs bs') (h' : Path us bs' bs'') : Path (ts ++ us) bs bs'' := by
  induction h with
  | nil => exact h'
  | cons hm _ ih => exact .cons hm (ih h')

theorem Stems.append (h : Stems ts os) (hus : Path us [] []) : Stems (ts ++ us) os := by
  cases h with
  | nil hts => exact .nil (hts.append hus)
  | @cons before early inner t o os h hpath ht hinner =>
    have hall := hpath.append (hus.around [o.bracket])
    rw [List.append_assoc, List.cons_append] at hall
    have hstems := Stems.cons h hall ht (hinner.append hus)
    rwa [List.append_assoc, List.append_assoc, List.cons_append]

theorem Stems.turn (h : Stems ts os) (ht : Turn t os os') : Stems (ts ++ [t]) os' := by
  cases ht with
  | stays hm => exact h.append (.single hm)
  | @opens o os hm ho =>
    have hpath : Path ([] ++ [t]) [] [o.bracket] := .single hm
    exact .cons h hpath ho .nil
  | closes hm =>
    cases h with
    | @cons before early inner t' o os h hpath ht' hinner =>
      have hclosed := h.append (hpath.append (.single hm))
      rwa [← List.append_assoc] at hclosed
  | turns hm ho =>
    cases h with
    | @cons before early inner t' o os h hpath ht' hinner =>
      have hstems := Stems.cons h (hpath.append (.single hm)) ho .nil
      rwa [← List.append_assoc] at hstems

theorem Stems.innermost (h : Stems ts (o :: os)) :
    ∃ t, t ∈ ts ∧ OpenedBy t o ∧ Innermost ts t o.bracket := by
  cases h with
  | @cons before early inner t o os h hpath ht hinner =>
    refine ⟨t, by simp, ht, before ++ early, inner, by simp, ht.opens, hinner⟩

end Paths

namespace Reader

section Turns

variable {r r' s : Reader} {c : Char} {tail more front behind : List Char} {piece : Lexeme}
  {t : Token} {ts before : List Token} {o : Opening} {os : List Opening}

theorem openedBy_of_ofOpener? {b : Bracket} (ht : t.kind = .punctuator)
    (hb : Bracket.ofOpener? t.text = some b) {head : Bool} : OpenedBy t ⟨b, t.place, head⟩ where
  opens := by
    rw [Token.Opens, if_neg (ne_substitution_of_ofOpener? hb)]
    exact Token.isPunct_opener ht hb
  place := by
    have hopens := Token.isPunct_opener ht hb
    rw [Token.isPunct, Bool.and_eq_true, beq_iff_eq, beq_iff_eq] at hopens
    exact ⟨[], congrArg String.toList hopens.2, rfl⟩

theorem turn_of_pushPunctuator {place : Place} (ht : t.kind = .punctuator)
    (h : r.pushPunctuator t place = .ok r') : Turn t r.openings r'.openings := by
  obtain ⟨b, ho, rfl⟩ | ⟨b, o, os, ho, hc, hr, rfl, rfl⟩ | ⟨ho, hc, rfl⟩ := pushPunctuator_cases h
  · refine .opens ?_ (openedBy_of_ofOpener? ht ho)
    exact .opens (ne_substitution_of_ofOpener? ho) (Token.isPunct_opener ht ho)
  · rw [hr]
    exact .closes (.closes (ne_substitution_of_ofCloser? hc) (Token.isPunct_closer ht hc))
  · refine .stays (.other ?_ (by simp [ht]))
    simp [Token.isBracket, Token.opens, Token.closes, ho, hc]

/-- What a piece of a template does to the open brackets where its first character stands. -/
theorem aroundPiece_cases (h : c = '\x7d' → r.inSubstitution = true) :
    (c ≠ '\x7d' ∧ r.aroundPiece c = r.openings) ∨
      (c = '\x7d' ∧ ∃ o, o.bracket = .substitution ∧ r.openings = o :: r.aroundPiece c) := by
  unfold aroundPiece
  split
  case isTrue hc =>
    have hin := h hc
    unfold inSubstitution at hin
    split at hin
    case h_1 o rest ho =>
      rw [ho]
      exact .inr ⟨hc, o, beq_iff_eq.1 hin, rfl⟩
    case h_2 => cases hin
  case isFalse hc => exact .inl ⟨hc, rfl⟩

theorem turn_of_closed {place : Place} (hin : c = '\x7d' → r.inSubstitution = true)
    {body : List Char} (hmore : more = body ++ Lexeme.TemplateEnd.closed.mark) :
    Turn ⟨.template, String.ofList (c :: more), place⟩ r.openings (r.aroundPiece c) := by
  have hmoves {bs : List Bracket} (hbs : bs = if c = '\x7d' then [.substitution] else []) :
      Moves ⟨.template, String.ofList (c :: more), place⟩ bs [] := by
    refine @Moves.piece _ [] _ _ rfl ?_ ?_
    · simp only [resumes_iff]
      exact hbs
    · simp only [suspends_iff hmore, reduceCtorEq, if_false]
  rcases aroundPiece_cases hin with ⟨hc, haround⟩ | ⟨hc, o, ho, haround⟩
  · rw [haround]
    exact .stays (hmoves (by rw [if_neg hc]))
  · rw [haround]
    exact .closes (hmoves (by rw [if_pos hc, ho]))

theorem turn_of_substitution (hin : c = '\x7d' → r.inSubstitution = true)
    {body : List Char} (hmore : more = body ++ Lexeme.TemplateEnd.substitution.mark) :
    Turn ⟨.template, String.ofList (c :: more), r.place⟩ r.openings
      (⟨.substitution, r.place.after (c :: more.take (more.length - 2)), false⟩ ::
        r.aroundPiece c) := by
  have hmoves {bs : List Bracket} (hbs : bs = if c = '\x7d' then [.substitution] else []) :
      Moves ⟨.template, String.ofList (c :: more), r.place⟩ bs [.substitution] := by
    refine @Moves.piece _ [] _ _ rfl ?_ ?_
    · simp only [resumes_iff]
      exact hbs
    · simp only [suspends_iff hmore, if_true]
  have hopened : OpenedBy ⟨.template, String.ofList (c :: more), r.place⟩
      ⟨.substitution, r.place.after (c :: more.take (more.length - 2)), false⟩ := by
    refine ⟨?_, c :: more.take (more.length - 2), ?_, rfl⟩
    · rw [Token.Opens, if_pos rfl, suspends_iff hmore]
    · rw [hmore, String.toList_ofList]
      simp [Lexeme.TemplateEnd.mark, Bracket.opener]
  rcases aroundPiece_cases hin with ⟨hc, haround⟩ | ⟨hc, o, ho, haround⟩
  · rw [haround]
    exact .opens (hmoves (by rw [if_neg hc])) hopened
  · rw [haround]
    exact .turns (hmoves (by rw [if_pos hc, ho])) hopened

theorem turn_of_push (hl : r.lexeme c tail = .ok piece)
    (hp : r.push piece.shape c (tail.take piece.extra) = .ok (some t, r')) :
    Turn t r.openings r'.openings := by
  cases lexes_of_lexeme hl with
  | space | line | block => cases hp
  | closed hc hn =>
    cases hp
    obtain ⟨body, hbody⟩ := Lexeme.exists_of_template hn
    exact turn_of_closed (inSubstitution_of_piece hc) hbody
  | substitution hc hn =>
    cases hp
    obtain ⟨body, hbody⟩ := Lexeme.exists_of_template hn
    exact turn_of_substitution (inSubstitution_of_piece hc) hbody
  | string | regex | number | keyword | name =>
    cases hp
    exact .stays (.other (Token.isBracket_of_kind_ne (by simp)) (by simp))
  | sign =>
    obtain ⟨ht, hpush⟩ := pushPunctuator_of_push hp
    cases ht
    exact turn_of_pushPunctuator rfl hpush

theorem step_cases {x y : List Char} {token : Option Token}
    (hl : r.lexeme c (x ++ y) = .ok piece) (hx : piece.extra = x.length)
    (hp : r.push piece.shape c x = .ok (token, r')) :
    r'.place = r.place.after (c :: x) ∧
      ((token = none ∧ r'.openings = r.openings) ∨
        ∃ t, token = some t ∧ t.text.toList = c :: x ∧ t.place = r.place ∧
          Turn t r.openings r'.openings) := by
  have htake : (x ++ y).take piece.extra = x := List.take_left' hx.symm
  rw [← htake] at hp
  obtain ⟨hplace, hstep⟩ := push_cases hl hp
  rw [htake] at hplace hstep
  refine ⟨hplace, ?_⟩
  obtain ⟨-, htoken, hopenings⟩ | ⟨t, rfl, htext, hat, -⟩ := hstep
  · exact .inl ⟨htoken, hopenings⟩
  · refine .inr ⟨t, rfl, ?_, hat, turn_of_push hl hp⟩
    rw [htext, String.toList_ofList]

/-- The open brackets stem from the tokens that were read, behind those they stem from before. -/
theorem Passes.stems (h : Passes behind r front ts s) (hr : Stems before r.openings) :
    Stems (before ++ ts) s.openings := by
  induction h generalizing before with
  | done => rwa [List.append_nil]
  | step hl hx hp _ ih =>
    obtain ⟨-, ⟨rfl, hopenings⟩ | ⟨t, rfl, -, -, hturn⟩⟩ := step_cases hl hx hp
    · exact ih (hopenings ▸ hr)
    · have hturned := ih (hr.turn hturn)
      rwa [List.append_assoc] at hturned

theorem Passes.exists_of_mem (h : Passes behind r front ts s) (ht : t ∈ ts) : ∃ f g,
    front = f ++ (t.text.toList ++ g) ∧ t.place = r.place.after f := by
  induction h with
  | done => cases ht
  | @step r r' s c x front piece token ts hl hx hp _ ih =>
    obtain ⟨hplace, hstep⟩ := step_cases hl hx hp
    rcases List.mem_append.1 ht with ht | ht
    · obtain rfl := Option.mem_toList.1 ht
      obtain ⟨htoken, -⟩ | ⟨u, htoken, htext, hat, -⟩ := hstep
      · cases htoken
      · cases htoken
        rw [htext]
        exact ⟨[], front, rfl, hat⟩
    · obtain ⟨f, g, rfl, hat⟩ := ih ht
      refine ⟨c :: (x ++ f), g, by simp, ?_⟩
      rw [hat, hplace, ← Place.after_append, List.cons_append]

end Turns

end Reader

end MdxLint
