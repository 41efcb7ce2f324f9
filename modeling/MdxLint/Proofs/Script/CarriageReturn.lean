import MdxLint.Proofs.Script.Culprit
import MdxLint.Proofs.Script.LineEnd

/-! # Line ends and the verdict

A script is judged alike with its lines ended by line feeds and by carriage returns and line feeds,
with the same free names or a fault in the same line and column, unless a string or a regular
expression that is read holds a line feed. Such a token is read with line feeds and a fault with
carriage returns.
-/

namespace MdxLint

/-! ## Lines and columns -/

/-- The places have one line and column, in texts that may differ in the width of line ends. -/
structure Place.Coincides (p p' : Place) : Prop where
  line : p'.line = p.line
  column : p'.column = p.column

namespace Place

variable {p p' : Place} {cs : List Char}

theorem Coincides.refl (p : Place) : p.Coincides p := ⟨rfl, rfl⟩

theorem Coincides.after_crlf (h : p.Coincides p') (cs : List Char) :
    (p.after cs).Coincides (p'.after (crlf cs)) := by
  induction cs generalizing p p' with
  | nil => exact h
  | cons c cs ih =>
    by_cases hc : c = '\n'
    · subst hc
      exact ih ⟨congrArg (· + 1) h.line, rfl⟩
    · rw [crlf_cons hc, after_cons, after_cons, next, next, if_neg hc, if_neg hc]
      exact ih ⟨h.line, congrArg (· + 1) h.column⟩

theorem column_after (h : '\n' ∉ cs) (p : Place) : (p.after cs).column = p.column + cs.length := by
  induction cs generalizing p with
  | nil => rfl
  | cons c cs ih =>
    rw [List.mem_cons, not_or] at h
    rw [after_cons, ih h.2, next, if_neg (Ne.symm h.1), List.length_cons]
    dsimp only
    omega

theorem Coincides.eq_nil (h : p.Coincides (p.after cs)) : cs = [] := by
  have hline := h.line
  rw [line_after, Nat.add_eq_left, List.count_eq_zero] at hline
  have hcolumn := h.column
  rw [column_after hline, Nat.add_eq_left] at hcolumn
  exact List.eq_nil_of_length_eq_zero hcolumn

theorem Coincides.eq_of_append {f b f' b' : List Char} (h : f ++ b = f' ++ b')
    (hp : (p.after f).Coincides (p.after f')) : f = f' := by
  obtain ⟨x, rfl, -⟩ | ⟨x, rfl, -⟩ := List.append_eq_append_iff.1 h
  · rw [after_append] at hp
    rw [hp.eq_nil, List.append_nil]
  · rw [after_append] at hp
    have hp' : (p.after f').Coincides ((p.after f').after x) := ⟨hp.line.symm, hp.column.symm⟩
    rw [hp'.eq_nil, List.append_nil]

end Place

/-! ## Readers of the two texts -/

/-- The token of the text with carriage returns: the same, unless it is a piece of a template. -/
structure Token.Crlf (t t' : Token) : Prop where
  kind : t'.kind = t.kind
  text : t'.text.toList = crlf t.text.toList
  whole : t.kind ≠ .template → '\n' ∉ t.text.toList
  place : t.place.Coincides t'.place

structure Opening.Crlf (o o' : Opening) : Prop where
  bracket : o'.bracket = o.bracket
  controlHead : o'.controlHead = o.controlHead
  place : o.place.Coincides o'.place

/-- The reader has read the same, with carriage returns before the line feeds. -/
structure Reader.Crlf (r r' : Reader) : Prop where
  place : r.place.Coincides r'.place
  openings : List.Forall₂ Opening.Crlf r.openings r'.openings
  last : Option.Rel Token.Crlf r.last r'.last
  headClosed : r'.headClosed = r.headClosed

/-- What a lexeme comes to: the token, if any, and the reader behind it. -/
def Reader.CrlfStep (x x' : Option Token × Reader) : Prop :=
  Option.Rel Token.Crlf x.1 x'.1 ∧ x.2.Crlf x'.2

namespace Token.Crlf

variable {t t' : Token} (h : t.Crlf t')

include h

theorem text_eq_iff {x : String} (hx : '\n' ∉ x.toList) : t'.text = x ↔ t.text = x := by
  rw [← String.toList_inj, ← String.toList_inj, h.text, crlf_eq_iff hx]

theorem text_eq (hk : t.kind ≠ .template) : t'.text = t.text := (h.text_eq_iff (h.whole hk)).2 rfl

end Token.Crlf

namespace Reader

namespace Crlf

variable {r r' : Reader} (h : r.Crlf r')

include h

theorem inSubstitution : r'.inSubstitution = r.inSubstitution := by
  have hopenings := h.openings
  unfold Reader.inSubstitution
  generalize r.openings = os, r'.openings = os' at hopenings
  cases hopenings with
  | nil => rfl
  | cons ho => exact congrArg (· == Bracket.substitution) ho.bracket

theorem regexAllowed : r'.regexAllowed = r.regexAllowed := by
  have hlast := h.last
  unfold Reader.regexAllowed
  generalize r.last = last, r'.last = last' at hlast
  cases hlast with
  | none => rfl
  | @some t t' ht =>
    simp only [ht.kind, h.headClosed]
    cases hk : t.kind with
    | template => rfl
    | _ => rw [ht.text_eq (by simp [hk])]

theorem atControlHead : r'.atControlHead = r.atControlHead := by
  have hlast := h.last
  unfold Reader.atControlHead
  generalize r.last = last, r'.last = last' at hlast
  cases hlast with
  | none => rfl
  | @some t t' ht =>
    rw [Option.any_some, Option.any_some, ht.kind]
    cases hk : t.kind with
    | template => rfl
    | _ => rw [ht.text_eq (by simp [hk])]

theorem lexeme (c : Char) (tail : List Char) : r'.lexeme c tail = r.lexeme c tail := by
  simp only [Reader.lexeme, h.inSubstitution, h.regexAllowed]

theorem openings_aroundPiece (c : Char) :
    List.Forall₂ Opening.Crlf (r.aroundPiece c) (r'.aroundPiece c) := by
  unfold aroundPiece
  split
  · exact List.forall₂_drop 1 h.openings
  · exact h.openings

end Crlf

/-- Both fail with one fault, or both answer, and what they answer is related. -/
inductive Agree {α β : Type} (R : α → β → Prop) :
    Except ScanFault α → Except ScanFault β → Prop
  | ok {a : α} {b : β} (h : R a b) : Agree R (.ok a) (.ok b)
  | error {fault : ScanFault} : Agree R (.error fault) (.error fault)

namespace Agree

variable {α β : Type} {R : α → β → Prop} {x : Except ScanFault α} {y : Except ScanFault β}

theorem of_ok {a : α} (h : Agree R x y) (hx : x = .ok a) : ∃ b, y = .ok b ∧ R a b := by
  cases h with
  | ok h =>
    cases hx
    exact ⟨_, rfl, h⟩
  | error => cases hx

theorem of_error {fault : ScanFault} (h : Agree R x y) (hx : x = .error fault) :
    y = .error fault := by
  cases h with
  | ok => cases hx
  | error =>
    cases hx
    rfl

theorem map {γ δ : Type} {S : γ → δ → Prop} {f : α → γ} {g : β → δ} (h : Agree R x y)
    (hfg : ∀ a b, R a b → S (f a) (g b)) : Agree S (x.map f) (y.map g) := by
  cases h with
  | ok h => exact .ok (hfg _ _ h)
  | error => exact .error

end Agree

namespace Crlf

variable {r r' : Reader} (h : r.Crlf r')

include h

theorem pushPunctuator {t t' : Token} (ht : t.Crlf t') (hk : t.kind = .punctuator)
    {p p' : Place} (hp : p.Coincides p') :
    Agree Reader.Crlf (r.pushPunctuator t p) (r'.pushPunctuator t' p') := by
  unfold Reader.pushPunctuator
  rw [ht.text_eq (by simp [hk])]
  split
  case h_1 b _ =>
    have hopened : Opening.Crlf ⟨b, t.place, b == .round && r.atControlHead⟩
        ⟨b, t'.place, b == .round && r'.atControlHead⟩ :=
      ⟨rfl, by rw [h.atControlHead], ht.place⟩
    exact .ok ⟨hp, .cons hopened h.openings, .some ht, rfl⟩
  case h_2 b _ _ =>
    have hopenings := h.openings
    generalize r.openings = os, r'.openings = os' at hopenings
    cases hopenings with
    | nil => exact .error
    | cons ho hos =>
      dsimp only
      rw [ho.bracket]
      split
      · exact .ok ⟨hp, hos, .some ht, ho.controlHead⟩
      · exact .error
  case h_3 => exact .ok ⟨hp, h.openings, .some ht, rfl⟩

theorem push {shape : Shape} {c : Char} {more : List Char} (hc : c ≠ '\n')
    (hwhole : shape ∉ [.blank, .token .template, .substitution] → '\n' ∉ more)
    (hsub : shape = .substitution → ∃ body, more = body ++ ['$', '\x7b']) :
    Agree CrlfStep (r.push shape c more) (r'.push shape c (crlf more)) := by
  have hplace : (r.place.after (c :: more)).Coincides (r'.place.after (c :: crlf more)) := by
    rw [← crlf_cons hc]
    exact h.place.after_crlf _
  have htoken (kind : TokenKind) (hk : kind ≠ .template → '\n' ∉ more) :
      Token.Crlf ⟨kind, String.ofList (c :: more), r.place⟩
        ⟨kind, String.ofList (c :: crlf more), r'.place⟩ := by
    refine ⟨rfl, ?_, fun hne => ?_, h.place⟩
    · rw [String.toList_ofList, String.toList_ofList, crlf_cons hc]
    · rw [String.toList_ofList, List.mem_cons, not_or]
      exact ⟨Ne.symm hc, hk hne⟩
  unfold Reader.push
  dsimp only
  split
  case h_1 => exact .ok ⟨.none, hplace, h.openings, h.last, h.headClosed⟩
  case h_2 =>
    have ht := htoken .punctuator fun _ => hwhole (by simp)
    exact (h.pushPunctuator ht rfl hplace).map fun _ _ hs => ⟨.some ht, hs⟩
  case h_3 =>
    have ht := htoken .template fun hne => absurd rfl hne
    exact .ok ⟨.some ht, hplace, h.openings_aroundPiece c, .some ht, rfl⟩
  case h_4 kind hpunct htemplate =>
    have ht := htoken kind fun _ => hwhole (by simpa using htemplate)
    exact .ok ⟨.some ht, hplace, h.openings, .some ht, rfl⟩
  case h_5 =>
    have ht := htoken .template fun hne => absurd rfl hne
    obtain ⟨body, rfl⟩ := hsub rfl
    have hbody (cs : List Char) :
        (cs ++ ['$', '\x7b']).take ((cs ++ ['$', '\x7b']).length - 2) = cs := by simp
    have hmark : crlf (body ++ ['$', '\x7b']) = crlf body ++ ['$', '\x7b'] := crlf_append ..
    have hopened := h.place.after_crlf (c :: body)
    rw [crlf_cons hc] at hopened
    rw [hmark] at ht hplace ⊢
    rw [hbody, hbody]
    have hopenings := h.openings_aroundPiece c
    exact .ok ⟨.some ht, hplace, .cons ⟨rfl, rfl, hopened⟩ hopenings, .some ht, rfl⟩

end Crlf

end Reader

/-! ## The two readings -/

/-- A line feed stands in the string or regular expression. -/
def Token.Torn (t : Token) : Prop :=
  (t.kind = .string ∨ t.kind = .regex) ∧ '\n' ∈ t.text.toList

theorem Token.Crlf.not_torn {t t' : Token} (h : t.Crlf t') : ¬t.Torn := by
  rintro ⟨hk, hn⟩
  refine h.whole ?_ hn
  rcases hk with hk | hk
  · simp [hk]
  · simp [hk]

theorem Lexical.exists_quote {kind : TokenKind} {text behind : List Char}
    (h : Lexical kind text behind) (hk : kind = .string ∨ kind = .regex) :
    ∃ c cs, text = c :: cs ∧ c ∈ ['\'', '"', '/'] := by
  cases h with
  | string h =>
    cases h with
    | intro hc => exact ⟨_, _, rfl, by rcases hc with rfl | rfl <;> decide⟩
  | regex h =>
    cases h with
    | intro => exact ⟨_, _, rfl, by decide⟩
  | _ => simp at hk

namespace Reader

variable {r r' s : Reader} {c : Char} {tail front behind back : List Char} {piece : Lexeme}
  {token : Option Token} {ts : List Token} {e : ScanError}

theorem lexeme_newline : r.lexeme '\n' tail = .ok ⟨.blank, 0⟩ := by
  have hblank : isBlank '\n' = true := by decide
  simp [lexeme, hblank]

theorem Crlf.rereads (hr : r.Crlf r') (c : Char) (tail : List Char) :
    Rereads tail (r.lexeme c tail) (r'.lexeme c (crlf tail)) := by
  rw [hr.lexeme]
  exact rereads_lexeme

theorem Crlf.reads (hr : r.Crlf r') (hc : c ≠ '\n') (hl : r.lexeme c tail = .ok piece) :
    (r'.lexeme c (crlf tail) = .ok ⟨piece.shape, (crlf (tail.take piece.extra)).length⟩ ∧
        Agree CrlfStep (r.push piece.shape c (tail.take piece.extra))
          (r'.push piece.shape c (crlf (tail.take piece.extra)))) ∨
      ∃ fault, r'.lexeme c (crlf tail) = .error fault ∧
        (piece.shape = .token .string ∨ piece.shape = .token .regex) ∧
        '\n' ∈ tail.take piece.extra := by
  have hread := hr.rereads c tail
  rw [hl] at hread
  refine (hread.cases_ok (extra_le hl)).imp_left fun ⟨hread, hwhole⟩ => ⟨hread, ?_⟩
  refine hr.push hc hwhole fun hs => ?_
  cases lexes_of_lexeme hl with
  | substitution _ hn => exact Lexeme.exists_of_template hn
  | _ => cases hs

theorem step_crlf (hr : r.Crlf r') (hl : r.lexeme c tail = .ok piece)
    (hp : r.push piece.shape c (tail.take piece.extra) = .ok (token, s)) :
    (∃ token' s', Passes (crlf (tail.drop piece.extra)) r' (crlf (c :: tail.take piece.extra))
        token'.toList s' ∧ Option.Rel Token.Crlf token token' ∧ s.Crlf s') ∨
      ∃ t e, token = some t ∧ t.Torn ∧ r'.tokens (crlf (c :: tail)) = .error e ∧
        t.place.Coincides e.place := by
  by_cases hc : c = '\n'
  · -- two blanks take the place of one
    subst hc
    rw [lexeme_newline] at hl
    cases hl
    cases hp
    refine .inl ⟨none, r'.passed ['\r', '\n'], .blanks (by simp; decide), .none, ?_⟩
    exact ⟨hr.place.after_crlf ['\n'], hr.openings, hr.last, hr.headClosed⟩
  obtain ⟨hread, hagree⟩ | ⟨fault, hread, hs, hn⟩ := hr.reads hc hl
  · obtain ⟨⟨token', s'⟩, hp', htoken, hs'⟩ := hagree.of_ok hp
    refine .inl ⟨token', s', ?_, htoken, hs'⟩
    have hall := crlf_take_append_drop piece.extra tail
    rw [← hall, ← List.nil_append (crlf (tail.drop piece.extra))] at hread
    have hstep := Passes.step hread rfl hp' .done
    rwa [List.append_nil, List.append_nil, ← crlf_cons hc] at hstep
  · obtain ⟨-, ⟨hblank, -⟩ | ⟨t, rfl, htext, hplace, -⟩⟩ := push_cases hl hp
    · simp [hblank] at hs
    have hkind := kind?_of_push hp
    refine .inr ⟨t, ⟨fault, r'.place⟩, rfl, ⟨?_, ?_⟩, ?_, hplace ▸ hr.place⟩
    · refine hs.imp (fun hs => ?_) fun hs => ?_
      · rw [hs] at hkind
        exact (Option.some.inj hkind).symm
      · rw [hs] at hkind
        exact (Option.some.inj hkind).symm
    · rw [htext, String.toList_ofList]
      exact List.mem_cons_of_mem _ hn
    · rw [crlf_cons hc, tokens, hread]

/-- What was read is read again up to the end, or up to the first token that is torn. -/
theorem Passes.crlf_cases (h : Passes behind r front ts s) (hr : r.Crlf r') :
    (∃ ts' s', Passes (crlf behind) r' (crlf front) ts' s' ∧ List.Forall₂ Token.Crlf ts ts' ∧
        s.Crlf s') ∨
      ∃ t ∈ ts, t.Torn ∧ ∃ e, r'.tokens (crlf (front ++ behind)) = .error e ∧
        t.place.Coincides e.place := by
  induction h generalizing r' with
  | done => exact .inl ⟨[], r', .done, .nil, hr⟩
  | @step r r₁ s c x front piece token ts hl hx hp _ ih =>
    have htake : (x ++ (front ++ behind)).take piece.extra = x := List.take_left' hx.symm
    have hdrop : (x ++ (front ++ behind)).drop piece.extra = front ++ behind :=
      List.drop_left' hx.symm
    rw [← htake] at hp
    have hstep := step_crlf hr hl hp
    rw [htake, hdrop] at hstep
    have hall : c :: (x ++ front) ++ behind = c :: x ++ (front ++ behind) := by simp
    obtain ⟨token', s₁, hpass, htoken, hs⟩ | ⟨t, e, rfl, htorn, hread, hplace⟩ := hstep
    · obtain ⟨ts', s', hpasses, hts, hs'⟩ | ⟨t, ht, htorn, e, hread, hplace⟩ := ih hs
      · refine .inl ⟨token'.toList ++ ts', s', ?_, ?_, hs'⟩
        · rw [crlf_append] at hpass
          rw [← List.cons_append, crlf_append]
          exact hpass.append hpasses
        · cases htoken with
          | none => exact hts
          | some ht => exact .cons ht hts
      · refine .inr ⟨t, List.mem_append_right _ ht, htorn, e, ?_, hplace⟩
        rw [hall, crlf_append, hpass.tokens_eq, hread]
        rfl
    · refine .inr ⟨t, by simp, htorn, e, ?_, hplace⟩
      rw [hall]
      exact hread

theorem Stuck.crlf (h : Stuck s back e) {s' : Reader} (hs : s.Crlf s') :
    ∃ e', s'.tokens (crlf back) = .error e' ∧ e.place.Coincides e'.place := by
  cases h with
  | @unclosed o os ho =>
    have hopenings := hs.openings
    rw [ho, List.forall₂_cons_left_iff] at hopenings
    obtain ⟨o', os', hcrlf, -, ho'⟩ := hopenings
    refine ⟨⟨.unclosed o'.bracket.opener, o'.place⟩, ?_, hcrlf.place⟩
    rw [crlf_nil, tokens, ho']
  | @lexeme c tail fault hl =>
    have hc : c ≠ '\n' := by
      rintro rfl
      rw [lexeme_newline] at hl
      cases hl
    have hread := hs.rereads c tail
    rw [hl] at hread
    refine ⟨⟨fault, s'.place⟩, ?_, hs.place⟩
    rw [crlf_cons hc, tokens, hread.eq_error]
  | @push c tail piece fault hl hp =>
    have hc : c ≠ '\n' := by
      rintro rfl
      rw [lexeme_newline] at hl
      cases hl
      cases hp
    obtain ⟨hread, hagree⟩ | ⟨fault, hread, -⟩ := hs.reads hc hl
    · have hp' := hagree.of_error hp
      refine ⟨⟨fault, s'.place⟩, ?_, hs.place⟩
      rw [crlf_cons hc, tokens, hread]
      dsimp only
      rw [← crlf_take_append_drop piece.extra tail, List.take_left, hp']
    · refine ⟨⟨fault, s'.place⟩, ?_, hs.place⟩
      rw [crlf_cons hc, tokens, hread]

theorem Passes.lexical (h : Passes behind r front ts s) {t : Token} (ht : t ∈ ts) :
    ∃ rest, Lexical t.kind t.text.toList rest := by
  induction h with
  | done => cases ht
  | @step r r₁ s c x front piece token ts hl hx hp _ ih =>
    have htake : (x ++ (front ++ behind)).take piece.extra = x := List.take_left' hx.symm
    rw [← htake] at hp
    rcases List.mem_append.1 ht with ht | ht
    · obtain rfl := Option.mem_toList.1 ht
      obtain ⟨-, ⟨-, hnone, -⟩ | ⟨u, hsome, htext, -⟩⟩ := push_cases hl hp
      · cases hnone
      · cases hsome
        rw [htext, String.toList_ofList]
        exact ⟨_, lexical_of_push hl hp⟩
    · exact ih ht

theorem Passes.exists_front (h : Passes behind initial front ts s)
    (he : initial.tokens (front ++ behind) = .error e) : ∃ f b, front ++ behind = f ++ b ∧
      e.place = Place.origin.after f ∧
      (front.length ≤ f.length ∨ ∃ o : Bracket, o.opener.toList <+: b) := by
  rw [h.tokens_eq] at he
  cases hs : s.tokens behind with
  | ok us =>
    rw [hs] at he
    cases he
  | error e' =>
    rw [hs] at he
    cases he
    obtain ⟨front', back, ts', s', rfl, hpasses, hstuck⟩ := exists_passes_of_error hs
    have hall := h.append hpasses
    cases hstuck with
    | unclosed ho =>
      have hempty : Stems [] initial.openings := .nil .nil
      obtain ⟨f, rest, hfront, hplace, -⟩ := exists_opener hall (hall.stems hempty) ho
      rw [← List.append_assoc, List.append_nil, hfront]
      exact ⟨f, _, rfl, hplace, .inr ⟨_, List.prefix_append ..⟩⟩
    | lexeme | push =>
      exact ⟨front ++ front', _, (List.append_assoc ..).symm, hall.place_eq, .inl (by simp)⟩

theorem Passes.not_coincides (h : Passes behind initial front ts s)
    (he : initial.tokens (front ++ behind) = .error e) {t : Token} (ht : t ∈ ts)
    (hk : t.kind = .string ∨ t.kind = .regex) : ¬t.place.Coincides e.place := by
  intro hplace
  obtain ⟨f, g, hfront, hat⟩ := h.exists_of_mem ht
  obtain ⟨f', b, hsplit, hat', hfar⟩ := h.exists_front he
  obtain ⟨rest, hlexical⟩ := h.lexical ht
  obtain ⟨c, cs, htext, hc⟩ := hlexical.exists_quote hk
  rw [hfront, List.append_assoc] at hsplit
  rw [hat, hat'] at hplace
  obtain rfl := hplace.eq_of_append hsplit
  rw [List.append_cancel_left_eq, htext] at hsplit
  obtain hle | ⟨o, x, rfl⟩ := hfar
  · rw [hfront, htext, List.length_append, List.length_append, List.length_cons] at hle
    omega
  · cases o <;> obtain ⟨rfl, -⟩ := List.cons.inj hsplit <;> exact absurd hc (by decide)

end Reader

/-! ## The same names -/

theorem newline_not_mem_of_told : ∀ x ∈ toldTexts, '\n' ∉ x.toList := by decide +kernel

theorem Token.Crlf.resembles {t t' : Token} (h : t.Crlf t') : t.Resembles t' where
  kind := h.kind
  text hk := h.text_eq fun htemplate => by simp [htemplate] at hk
  told x hx := h.text_eq_iff (newline_not_mem_of_told x hx)

namespace Script

variable {ts ts' : List Token}

variable (h : List.Forall₂ Token.Crlf ts ts')

include h

theorem text_crlf (i : Nat) :
    ((ofTokens ts').text i).toList = crlf ((ofTokens ts).text i).toList := by
  unfold Script.text
  rw [tokens_ofTokens, tokens_ofTokens]
  obtain ⟨ht, ht'⟩ | ⟨t, t', ht, ht', hcrlf⟩ := getElem?_of_forall₂ h i
  · rw [ht, ht']
    rfl
  · rw [ht, ht']
    exact hcrlf.text

theorem newline_not_mem_of_isName {i : Nat} (hi : (ofTokens ts).isName i = true) :
    '\n' ∉ ((ofTokens ts).text i).toList := by
  unfold Script.isName Script.kind? at hi
  unfold Script.text
  rw [tokens_ofTokens] at hi ⊢
  obtain ⟨ht, -⟩ | ⟨t, t', ht, -, hcrlf⟩ := getElem?_of_forall₂ h i
  · simp [ht] at hi
  · have hk : t.kind = .name := by simpa [ht] using hi
    rw [ht]
    exact hcrlf.whole (by simp [hk])

theorem freeNames_crlf : (ofTokens ts').freeNames = (ofTokens ts).freeNames := by
  have hlike : (ofTokens ts).Resembles (ofTokens ts') :=
    resembles_ofTokens (h.imp fun _ _ ht => ⟨ht.resembles, ht.place.line⟩)
  have htext {i : Nat} (hi : (ofTokens ts).isName i = true) (j : Nat) :
      (ofTokens ts').text j = (ofTokens ts).text i ↔
        (ofTokens ts).text j = (ofTokens ts).text i := by
    rw [← String.toList_inj, ← String.toList_inj, text_crlf h,
      crlf_eq_iff (newline_not_mem_of_isName h hi)]
  have huses : (ofTokens ts').freeUses = (ofTokens ts).freeUses := by
    refine hlike.freeUses fun i j hi _ => ?_
    rw [(htext hi i).2 rfl, htext hi]
  rw [freeNames, freeNames, huses]
  congr 1
  refine List.map_congr_left fun i hi => ?_
  have hall := (List.mem_filter.1 hi).2
  simp only [Bool.and_eq_true] at hall
  exact (htext hall.1.1 i).2 rfl

end Script

/-! ## The verdict -/

/-- The same names are free, or there are faults in the same line and column. -/
inductive SameVerdict : Except ScanError (List String) → Except ScanError (List String) → Prop
  | names {names : List String} : SameVerdict (.ok names) (.ok names)
  | fault {e e' : ScanError} (h : e.place.Coincides e'.place) : SameVerdict (.error e) (.error e')

/-- The token is read before a fault ends the reading, if one does. -/
def Met (code : String) (t : Token) : Prop :=
  ∃ front behind ts s, code.toList = front ++ behind ∧
    Reader.Passes behind .initial front ts s ∧ t ∈ ts

/-- The script with its lines ended by carriage returns and line feeds. -/
def crlfText (code : String) : String := String.ofList (crlf code.toList)

theorem Reader.crlf_initial : Reader.initial.Crlf Reader.initial := ⟨.refl _, .nil, .none, rfl⟩

/-- The verdict is the same for both kinds of line ends exactly if no string and no regular
expression that is read holds a line feed. -/
theorem sameVerdict_crlf_iff {code : String} :
    SameVerdict (freeNamesOf code) (freeNamesOf (crlfText code)) ↔ ∀ t, Met code t → ¬t.Torn := by
  have hscan : scan (crlfText code) = Reader.initial.tokens (crlf code.toList) := by
    rw [scan, crlfText, String.toList_ofList]
  constructor
  · rintro hsame t ⟨front, behind, ts, s, hcode, hpasses, ht⟩ htorn
    obtain ⟨ts', -, -, hts, -⟩ | ⟨u, hu, hutorn, e', hread, hplace⟩ :=
      hpasses.crlf_cases Reader.crlf_initial
    · obtain ⟨i, hi⟩ := List.mem_iff_getElem?.1 ht
      obtain ⟨hnone, -⟩ | ⟨_, _, hi', -, hcrlf⟩ := getElem?_of_forall₂ hts i
      · rw [hi] at hnone
        cases hnone
      · cases hi.symm.trans hi'
        exact hcrlf.not_torn htorn
    · -- the faults would have to be where the torn token begins
      rw [← hcode, ← hscan] at hread
      rw [freeNamesOf, freeNamesOf, hread] at hsame
      cases hs : scan code with
      | ok =>
        rw [hs] at hsame
        cases hsame
      | error e =>
        rw [hs] at hsame
        rw [scan, hcode] at hs
        cases hsame with
        | fault h =>
          exact hpasses.not_coincides hs hu hutorn.1
            ⟨h.line.symm.trans hplace.line, h.column.symm.trans hplace.column⟩
  · intro hmet
    rw [freeNamesOf, freeNamesOf, hscan]
    cases hs : scan code with
    | ok ts =>
      obtain ⟨s, hpasses, ho⟩ := Reader.exists_passes_of_ok hs
      obtain ⟨ts', s', hpasses', hts, hs'⟩ | ⟨t, ht, htorn, -⟩ :=
        hpasses.crlf_cases Reader.crlf_initial
      · have ho' : s'.openings = [] := by
          have hopenings := hs'.openings
          rwa [ho, List.forall₂_nil_left_iff] at hopenings
        have hread := hpasses'.tokens_eq
        rw [crlf_nil, List.append_nil, Reader.tokens, ho'] at hread
        rw [hread]
        have hnames := Script.freeNames_crlf hts
        simp only [Except.map, List.append_nil, hnames]
        exact .names
      · exact (hmet t ⟨_, [], ts, s, (List.append_nil _).symm, hpasses, ht⟩ htorn).elim
    | error e =>
      obtain ⟨front, back, ts, s, hcode, hpasses, hstuck⟩ := Reader.exists_passes_of_error hs
      obtain ⟨ts', s', hpasses', -, hs'⟩ | ⟨t, ht, htorn, -⟩ :=
        hpasses.crlf_cases Reader.crlf_initial
      · obtain ⟨e', hread, hplace⟩ := hstuck.crlf hs'
        rw [hcode, crlf_append, hpasses'.tokens_eq, hread]
        exact .fault hplace
      · exact (hmet t ⟨front, back, ts, s, hcode, hpasses, ht⟩ htorn).elim

/-- A string that goes on behind a backslash in the next line. -/
example : freeNamesOf "'a\\\nb'; x" = .ok ["x"] ∧
    freeNamesOf (crlfText "'a\\\nb'; x") = .error ⟨.unterminatedString, .origin⟩ := by
  decide +kernel

end MdxLint
