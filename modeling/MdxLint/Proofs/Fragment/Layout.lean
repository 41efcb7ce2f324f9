import MdxLint.Proofs.Fragment.Front
import MdxLint.Proofs.Fragment.Window

/-! # Layouts

A layout puts blanks before, between and behind the pieces of a program. The reader gives back the
pieces, whatever the blanks are, as long as no piece runs on into what follows it.
-/

namespace MdxLint

abbrev Spaced := List (List Char × Piece)

namespace Spaced

def text : Spaced → List Char → List Char
  | [], rest => rest
  | (gap, p) :: l, rest => gap ++ (p.text.toList ++ text l rest)

def tokens (place : Place) : Spaced → List Token
  | [] => []
  | (gap, p) :: l =>
    p.token (place.after gap) :: tokens ((place.after gap).after p.text.toList) l

def placeBehind (place : Place) : Spaced → Place
  | [] => place
  | (gap, p) :: l => placeBehind ((place.after gap).after p.text.toList) l

def Apart : Spaced → List Char → Prop
  | [], _ => True
  | (gap, p) :: l, rest =>
    (∀ c ∈ gap, isBlank c = true) ∧ (∀ c ∈ (text l rest).head?, p.runsOn c = false) ∧ Apart l rest

variable {l l' : Spaced} {rest : List Char} {place : Place}

@[simp] theorem text_append : text (l ++ l') rest = text l (text l' rest) := by
  induction l with
  | nil => rfl
  | cons e l ih => simp only [List.cons_append, text, ih]

@[simp] theorem tokens_append :
    tokens place (l ++ l') = tokens place l ++ tokens (placeBehind place l) l' := by
  induction l generalizing place with
  | nil => rfl
  | cons e l ih => simp only [List.cons_append, tokens, placeBehind, ih]

@[simp] theorem placeBehind_append :
    placeBehind place (l ++ l') = placeBehind (placeBehind place l) l' := by
  induction l generalizing place with
  | nil => rfl
  | cons e l ih => simp only [List.cons_append, placeBehind, ih]

@[simp] theorem apart_append : Apart (l ++ l') rest ↔ Apart l (text l' rest) ∧ Apart l' rest := by
  induction l with
  | nil => simp [Apart]
  | cons e l ih => simp only [List.cons_append, Apart, text_append, ih, and_assoc]

end Spaced

section Result

variable {ε : Type} (x : Except ε (List Token)) (ts us : List Token)

theorem map_nil_append : x.map ([] ++ ·) = x := by cases x <;> rfl

theorem map_append_append : (x.map (us ++ ·)).map (ts ++ ·) = x.map (ts ++ us ++ ·) := by
  cases x with
  | error => rfl
  | ok vs => exact congrArg Except.ok (List.append_assoc ts us vs).symm

end Result

namespace Reader

/-- The reader goes over a spaced list of pieces, in front of any text that they keep apart from,
and has other brackets open behind it. -/
def Reads (r : Reader) (l : Spaced) (rest : List Char) (r' : Reader) : Prop :=
  r'.place = l.placeBehind r.place ∧
    r.tokens (l.text rest) = (r'.tokens rest).map (l.tokens r.place ++ ·)

theorem Reads.refl (r : Reader) (rest : List Char) : r.Reads [] rest r :=
  ⟨rfl, (map_nil_append _).symm⟩

theorem Reads.trans {r r' r'' : Reader} {l l' : Spaced} {rest : List Char}
    (h : r.Reads l (l'.text rest) r') (h' : r'.Reads l' rest r'') :
    r.Reads (l ++ l') rest r'' := by
  obtain ⟨hp, ht⟩ := h
  obtain ⟨hp', ht'⟩ := h'
  refine ⟨by rw [hp', hp, Spaced.placeBehind_append], ?_⟩
  rw [Spaced.text_append, ht, ht', hp, Spaced.tokens_append, map_append_append]

section Step

variable {r r' : Reader} {c : Char} {cs rest : List Char} {shape : Shape}

theorem tokens_step {tail : List Char} {piece : Lexeme} {token : Option Token}
    (hl : r.lexeme c tail = .ok piece)
    (hp : r.push piece.shape c (tail.take piece.extra) = .ok (token, r')) :
    r.tokens (c :: tail) = (r'.tokens (tail.drop piece.extra)).map (token.toList ++ ·) := by
  rw [tokens, hl]
  simp only [hp]
  cases r'.tokens (tail.drop piece.extra) <;> rfl

theorem tokens_cons {token : Option Token}
    (hl : r.lexeme c (cs ++ rest) = .ok ⟨shape, cs.length⟩)
    (hp : r.push shape c cs = .ok (token, r')) :
    r.tokens (c :: (cs ++ rest)) = (r'.tokens rest).map (token.toList ++ ·) := by
  have hpush : r.push shape c ((cs ++ rest).take cs.length) = .ok (token, r') := by
    rw [List.take_left, hp]
  rw [tokens_step hl hpush, List.drop_left]

def passed (r : Reader) (gap : List Char) : Reader := { r with place := r.place.after gap }

theorem tokens_gap {gap : List Char} (hg : ∀ c ∈ gap, isBlank c = true) :
    r.tokens (gap ++ rest) = (r.passed gap).tokens rest := by
  induction gap generalizing r with
  | nil => rfl
  | cons c gap ih =>
    rw [List.forall_mem_cons] at hg
    have hl : r.lexeme c ([] ++ (gap ++ rest)) = .ok ⟨.blank, ([] : List Char).length⟩ := by
      simp [lexeme, hg.1]
    have hp : r.push .blank c [] = .ok (none, r.passed [c]) := rfl
    have hrest := ih (r := r.passed [c]) hg.2
    rw [List.cons_append, ← List.nil_append (gap ++ rest), tokens_cons hl hp, hrest]
    exact map_nil_append _

end Step

section Push

variable {r : Reader} {p : Piece} {c : Char} {cs : List Char}

def behind (r : Reader) (p : Piece) (os : List Opening) (headClosed : Bool) : Reader :=
  ⟨r.place.after p.text.toList, os, some (p.token r.place), headClosed⟩

theorem push_token (hchars : p.text.toList = c :: cs) {kind : TokenKind} (hk : p.kind = kind)
    (hpunct : kind ≠ .punctuator) (htemplate : kind ≠ .template) :
    r.push (.token kind) c cs =
      .ok (some (p.token r.place), r.behind p r.openings false) := by
  subst hk
  have htext : p.text = String.ofList (c :: cs) := by rw [← hchars, String.ofList_toList]
  unfold push behind Piece.token
  rw [hchars, htext]
  split <;> simp_all

theorem push_punctuator (hchars : p.text.toList = c :: cs) (hk : p.kind = .punctuator) :
    r.push (.token .punctuator) c cs =
      (r.pushPunctuator (p.token r.place) (r.place.after p.text.toList)).map
        fun r' => (some (p.token r.place), r') := by
  have htext : p.text = String.ofList (c :: cs) := by rw [← hchars, String.ofList_toList]
  unfold push Piece.token
  rw [hchars, htext, hk]

theorem pushPunctuator_plain {t : Token} {place : Place} (ho : Bracket.ofOpener? t.text = none)
    (hc : Bracket.ofCloser? t.text = none) :
    r.pushPunctuator t place = .ok ⟨place, r.openings, some t, false⟩ := by
  unfold pushPunctuator
  rw [ho, hc]

theorem pushPunctuator_opener {t : Token} {place : Place} {b : Bracket}
    (ho : Bracket.ofOpener? t.text = some b) :
    r.pushPunctuator t place =
      .ok ⟨place, ⟨b, t.place, b == .round && r.atControlHead⟩ :: r.openings, some t, false⟩ := by
  unfold pushPunctuator
  rw [ho]

theorem pushPunctuator_closer {t : Token} {place : Place} {b : Bracket} {o : Opening}
    {os : List Opening} (ho : Bracket.ofOpener? t.text = none)
    (hc : Bracket.ofCloser? t.text = some b) (hr : r.openings = o :: os) (hb : o.bracket = b) :
    r.pushPunctuator t place = .ok ⟨place, os, some t, o.controlHead⟩ := by
  unfold pushPunctuator
  rw [ho, hc, hr]
  simp [hb]

/-- A piece that neither opens nor closes anything leaves the brackets as they are. -/
theorem push_plain (hp : p.isPlain = true) (hchars : p.text.toList = c :: cs) :
    r.push p.shape c cs =
      .ok (some (p.token r.place), r.behind p r.openings false) := by
  cases p with
  | word w role => exact push_token hchars rfl (by simp [Piece.kind]) (by simp [Piece.kind])
  | keyword k hk => exact push_token hchars rfl (by simp [Piece.kind]) (by simp [Piece.kind])
  | number d => exact push_token hchars rfl (by simp [Piece.kind]) (by simp [Piece.kind])
  | string q => exact push_token hchars rfl (by simp [Piece.kind]) (by simp [Piece.kind])
  | sign x hx =>
    have hno : ∀ x ∈ signs, x ∉ ["(", ")", "[", "]", "\x7b", "\x7d"] →
        Bracket.ofOpener? x = none ∧ Bracket.ofCloser? x = none := by decide
    obtain ⟨ho, hc⟩ := hno x hx (by simpa [Piece.isPlain] using hp)
    exact (push_punctuator hchars rfl).trans (by rw [pushPunctuator_plain ho hc]; rfl)
  | headEnd | opening | ending => cases hp

theorem push_opener (hp : p.kind = .punctuator) (hs : p.shape = .token .punctuator) {b : Bracket}
    (ho : Bracket.ofOpener? p.text = some b) (hchars : p.text.toList = c :: cs) :
    ∃ opening : Opening, opening.bracket = b ∧
      r.push p.shape c cs =
        .ok (some (p.token r.place), r.behind p (opening :: r.openings) false) := by
  refine ⟨⟨b, r.place, b == .round && r.atControlHead⟩, rfl, ?_⟩
  rw [hs, push_punctuator hchars hp, pushPunctuator_opener ho]
  rfl

theorem push_closer (hp : p.kind = .punctuator) (hs : p.shape = .token .punctuator) {b : Bracket}
    (ho : Bracket.ofOpener? p.text = none) (hc : Bracket.ofCloser? p.text = some b)
    (hchars : p.text.toList = c :: cs) {opening : Opening} {os : List Opening}
    (hr : r.openings = opening :: os) (hb : opening.bracket = b) :
    ∃ closed : Bool, r.push p.shape c cs = .ok (some (p.token r.place), r.behind p os closed) := by
  refine ⟨opening.controlHead, ?_⟩
  rw [hs, push_punctuator hchars hp, pushPunctuator_closer ho hc hr hb]
  rfl

def bracketOf : Piece → Bracket
  | .opening _ => .substitution
  | p => (Bracket.ofOpener? p.text).getD .round

theorem push_opening {o q : Piece} (h : o.Closes q) (hchars : o.text.toList = c :: cs) :
    ∃ opening : Opening, opening.bracket = bracketOf o ∧
      r.push o.shape c cs =
        .ok (some (o.token r.place), r.behind o (opening :: r.openings) false) := by
  cases h with
  | template turn =>
    have ho : ['\x60', '$', '\x7b'] = c :: cs := by simpa [Piece.text] using hchars
    obtain ⟨rfl, rfl⟩ := List.cons.inj ho
    refine ⟨⟨.substitution, r.place.after ['\x60'], false⟩, rfl, ?_⟩
    simp [push, Piece.shape, behind, aroundPiece, Piece.token, Piece.kind, Piece.text]
  | _ => exact push_opener rfl rfl rfl hchars

theorem push_closing {o q : Piece} (h : o.Closes q) (hchars : q.text.toList = c :: cs)
    {opening : Opening} {os : List Opening} (hr : r.openings = opening :: os)
    (hb : opening.bracket = bracketOf o) :
    ∃ closed : Bool, r.push q.shape c cs = .ok (some (q.token r.place), r.behind q os closed) := by
  cases h with
  | template turn =>
    have he : ['\x7d', '\x60'] = c :: cs := hchars
    obtain ⟨rfl, rfl⟩ := List.cons.inj he
    refine ⟨false, ?_⟩
    have haround : r.aroundPiece '\x7d' = os := by simp [aroundPiece, hr]
    rw [← haround]
    rfl
  | _ => exact push_closer rfl rfl rfl rfl hchars hr hb

end Push

section Single

variable {r : Reader} {p : Piece} {gap rest : List Char}

theorem reads_single {os : List Opening} {closed : Bool} (hgap : ∀ c ∈ gap, isBlank c = true)
    (hrest : ∀ d ∈ rest.head?, p.runsOn d = false)
    (hcurly : p = .sign "\x7d" → r.inSubstitution = false)
    (hending : p = .ending → r.inSubstitution = true) {c : Char} {cs : List Char}
    (hchars : p.text.toList = c :: cs)
    (hpush : (r.passed gap).push p.shape c cs =
      .ok (some (p.token (r.passed gap).place), (r.passed gap).behind p os closed)) :
    r.Reads [(gap, p)] rest ((r.passed gap).behind p os closed) := by
  have hlexeme : (r.passed gap).lexeme c (cs ++ rest) = .ok ⟨p.shape, cs.length⟩ :=
    lexeme_piece hchars hrest hcurly hending
  refine ⟨rfl, ?_⟩
  rw [Spaced.text, tokens_gap hgap, Spaced.text, hchars, List.cons_append,
    tokens_cons hlexeme hpush]
  rfl

end Single

theorem ne_closer_of_closes {o q : Piece} (h : o.Closes q) : o ≠ .sign "\x7d" ∧ o ≠ .ending := by
  cases h <;> simp

theorem bracketOf_eq_substitution {o q : Piece} (h : o.Closes q) :
    (q = .sign "\x7d" → (bracketOf o == .substitution) = false) ∧
      (q = .ending → (bracketOf o == .substitution) = true) := by
  cases h
  case curly => exact ⟨fun _ => rfl, nofun⟩
  case template => exact ⟨nofun, fun _ => rfl⟩
  all_goals simp

theorem inSubstitution_eq {r : Reader} {opening : Opening} {os : List Opening}
    (hr : r.openings = opening :: os) :
    r.inSubstitution = (opening.bracket == .substitution) := by rw [inSubstitution, hr]

theorem exists_reads {ps : List Piece} (h : Nested ps) (l : Spaced) (hl : l.map Prod.snd = ps)
    (rest : List Char) (ha : l.Apart rest) (r : Reader) :
    ∃ r', r'.openings = r.openings ∧ r.Reads l rest r' := by
  induction h generalizing l rest r with
  | nil =>
    obtain rfl : l = [] := List.map_eq_nil_iff.1 hl
    exact ⟨r, rfl, .refl r rest⟩
  | @cons p ps hp _ ih =>
    obtain ⟨⟨gap, p⟩, l, rfl, rfl, hps⟩ := List.map_eq_cons_iff.1 hl
    obtain ⟨hgap, hrest, ha⟩ := ha
    obtain ⟨c, cs, hchars⟩ := p.exists_chars
    have hcurly : p ≠ .sign "\x7d" := by
      rintro rfl
      cases hp
    have hending : p ≠ .ending := by
      rintro rfl
      cases hp
    have hread := reads_single hgap hrest (fun h => (hcurly h).elim)
      (fun h => (hending h).elim) hchars (push_plain (r := r.passed gap) hp hchars)
    obtain ⟨r', ho, hreads⟩ := ih l hps rest ha ((r.passed gap).behind p r.openings false)
    exact ⟨r', ho, hread.trans hreads⟩
  | @wrap o q ps qs hoq hps hqs ihp ihq =>
    obtain ⟨⟨gap, o⟩, l, rfl, rfl, hl'⟩ := List.map_eq_cons_iff.1 hl
    obtain ⟨l₁, l₂, rfl, hl₁, hl''⟩ := List.map_eq_append_iff.1 hl'
    obtain ⟨⟨gap', q⟩, l₂, rfl, rfl, hl₂⟩ := List.map_eq_cons_iff.1 hl''
    obtain ⟨hgap, hrest, ha⟩ := ha
    rw [Spaced.apart_append] at ha
    obtain ⟨ha₁, hgap', hrest', ha₂⟩ := ha
    obtain ⟨c, cs, hchars⟩ := o.exists_chars
    obtain ⟨d, ds, hchars'⟩ := q.exists_chars
    obtain ⟨opening, hb, hpush⟩ := push_opening (r := r.passed gap) hoq hchars
    obtain ⟨hcurly, hending⟩ := ne_closer_of_closes hoq
    have hopen := reads_single hgap hrest (fun h => (hcurly h).elim) (fun h => (hending h).elim)
      hchars hpush
    obtain ⟨r₁, ho₁, hread₁⟩ :=
      ihp l₁ hl₁ _ ha₁ ((r.passed gap).behind o (opening :: r.openings) false)
    obtain ⟨closed, hpush'⟩ := push_closing (r := r₁.passed gap') hoq hchars' ho₁ hb
    obtain ⟨hcurly', hending'⟩ := bracketOf_eq_substitution hoq
    have hinner : r₁.inSubstitution = (bracketOf o == .substitution) := hb ▸ inSubstitution_eq ho₁
    have hclose := reads_single hgap' hrest' (fun h => hinner.trans (hcurly' h))
      (fun h => hinner.trans (hending' h)) hchars' hpush'
    obtain ⟨r₂, ho₂, hread₂⟩ := ihq l₂ hl₂ rest ha₂ ((r₁.passed gap').behind q r.openings closed)
    exact ⟨r₂, ho₂, hopen.trans (hread₁.trans (hclose.trans hread₂))⟩

end Reader

/-- A way to write pieces down. A line feed stands behind the opening of a template exactly if that
says so. -/
structure Layout (ps : List Piece) where
  spaced : Spaced
  last : List Char
  pieces_eq : spaced.map Prod.snd = ps
  last_blank : ∀ c ∈ last, isBlank c = true
  apart : spaced.Apart last
  turns : ∀ i turn gap gap' p, spaced[i]? = some (gap, .opening turn) →
    spaced[i + 1]? = some (gap', p) → turn = decide ('\n' ∈ gap')

namespace Spaced

variable {l : Spaced} {place : Place} {i : Nat} {t u : Token} {gap gap' : List Char} {p q : Piece}

theorem map_tokens (place : Place) (l : Spaced) :
    (l.tokens place).map (fun t => (t.kind, t.text)) =
      (l.map Prod.snd).map fun p => (p.kind, p.text) := by
  induction l generalizing place with
  | nil => rfl
  | cons e l ih => simp only [tokens, List.map_cons, ih, Piece.token]

theorem place_eq (ht : (l.tokens place)[i]? = some t) (hu : (l.tokens place)[i + 1]? = some u)
    (hp : l[i]? = some (gap, p)) (hq : l[i + 1]? = some (gap', q)) :
    u.place = (t.place.after p.text.toList).after gap' := by
  induction l generalizing place i with
  | nil => simp at hp
  | cons e l ih =>
    cases i with
    | succ i => exact ih ht hu hp hq
    | zero =>
      cases hp
      cases l with
      | nil => simp at hq
      | cons e l =>
        cases hq
        cases ht
        cases hu
        rfl

end Spaced

namespace Layout

variable {ps : List Piece} (l : Layout ps)

/-- The program text. -/
def text : String := String.ofList (l.spaced.text l.last)

def tokens : List Token := l.spaced.tokens .origin

theorem scan_text (h : Nested ps) : scan l.text = .ok l.tokens := by
  obtain ⟨r, ho, -, ht⟩ :=
    Reader.exists_reads h l.spaced l.pieces_eq l.last l.apart Reader.initial
  have hlast : r.tokens l.last = .ok [] := by
    rw [← List.append_nil l.last, Reader.tokens_gap l.last_blank, Reader.tokens]
    have : (r.passed l.last).openings = [] := ho
    rw [this]
  rw [scan, text, String.toList_ofList, ht, hlast]
  exact congrArg Except.ok (List.append_nil _)

theorem written : Written ps l.tokens where
  same := by rw [tokens, Spaced.map_tokens, l.pieces_eq]
  turns := by
    intro i turn t u hi ht hu
    rw [← l.pieces_eq, List.getElem?_map, Option.map_eq_some_iff] at hi
    obtain ⟨⟨gap, p⟩, hp, rfl⟩ := hi
    have hlen : l.tokens.length = l.spaced.length := by
      simpa [tokens] using congrArg List.length (Spaced.map_tokens .origin l.spaced)
    have hlt : i + 1 < l.spaced.length := hlen ▸ (List.getElem?_eq_some_iff.1 hu).1
    have hq : l.spaced[i + 1]? = some (l.spaced[i + 1].1, l.spaced[i + 1].2) :=
      List.getElem?_eq_getElem hlt
    have hplace := Spaced.place_eq ht hu hp hq
    rw [l.turns i turn gap _ _ hp hq, hplace, Place.line_after, Place.line_after]
    have hopen : (Piece.opening turn).text.toList.count '\n' = 0 := by simp [Piece.text]
    rw [hopen, decide_eq_decide, ← List.count_pos_iff]
    omega

end Layout

section Nonempty

/-- The blank behind a piece that is written with as few blanks as its turn allows. -/
def Piece.blankBehind : Piece → Char
  | opening true => '\n'
  | _ => ' '

def Spaced.sparse (c : Char) : List Piece → Spaced
  | [] => []
  | p :: ps => ([c], p) :: sparse p.blankBehind ps

theorem Piece.blankBehind_cases (p : Piece) : p.blankBehind = ' ' ∨ p.blankBehind = '\n' := by
  unfold blankBehind
  split
  · exact .inr rfl
  · exact .inl rfl

theorem Piece.runsOn_blank (p : Piece) {c : Char} (hc : c = ' ' ∨ c = '\n') :
    p.runsOn c = false := by
  have hname : Lexeme.isNamePart c = false ∧ isDecimal c = false ∧ c ≠ '\\' ∧ c ≠ '.' := by
    rcases hc with rfl | rfl <;> decide
  cases p with
  | sign x hx =>
    have : ∀ x ∈ signs, signRunsOn x ' ' = false ∧ signRunsOn x '\n' = false := by decide
    rcases hc with rfl | rfl
    · exact (this x hx).1
    · exact (this x hx).2
  | word | keyword | number => simp [runsOn, hname]
  | _ => rfl

theorem Spaced.apart_sparse (ps : List Piece) {c : Char} (hc : c = ' ' ∨ c = '\n') :
    (sparse c ps).Apart [' '] := by
  induction ps generalizing c with
  | nil => trivial
  | cons p ps ih =>
    have hb := p.blankBehind_cases
    refine ⟨?_, ?_, ih hb⟩
    · rw [List.forall_mem_singleton]
      rcases hc with rfl | rfl <;> decide
    · intro d hd
      refine p.runsOn_blank ?_
      cases ps with
      | nil =>
        cases hd
        exact .inl rfl
      | cons q ps =>
        cases hd
        exact hb

theorem Spaced.map_snd_sparse (c : Char) (ps : List Piece) :
    (sparse c ps).map Prod.snd = ps := by
  induction ps generalizing c with
  | nil => rfl
  | cons p ps ih => rw [sparse, List.map_cons, ih]

theorem Spaced.gap_sparse (c : Char) (ps : List Piece) {i : Nat} {gap gap' : List Char}
    {p q : Piece} (hp : (sparse c ps)[i]? = some (gap, p))
    (hq : (sparse c ps)[i + 1]? = some (gap', q)) : gap' = [p.blankBehind] := by
  induction ps generalizing c i with
  | nil => simp [sparse] at hp
  | cons r ps ih =>
    cases i with
    | succ i => exact ih _ hp hq
    | zero =>
      cases hp
      cases ps with
      | nil => simp [sparse] at hq
      | cons r ps =>
        cases hq
        rfl

theorem nonempty_layout (ps : List Piece) : Nonempty (Layout ps) := by
  refine ⟨.sparse ' ' ps, [' '], Spaced.map_snd_sparse ' ' ps,
    List.forall_mem_singleton.2 (by decide), Spaced.apart_sparse ps (.inl rfl), ?_⟩
  intro i turn gap gap' p hp hq
  rw [Spaced.gap_sparse ' ' ps hp hq]
  cases turn <;> decide

end Nonempty

end MdxLint
