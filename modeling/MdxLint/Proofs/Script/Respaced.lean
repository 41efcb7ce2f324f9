import MdxLint.Proofs.Fragment.Layout
import MdxLint.Proofs.Script.Boundary
import MdxLint.Proofs.Script.Retold

/-! # Reading on behind another gap

Two texts that go on alike up to a gap begin with the same lexeme, for a lexeme ends where a gap
begins, whichever gap it is. A reader that stands at another place, and knows otherwise the same,
reads the same lexeme and knows the same behind it.
-/

namespace MdxLint

/-- The second text goes on like the first one up to a gap of the first, where a blank stands in it
or nothing. -/
def Respaced (b b' : List Char) : Prop :=
  ∃ q g g', b = q ++ g ∧ b' = q ++ g' ∧ Stops g ∧ ∀ c ∈ g'.head?, isBlank c = true

namespace Respaced

variable {b b' : List Char}

theorem nil : Respaced [] [] := ⟨[], [], [], rfl, rfl, nofun, nofun⟩

theorem of_gap (hb : Stops b) (hb' : ∀ c ∈ b'.head?, isBlank c = true) : Respaced b b' :=
  ⟨[], b, b', rfl, rfl, hb, hb'⟩

theorem append (x : List Char) (h : Respaced b b') : Respaced (x ++ b) (x ++ b') := by
  obtain ⟨q, g, g', rfl, rfl, hg, hg'⟩ := h
  exact ⟨x ++ q, g, g', (List.append_assoc ..).symm, (List.append_assoc ..).symm, hg, hg'⟩

theorem of_drop {n : Nat} (h : Respaced (b.drop n) b') : Respaced b (b.take n ++ b') := by
  have hall := h.append (b.take n)
  rwa [List.take_append_drop] at hall

/-- At the beginning of the second text stands what stands in the first one, or a blank. -/
theorem mem_head?_or (h : Respaced b b') : ∀ c ∈ b'.head?, c ∈ b.head? ∨ isBlank c = true := by
  obtain ⟨q, g, g', rfl, rfl, -, hg'⟩ := h
  cases q with
  | nil => exact fun c hc => .inr (hg' c hc)
  | cons d q => exact fun c hc => .inl hc

/-- What does not look past the beginning of a gap answers the same for both texts. -/
theorem measure_eq (h : Respaced b b') {α : Type} (measure : List Char → α) {c : Char}
    (hgap : ∀ p g, Stops g → measure (c :: p ++ g) = measure (c :: p)) :
    measure (c :: b') = measure (c :: b) := by
  obtain ⟨q, g, g', rfl, rfl, hg, hblank⟩ := h
  have hg' : Stops g' := fun d hd => isGapStart_of_isBlank (hblank d hd)
  rw [← List.cons_append, ← List.cons_append, hgap q g hg, hgap q g' hg']

end Respaced

namespace Reader

/-! ## The same lexemes -/

section Lexeme

variable {r : Reader} {c : Char} {tail p g : List Char} {piece : Lexeme}

theorem word_gap (hg : Stops g) : word (c :: p ++ g) = word (c :: p) := by
  have hle := Lexeme.name_le_length (c :: p)
  unfold word
  rw [Lexeme.name_gap hg]
  split
  · rfl
  case h_2 n hn =>
    rw [hn] at hle
    rw [List.take_append_of_le_length hle]

theorem templatePiece_take (h : templatePiece tail = .ok piece) (b : List Char) :
    templatePiece (tail.take piece.extra ++ b) = .ok piece := by
  unfold templatePiece at h
  split at h
  case h_1 => cases h
  case h_2 n hn =>
    cases h
    rw [templatePiece, Lexeme.template_take hn]
  case h_3 n hn =>
    cases h
    rw [templatePiece, Lexeme.template_take hn]

/-- In front of a gap a lexeme is told to be what it is at the end of the text, unless the gap and
its first character make a comment. -/
theorem lead_of_stops (hg : Stops g) (hline : r.lead c g.head? ≠ .line) :
    r.lead c g.head? = r.lead c none := by
  have hslash : (decide (c = '/') && decide (g.head? = some '/')) = false := by
    rw [← Bool.not_eq_true, Bool.and_eq_true, decide_eq_true_eq, decide_eq_true_eq]
    rintro ⟨rfl, hnext⟩
    exact hline (by simp [lead, hnext, show isBlank '/' = false by decide])
  have hnone {a : Char} (d : Char) : (decide (c = a) && decide (none = some d)) = false := by simp
  have hstar := decide_eq_false (Lexeme.head?_ne_of_stops hg (d := '*') (by decide))
  have hu := decide_eq_false (Lexeme.head?_ne_of_stops hg (d := 'u') (by decide))
  have hdigit := Lexeme.any_head?_of_stops hg fun _ => isDigitLike_of_isGapStart
  simp only [lead, hslash, hstar, hu, hdigit, hnone, Bool.and_false, Option.any_none]

theorem lead_respaced {tail' : List Char} (h : Respaced tail tail')
    (hline : r.lead c tail.head? ≠ .line) : r.lead c tail'.head? = r.lead c tail.head? := by
  obtain ⟨p, g, g', rfl, rfl, hg, hblank⟩ := h
  cases p with
  | nil =>
    have hg' : Stops g' := fun d hd => isGapStart_of_isBlank (hblank d hd)
    have hline' : r.lead c g'.head? ≠ .line := by
      intro hlead
      have hbegins : r.Begins c g'.head? .line := hlead ▸ begins_lead
      cases hbegins with
      | line _ hnext => exact absurd (hblank '/' hnext) (by decide)
    rw [List.nil_append, List.nil_append, lead_of_stops hg hline, lead_of_stops hg' hline']
  | cons => rfl

theorem readAs_respaced {b' : List Char} {l : Lead} (h : readAs c tail l = .ok piece)
    (hs : piece.shape ≠ .blank) (hb : Respaced (tail.drop piece.extra) b') :
    readAs c (tail.take piece.extra ++ b') l = .ok piece := by
  have hall := hb.of_drop
  cases l with
  | space | line =>
    cases h
    exact absurd rfl hs
  | block =>
    rw [readAs] at h
    split at h <;> cases h
    exact absurd rfl hs
  | string =>
    rw [readAs] at h
    split at h
    case h_1 => cases h
    case h_2 n hn =>
      cases h
      rw [readAs, Lexeme.quoted_take hn]
  | piece => exact templatePiece_take h b'
  | regex =>
    rw [readAs] at h
    split at h
    case h_1 => cases h
    case h_2 n hn =>
      cases h
      obtain ⟨hflag, hstop⟩ := Lexeme.regex_take hn
      rw [readAs, hstop]
      intro d hd
      rcases hb.mem_head?_or d hd with hd | hblank
      · exact hflag d hd
      · exact isFlag_of_isGapStart (isGapStart_of_isBlank hblank)
  | number =>
    rw [readAs, hall.measure_eq Lexeme.number fun p _ hg => Lexeme.number_gap hg (c :: p)]
    exact h
  | word =>
    rw [readAs, hall.measure_eq word fun _ _ hg => word_gap hg]
    exact h
  | sign =>
    rw [readAs, hall.measure_eq Lexeme.punctuator fun p _ hg => Lexeme.punctuator_gap hg p]
    exact h

/-- A token that was read is read again where only the gaps behind it are others. -/
theorem lexeme_respaced {b' : List Char} (hl : r.lexeme c tail = .ok piece)
    (hs : piece.shape ≠ .blank) (hb : Respaced (tail.drop piece.extra) b') :
    r.lexeme c (tail.take piece.extra ++ b') = .ok piece := by
  have hall := hb.of_drop
  rw [lexeme_eq_readAs] at hl ⊢
  have hline : r.lead c tail.head? ≠ .line := by
    intro hlead
    rw [hlead] at hl
    cases hl
    exact hs rfl
  rw [lead_respaced hall hline]
  exact readAs_respaced hl hs hb

end Lexeme

/-! ## Readers at other places -/

def opened (o : Opening) : Bracket × Bool := (o.bracket, o.controlHead)

structure Alike (r r' : Reader) : Prop where
  openings : r'.openings.map opened = r.openings.map opened
  last : r'.last.map Token.content = r.last.map Token.content
  headClosed : r'.headClosed = r.headClosed

namespace Alike

variable {r r' s : Reader}

theorem refl (r : Reader) : r.Alike r := ⟨rfl, rfl, rfl⟩

section Knowledge

variable (h : r.Alike r')

include h

theorem last_cases : (r.last = none ∧ r'.last = none) ∨
    ∃ t t', r.last = some t ∧ r'.last = some t' ∧ t'.kind = t.kind ∧ t'.text = t.text := by
  have hlast := h.last
  cases ht : r.last with
  | none =>
    rw [ht, Option.map_none, Option.map_eq_none_iff] at hlast
    exact .inl ⟨rfl, hlast⟩
  | some t =>
    rw [ht, Option.map_some] at hlast
    obtain ⟨t', ht', heq⟩ := Option.map_eq_some_iff.1 hlast
    obtain ⟨hkind, htext⟩ := Prod.mk.inj heq
    exact .inr ⟨t, t', rfl, ht', hkind, htext⟩

theorem openings_cases : (r.openings = [] ∧ r'.openings = []) ∨
    ∃ o os o' os', r.openings = o :: os ∧ r'.openings = o' :: os' ∧
      o'.bracket = o.bracket ∧ o'.controlHead = o.controlHead ∧
      os'.map opened = os.map opened := by
  have hopen := h.openings
  cases ho : r.openings with
  | nil =>
    rw [ho, List.map_nil, List.map_eq_nil_iff] at hopen
    exact .inl ⟨rfl, hopen⟩
  | cons o os =>
    rw [ho, List.map_cons] at hopen
    obtain ⟨o', os', ho', heq, hos⟩ := List.map_eq_cons_iff.1 hopen
    obtain ⟨hbracket, hhead⟩ := Prod.mk.inj heq
    exact .inr ⟨o, os, o', os', rfl, ho', hbracket, hhead, hos⟩

theorem regexAllowed : r'.regexAllowed = r.regexAllowed := by
  unfold Reader.regexAllowed
  obtain ⟨ht, ht'⟩ | ⟨t, t', ht, ht', hkind, htext⟩ := h.last_cases
  · rw [ht, ht']
  · simp only [ht, ht', hkind, htext, h.headClosed]

theorem inSubstitution : r'.inSubstitution = r.inSubstitution := by
  unfold Reader.inSubstitution
  obtain ⟨ho, ho'⟩ | ⟨o, os, o', os', ho, ho', hbracket, -, -⟩ := h.openings_cases
  · rw [ho, ho']
  · simp only [ho, ho', hbracket]

theorem atControlHead : r'.atControlHead = r.atControlHead := by
  unfold Reader.atControlHead
  obtain ⟨ht, ht'⟩ | ⟨t, t', ht, ht', hkind, htext⟩ := h.last_cases
  · rw [ht, ht']
  · rw [ht, ht', Option.any_some, Option.any_some, hkind, htext]

theorem lexeme (c : Char) (tail : List Char) : r'.lexeme c tail = r.lexeme c tail := by
  simp only [Reader.lexeme, h.inSubstitution, h.regexAllowed]

theorem passed (gap : List Char) : r.Alike (r'.passed gap) := ⟨h.openings, h.last, h.headClosed⟩

theorem openings_aroundPiece (c : Char) :
    (r'.aroundPiece c).map opened = (r.aroundPiece c).map opened := by
  unfold aroundPiece
  split
  · rw [List.map_drop, List.map_drop, h.openings]
  · exact h.openings

theorem pushPunctuator {t t' : Token} (ht : t'.content = t.content) {place : Place}
    (hs : r.pushPunctuator t place = .ok s) (place' : Place) :
    ∃ s', r'.pushPunctuator t' place' = .ok s' ∧ s.Alike s' := by
  obtain ⟨-, htext⟩ := Prod.mk.inj ht
  obtain ⟨b, hb, rfl⟩ | ⟨b, o, os, hb, hc, hr, hob, rfl⟩ | ⟨hb, hc, rfl⟩ := pushPunctuator_cases hs
  · refine ⟨_, pushPunctuator_opener (htext ▸ hb), ?_, congrArg some ht, rfl⟩
    rw [List.map_cons, List.map_cons, h.openings, h.atControlHead, opened, opened]
  · obtain ⟨hr', -⟩ | ⟨o, os, o', os', hr', hs', hbracket, hhead, hos⟩ := h.openings_cases
    · cases hr.symm.trans hr'
    · cases hr.symm.trans hr'
      refine ⟨_, pushPunctuator_closer (htext ▸ hb) (htext ▸ hc) hs' (hbracket.trans hob), ?_⟩
      exact ⟨hos, congrArg some ht, hhead⟩
  · exact ⟨_, pushPunctuator_plain (htext ▸ hb) (htext ▸ hc), h.openings, congrArg some ht, rfl⟩

theorem push {shape : Shape} {c : Char} {more : List Char} {token : Option Token}
    (hp : r.push shape c more = .ok (token, s)) :
    ∃ token' s', r'.push shape c more = .ok (token', s') ∧
      token'.map Token.content = token.map Token.content ∧ s.Alike s' := by
  unfold Reader.push at hp ⊢
  dsimp only at hp ⊢
  split at hp
  case h_1 =>
    cases hp
    exact ⟨_, _, rfl, rfl, h.openings, h.last, h.headClosed⟩
  case h_2 =>
    obtain ⟨rfl, hpush⟩ := pushPunctuator_of_push hp
    have hsame : Token.content ⟨.punctuator, String.ofList (c :: more), r'.place⟩ =
        Token.content ⟨.punctuator, String.ofList (c :: more), r.place⟩ := rfl
    obtain ⟨s', hs', halike⟩ := h.pushPunctuator hsame hpush (r'.place.after (c :: more))
    rw [hs']
    exact ⟨_, s', rfl, rfl, halike⟩
  case h_3 =>
    cases hp
    exact ⟨_, _, rfl, rfl, h.openings_aroundPiece c, rfl, rfl⟩
  case h_4 =>
    cases hp
    exact ⟨_, _, rfl, rfl, h.openings, rfl, rfl⟩
  case h_5 =>
    cases hp
    refine ⟨_, _, rfl, rfl, ?_, rfl, rfl⟩
    rw [List.map_cons, List.map_cons, h.openings_aroundPiece, opened, opened]

end Knowledge

end Alike

end Reader

end MdxLint
