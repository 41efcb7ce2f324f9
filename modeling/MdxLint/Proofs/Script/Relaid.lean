import MdxLint.Proofs.Fragment.Layout
import MdxLint.Proofs.Script.Respaced

/-! # Layout does not matter

Blanks and comments beside the tokens of a text may be exchanged for one line feed, or for one
space where they hold no line feed: the tokens stay the same, the same of them begin a line, and
the free names are the same.
-/

namespace MdxLint

/-- What takes the place of a gap: nothing of an empty one, else a line feed if the gap holds one
and a space if not. -/
def plainGap (gap : List Char) : List Char :=
  if gap = [] then [] else if '\n' ∈ gap then ['\n'] else [' ']

/-- The text from the offset `i` on, its tokens being these, with its gaps made plain. -/
def relaid (cs : List Char) (i : Nat) : List Token → List Char
  | [] => plainGap (cs.drop i)
  | t :: ts =>
    plainGap ((cs.take t.place.offset).drop i) ++ (t.text.toList ++ relaid cs t.stop ts)

/-- The script with its gaps made plain. -/
def plainLayout (code : String) (ts : List Token) : String :=
  String.ofList (relaid code.toList 0 ts)

section PlainGap

variable {gap : List Char}

theorem plainGap_nil : plainGap [] = [] := rfl

theorem isBlank_of_mem_plainGap {c : Char} (h : c ∈ plainGap gap) : isBlank c = true := by
  unfold plainGap at h
  split at h
  · cases h
  split at h
  · rw [List.mem_singleton.1 h]
    decide +kernel
  · rw [List.mem_singleton.1 h]
    decide +kernel

theorem newline_mem_plainGap : '\n' ∈ plainGap gap ↔ '\n' ∈ gap := by
  unfold plainGap
  split
  case isTrue h => rw [h]
  case isFalse =>
    split
    case isTrue h => simp [h]
    case isFalse h => simp [h]

theorem isBlank_head?_plainGap_append (h : gap ≠ []) (cs : List Char) :
    ∀ c ∈ (plainGap gap ++ cs).head?, isBlank c = true := by
  have hne : plainGap gap ≠ [] := by
    unfold plainGap
    rw [if_neg h]
    split
    · exact List.cons_ne_nil _ _
    · exact List.cons_ne_nil _ _
  intro c hc
  rw [List.head?_append_of_ne_nil _ hne] at hc
  exact isBlank_of_mem_plainGap (List.mem_of_mem_head? hc)

end PlainGap

theorem Blank.stops {x behind : List Char} (h : Blank x behind) : Stops (x ++ behind) := by
  intro c hc
  cases h with
  | space h =>
    obtain rfl : _ = c := by simpa using hc
    simpa [isGapStart] using .inl h
  | line | block =>
    obtain rfl : '/' = c := by simpa using hc
    simp [isGapStart]

theorem Place.lt_line_after {p : Place} {line : Nat} (h : line ≤ p.line) (x : List Char) :
    line < (p.after x).line ↔ line < p.line ∨ '\n' ∈ x := by
  rw [Place.line_after, ← List.count_pos_iff]
  omega

theorem Place.line_le_after (p : Place) (x : List Char) : p.line ≤ (p.after x).line := by
  rw [Place.line_after]
  exact Nat.le_add_right ..

theorem relaid_token {t : Token} {done gap behind : List Char} {ts : List Token}
    (ht : t.place.offset = done.length + gap.length) :
    relaid (done ++ gap ++ (t.text.toList ++ behind)) done.length (t :: ts) =
      plainGap gap ++ (t.text.toList ++
        relaid (done ++ gap ++ t.text.toList ++ [] ++ behind)
          (done ++ gap ++ t.text.toList).length ts) := by
  have hstop : t.stop = (done ++ gap ++ t.text.toList).length := by
    simp [Token.stop, ht, String.length_toList, Nat.add_assoc]
  rw [relaid, hstop, ht, ← List.length_append, List.take_left, List.drop_left, List.append_nil]
  simp only [List.append_assoc]

namespace Reader

/-- What reading a text says of the text with plain gaps, where the last part of the text is still
to be read and a gap stands before it. -/
structure Relays (r : Reader) (cs : List Char) (ts : List Token) (done gap : List Char) : Prop where
  reads : ∀ (r' : Reader) (line line' : Nat), r.Alike r' → line ≤ r.place.line →
    line' ≤ r'.place.line → (line < r.place.line ↔ line' < r'.place.line ∨ '\n' ∈ gap) →
    ∃ ts', r'.tokens (relaid (done ++ gap ++ cs) done.length ts) = .ok ts' ∧
      told line' ts' = told line ts
  respaced : gap = [] → Respaced cs (relaid (done ++ gap ++ cs) done.length ts)
  blank : gap ≠ [] → ∀ c ∈ (relaid (done ++ gap ++ cs) done.length ts).head?, isBlank c = true

theorem relays_done {r : Reader} (hr : r.openings = []) (done gap : List Char) :
    r.Relays [] [] done gap := by
  have htext : relaid (done ++ gap ++ []) done.length [] = plainGap gap ++ [] := by
    rw [relaid, List.append_nil, List.drop_left, List.append_nil]
  constructor
  case reads =>
    intro r' line line' halike _ _ _
    obtain ⟨-, hr'⟩ | ⟨o, os, -, -, ho, -⟩ := halike.openings_cases
    · refine ⟨[], ?_, rfl⟩
      rw [htext, tokens_gap fun _ => isBlank_of_mem_plainGap, tokens, passed, hr']
    · rw [hr] at ho
      cases ho
  case respaced =>
    rintro rfl
    rw [htext]
    exact Respaced.nil
  case blank =>
    intro hgap
    rw [htext]
    exact isBlank_head?_plainGap_append hgap []

section Step

variable {r s : Reader} {c : Char} {tail : List Char} {piece : Lexeme} {token : Option Token}
  {rest : List Token}

theorem relays_blank (hl : r.lexeme c tail = .ok piece) (hs : piece.shape = .blank)
    (hp : r.push piece.shape c (tail.take piece.extra) = .ok (token, s)) {done gap : List Char}
    (h : s.Relays (tail.drop piece.extra) rest done (gap ++ (c :: tail.take piece.extra))) :
    r.Relays (c :: tail) rest done gap := by
  have hblank := blank_of_lexeme hl hs
  have hall : c :: tail = c :: tail.take piece.extra ++ tail.drop piece.extra := by simp
  rw [hs] at hp
  cases hp
  have hne : c :: tail.take piece.extra ≠ [] := List.cons_ne_nil _ _
  rw [hall]
  generalize c :: tail.take piece.extra = x at hblank h hne ⊢
  have htext : done ++ gap ++ (x ++ tail.drop piece.extra) =
      done ++ (gap ++ x) ++ tail.drop piece.extra := by simp only [List.append_assoc]
  constructor
  case reads =>
    intro r' line line' halike hle hle' hturn
    rw [htext]
    refine h.reads r' line line' ⟨halike.openings, halike.last, halike.headClosed⟩ ?_ hle' ?_
    · exact Nat.le_trans hle (r.place.line_le_after x)
    · rw [Place.lt_line_after hle, hturn, List.mem_append, or_assoc]
  case respaced =>
    rintro rfl
    refine Respaced.of_gap hblank.stops ?_
    rw [htext]
    exact h.blank (by simpa using hne)
  case blank =>
    intro hgap
    rw [htext]
    exact h.blank (by simp [hgap])

theorem relays_token {t : Token} (hl : r.lexeme c tail = .ok piece) (hs : piece.shape ≠ .blank)
    (hp : r.push piece.shape c (tail.take piece.extra) = .ok (some t, s)) {done gap : List Char}
    (hr : r.place.offset = done.length + gap.length)
    (h : s.Relays (tail.drop piece.extra) rest (done ++ gap ++ (c :: tail.take piece.extra)) []) :
    r.Relays (c :: tail) (t :: rest) done gap := by
  have hlength : (tail.take piece.extra).length = piece.extra :=
    List.length_take_of_le (extra_le_of_lexeme hl hs)
  obtain ⟨hplace, ⟨hs', -, -⟩ | ⟨_, htoken, htext, ht, -⟩⟩ := push_cases hl hp
  · exact (hs hs').elim
  cases htoken
  have hchars : t.text.toList = c :: tail.take piece.extra := by
    rw [htext, String.toList_ofList]
  have hall : c :: tail = t.text.toList ++ tail.drop piece.extra := by simp [hchars]
  -- what is behind the token in the text with plain gaps
  obtain ⟨body, hbody⟩ : ∃ body,
      relaid (done ++ gap ++ t.text.toList ++ [] ++ tail.drop piece.extra)
        (done ++ gap ++ t.text.toList).length rest = body := ⟨_, rfl⟩
  have hrelaid : relaid (done ++ gap ++ (c :: tail)) done.length (t :: rest) =
      plainGap gap ++ (t.text.toList ++ body) := by
    rw [hall, relaid_token (ht ▸ hr), hbody]
  rw [← hchars] at h
  have hrespaced := h.respaced rfl
  rw [hbody] at hrespaced
  constructor
  case reads =>
    intro r' line line' halike hle hle' hturn
    have halike' := halike.passed (plainGap gap)
    have hl' := (halike'.lexeme c _).trans (lexeme_respaced hl hs hrespaced)
    obtain ⟨token', s', hp', hcontent, halike''⟩ := halike'.push hp
    obtain ⟨t', rfl, hsame⟩ := Option.map_eq_some_iff.1 hcontent
    have hfront : (tail.take piece.extra ++ body).take piece.extra = tail.take piece.extra :=
      List.take_left' hlength
    rw [← hfront] at hp'
    obtain ⟨hplace', ⟨-, htoken, -⟩ | ⟨_, htoken, -, ht', -⟩⟩ := push_cases hl' hp'
    · cases htoken
    cases htoken
    rw [hfront] at hp' hplace'
    rw [← hchars] at hplace hplace'
    -- the token begins a line in both texts or in neither
    have hturn' : line' < (r'.passed (plainGap gap)).place.line ↔ line < r.place.line := by
      rw [passed, Place.lt_line_after hle', newline_mem_plainGap, hturn]
    obtain ⟨rest', hrest', htold⟩ := h.reads s' r.place.line (r'.passed (plainGap gap)).place.line
      halike'' (hplace ▸ Place.line_le_after ..) (hplace' ▸ Place.line_le_after ..)
      (by simp [hplace, hplace', Place.lt_line_after])
    refine ⟨t' :: rest', ?_, ?_⟩
    · rw [hbody] at hrest'
      have hpiece : (r'.passed (plainGap gap)).lexeme c (tail.take piece.extra ++ body) =
          .ok ⟨piece.shape, (tail.take piece.extra).length⟩ := by rw [hl', hlength]
      rw [hrelaid, hchars, tokens_gap fun _ => isBlank_of_mem_plainGap, List.cons_append,
        tokens_cons hpiece hp', hrest']
      rfl
    · rw [told, told, ht, ht', hsame, htold, decide_eq_decide.2 hturn']
  case respaced =>
    rintro rfl
    rw [hrelaid, plainGap_nil, hall]
    exact hrespaced.append t.text.toList
  case blank =>
    intro hgap
    rw [hrelaid]
    exact isBlank_head?_plainGap_append hgap _

end Step

theorem relays_of_tokens {r : Reader} {cs : List Char} {ts : List Token} (h : r.tokens cs = .ok ts)
    {done gap : List Char} (hr : r.place.offset = done.length + gap.length) :
    r.Relays cs ts done gap := by
  refine tokens_induction (motive := fun r cs ts => ∀ done gap : List Char,
    r.place.offset = done.length + gap.length → r.Relays cs ts done gap) ?_ ?_ h done gap hr
  · intro r hr done gap _
    exact relays_done hr done gap
  · intro r s c tail piece token rest hl hp ih done gap hr
    obtain ⟨hplace, ⟨hs, rfl, -⟩ | ⟨t, rfl, htext, ht, -⟩⟩ := push_cases hl hp
    · refine relays_blank hl hs hp (ih done _ ?_)
      rw [hplace, Place.offset_after, hr, List.length_append, Nat.add_assoc]
    · have hs : piece.shape ≠ .blank := by
        rintro hs
        rw [hs] at hp
        cases hp
      refine relays_token hl hs hp hr (ih _ [] ?_)
      rw [hplace, Place.offset_after, hr, List.length_append, List.length_append]
      rfl

end Reader

/-- Exchanging the gaps of a script for plain ones leaves its tokens and its free names as they
are. -/
theorem scan_plainLayout {code : String} {ts : List Token} (h : scan code = .ok ts) :
    ∃ ts', scan (plainLayout code ts) = .ok ts' ∧
      ts'.map Token.content = ts.map Token.content ∧
      freeNamesOf (plainLayout code ts) = freeNamesOf code := by
  have hrelays : Reader.initial.Relays code.toList ts [] [] := Reader.relays_of_tokens h rfl
  obtain ⟨ts', hread, htold⟩ :=
    hrelays.reads .initial 1 1 (.refl _) (Nat.le_refl _) (Nat.le_refl _) (by simp)
  have hscan : scan (plainLayout code ts) = .ok ts' := by
    rw [scan, plainLayout, String.toList_ofList]
    exact hread
  refine ⟨ts', hscan, ?_, ?_⟩
  · rw [← map_fst_told, htold, map_fst_told]
  · rw [freeNamesOf, freeNamesOf, hscan, h, Except.map, Except.map,
      (Script.echoes_ofTokens htold).freeNames]

/-- A line feed in a comment, a number behind a question mark and a regular expression. -/
def looseLayout : String := "x /*\n*/ ? .5 : /]/ // y\t"

def looseLayoutTokens : List Token :=
  [⟨.name, "x", ⟨0, 1, 1⟩⟩, ⟨.punctuator, "?", ⟨8, 2, 4⟩⟩, ⟨.number, ".5", ⟨10, 2, 6⟩⟩,
    ⟨.punctuator, ":", ⟨13, 2, 9⟩⟩, ⟨.regex, "/]/", ⟨15, 2, 11⟩⟩]

theorem scan_plainLayout_looseLayout :
    scan looseLayout = .ok looseLayoutTokens ∧
      plainLayout looseLayout looseLayoutTokens = "x\n? .5 : /]/ " ∧
      ∃ ts', scan (plainLayout looseLayout looseLayoutTokens) = .ok ts' ∧
        ts'.map Token.content = looseLayoutTokens.map Token.content ∧
        freeNamesOf (plainLayout looseLayout looseLayoutTokens) = freeNamesOf looseLayout := by
  have hread : scan looseLayout = .ok looseLayoutTokens := by decide +kernel
  exact ⟨hread, by decide +kernel, scan_plainLayout hread⟩

end MdxLint
