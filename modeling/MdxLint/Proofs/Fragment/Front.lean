import MdxLint.Proofs.Fragment.Piece
import MdxLint.Script.Tokens

/-! # Pieces at the front of a text

If a text begins with a piece, and the piece does not run on into the character behind it, the
reader takes exactly that piece off.
-/

namespace MdxLint

theorem isBlank_eq_false_of_isDecimal {c : Char} (h : isDecimal c = true) : isBlank c = false :=
  CodeRanges.contains_eq_false_of_apart (by decide +kernel) h

theorem ne_of_all_ne {q : Char → Bool} {b : Bool} {c : Char} (hc : q c = b) {l : List Char}
    (hl : l.all (q · != b) = true) : ∀ d ∈ l, c ≠ d := by
  rintro d hd rfl
  simpa [hc] using List.all_eq_true.1 hl c hd

namespace Lexeme

theorem isNamePart_of_isNameStart {c : Char} (h : isNameStart c = true) : isNamePart c = true := by
  simp only [isNameStart, isNamePart, Bool.or_eq_true, Bool.and_eq_true] at h ⊢
  rcases h with h | h
  · exact .inl (.inl (.inl h.1))
  · exact .inl (.inl (.inr h))

theorem run_append {P : Char → Bool} {cs rest : List Char} (h : ∀ c ∈ cs, P c = true)
    (hrest : ∀ c ∈ rest.head?, P c = false) : run P (cs ++ rest) = cs.length := by
  induction cs with
  | nil =>
    cases rest with
    | nil => rfl
    | cons d rest =>
      have hd : P d = false := hrest d rfl
      simp [run, hd]
  | cons c cs ih =>
    rw [List.forall_mem_cons] at h
    rw [List.cons_append, run, if_pos h.1, ih h.2, List.length_cons]

theorem name_append {cs rest : List Char} (h : ∀ c ∈ cs, isNamePart c = true)
    (hrest : ∀ c ∈ rest.head?, isNamePart c = false ∧ c ≠ '\\') :
    name (cs ++ rest) = cs.length := by
  induction cs with
  | nil =>
    cases rest with
    | nil => simp [name]
    | cons d rest =>
      obtain ⟨hd, hne⟩ := hrest d rfl
      have hesc : nameEscape (d :: rest) = none := by
        unfold nameEscape
        split <;> simp_all
      rw [List.nil_append, name, if_neg (by simp [hd]), hesc]
      rfl
  | cons c cs ih =>
    rw [List.forall_mem_cons] at h
    rw [List.cons_append, name, if_pos h.1, ih h.2, List.length_cons]

theorem quoted_append {cs rest : List Char}
    (h : ∀ c ∈ cs, c ≠ '"' ∧ c ≠ '\\' ∧ c ≠ '\n' ∧ c ≠ '\r') :
    quoted '"' (cs ++ '"' :: rest) = some (cs.length + 1) := by
  induction cs with
  | nil => simp [quoted]
  | cons c cs ih =>
    rw [List.forall_mem_cons] at h
    obtain ⟨⟨hq, hb, hn, hr⟩, h⟩ := h
    rw [List.cons_append, quoted, ih h, if_neg hq, if_neg (by simp [hn, hr])]
    · rfl
    · exact hb

section Number

variable {cs rest : List Char} (h : ∀ c ∈ cs, isDecimal c = true)
  (hrest : ∀ c ∈ rest.head?, isNamePart c = false ∧ isDecimal c = false ∧ c ≠ '.')

include hrest

theorem exponent_eq_zero : exponent rest = 0 := by
  cases rest with
  | nil => rfl
  | cons c rest =>
    have hc := (hrest c rfl).1
    have hne := ne_of_all_ne (l := ['e', 'E']) hc (by decide)
    simp only [List.forall_mem_cons] at hne
    simp [exponent, hne.1, hne.2.1]

theorem bigMark_eq_zero : bigMark rest = 0 := by
  unfold bigMark
  split
  case h_1 =>
    have hn := (hrest 'n' rfl).1
    exact absurd hn (by decide)
  case h_2 => rfl

include h

theorem radixNumber_append {marks : List Char} {isDigit : Char → Bool}
    (hm : marks.all (fun m => isNamePart m && !isDecimal m) = true) :
    radixNumber marks isDigit (cs ++ rest) = none := by
  unfold radixNumber
  split
  case h_2 => rfl
  case h_1 _ m tail heq =>
    cases cs with
    | nil =>
      obtain rfl : rest = '0' :: m :: tail := heq
      exact absurd (hrest '0' rfl).1 (by decide)
    | cons c cs =>
      rw [List.cons_append, List.cons.injEq] at heq
      rw [if_neg]
      intro hmem
      have hmark := List.all_eq_true.1 hm m hmem
      rw [Bool.and_eq_true, Bool.not_eq_true'] at hmark
      obtain ⟨hpart, hdec⟩ := hmark
      cases cs with
      | nil =>
        obtain rfl : rest = m :: tail := heq.2
        simp [(hrest m rfl).1] at hpart
      | cons d cs =>
        rw [List.cons_append, List.cons.injEq] at heq
        have hd := h m (by simp [heq.2.1])
        simp [hd] at hdec

theorem number_append (hne : cs ≠ []) : number (cs ++ rest) = cs.length := by
  have decimal : decimalNumber (cs ++ rest) = some cs.length := by
    cases cs with
    | nil => exact (hne rfl).elim
    | cons c cs =>
      rw [List.forall_mem_cons] at h
      have hrun : run (fun c => isDecimal c || c = '_') (cs ++ rest) = cs.length := by
        refine run_append (fun c hc => by simp [h.2 c hc]) fun c hc => ?_
        obtain ⟨hpart, hdec, -⟩ := hrest c hc
        have hund : c ≠ '_' := by
          rintro rfl
          exact absurd hpart (by decide)
        simp [hdec, hund]
      have hdrop : (c :: (cs ++ rest)).drop (1 + cs.length) = rest := by
        rw [Nat.add_comm, List.drop_succ_cons, List.drop_left]
      simp only [decimalNumber, List.cons_append, h.1, if_true, hrun, hdrop]
      have hexp := exponent_eq_zero hrest
      have hbig := bigMark_eq_zero hrest
      split
      case h_1 tail =>
        exact ((hrest '.' rfl).2.2 rfl).elim
      case h_2 =>
        simp only [Option.map_some, hdrop, hexp, hbig, Nat.add_zero, List.length_cons]
        rw [Nat.add_comm]
  rw [number, radixNumber_append h hrest (by decide), radixNumber_append h hrest (by decide),
    radixNumber_append h hrest (by decide), decimal]
  rfl

end Number

end Lexeme

def signRunsOn : String → Char → Bool
  | ".", c => c = '.' || isDigitLike c
  | "+", c => c = '+' || c = '='
  | "?", c => c = '.' || c = '?'
  | "=", c => c = '=' || c = '>'
  | "*", c => c = '*' || c = '='
  | _, _ => false

theorem Lexeme.punctuator_sign {x : String} (hx : x ∈ signs) {rest : List Char}
    (hrest : ∀ c ∈ rest.head?, signRunsOn x c = false) :
    punctuator (x.toList ++ rest) = some x.toList.length := by
  simp only [signs, List.mem_cons, List.not_mem_nil, or_false] at hx
  rcases hx with rfl | rfl | rfl | rfl | rfl | rfl | rfl | rfl | rfl | rfl | rfl | rfl | rfl |
    rfl | rfl | rfl <;> try rfl
  -- the signs that longer ones begin with
  all_goals
    cases rest with
    | nil => rfl
    | cons d rest =>
      have hd := hrest d rfl
      simp only [signRunsOn, Bool.or_eq_false_iff, decide_eq_false_iff_not] at hd
      obtain ⟨hd₁, hd₂⟩ := hd
      first
      | simp [punctuator, punctuators, List.isPrefixOf, Ne.symm hd₁, Ne.symm hd₂]
      | simp [punctuator, punctuators, List.isPrefixOf, Ne.symm hd₁]

namespace Piece

def runsOn : Piece → Char → Bool
  | word _ _, c | keyword _ _, c => Lexeme.isNamePart c || c = '\\'
  | number _, c => Lexeme.isNamePart c || isDecimal c || c = '.'
  | sign x _, c => signRunsOn x c
  | _, _ => false

def shape : Piece → Shape
  | opening _ => .substitution
  | p => .token p.kind

end Piece

namespace Reader

variable {r : Reader} {c : Char} {cs rest : List Char}

theorem lexeme_word (htext : isWordText (String.ofList (c :: cs)) = true)
    (hrest : ∀ d ∈ rest.head?, Lexeme.isNamePart d = false ∧ d ≠ '\\') :
    r.lexeme c (cs ++ rest) =
      .ok ⟨.token (if String.ofList (c :: cs) ∈ keywords then .keyword else .name), cs.length⟩ := by
  simp only [isWordText, String.toList_ofList, Bool.and_eq_true, Bool.not_eq_true',
    List.all_eq_true] at htext
  obtain ⟨⟨⟨hstart, hdigit⟩, hblank⟩, hparts⟩ := htext
  have hne := ne_of_all_ne (l := ['\ufeff', '/', '\'', '"', '\x60', '\x7d', '.']) hstart
    (by decide +kernel)
  simp only [List.forall_mem_cons] at hne
  have hname : Lexeme.name (c :: cs ++ rest) = (c :: cs).length :=
    Lexeme.name_append
      (List.forall_mem_cons.2 ⟨Lexeme.isNamePart_of_isNameStart hstart, hparts⟩) hrest
  have hlexeme : r.lexeme c (cs ++ rest) = word (c :: (cs ++ rest)) := by
    simp [lexeme, hblank, hdigit, hstart, hne]
  rw [hlexeme, word, ← List.cons_append, hname]
  simp

theorem lexeme_number (h : ∀ d ∈ c :: cs, isDecimal d = true)
    (hrest : ∀ d ∈ rest.head?, Lexeme.isNamePart d = false ∧ isDecimal d = false ∧ d ≠ '.') :
    r.lexeme c (cs ++ rest) = .ok ⟨.token .number, cs.length⟩ := by
  have hdec : isDecimal c = true := h c (List.mem_cons_self ..)
  have hblank := isBlank_eq_false_of_isDecimal hdec
  have hdigit : isDigitLike c = true := by simp [isDigitLike, hdec]
  have hne := ne_of_all_ne (l := ['\ufeff', '/', '\'', '"', '\x60', '\x7d']) hdec
    (by decide +kernel)
  simp only [List.forall_mem_cons] at hne
  have hnumber : Lexeme.number (c :: cs ++ rest) = (c :: cs).length :=
    Lexeme.number_append h hrest (List.cons_ne_nil _ _)
  rw [List.cons_append] at hnumber
  simp [lexeme, hblank, hdigit, hne, hnumber]

theorem lexeme_string (h : ∀ d ∈ cs, d ≠ '"' ∧ d ≠ '\\' ∧ d ≠ '\n' ∧ d ≠ '\r') :
    r.lexeme '"' (cs ++ ['"'] ++ rest) = .ok ⟨.token .string, (cs ++ ['"']).length⟩ := by
  have hblank : isBlank '"' = false := by decide
  rw [List.append_assoc]
  simp [lexeme, hblank, Lexeme.quoted_append h]

theorem lexeme_opening : r.lexeme '\x60' ('$' :: '\x7b' :: rest) = .ok ⟨.substitution, 2⟩ := by
  have hblank : isBlank '\x60' = false := by decide
  simp [lexeme, hblank, templatePiece, Lexeme.template]

theorem lexeme_ending (hr : r.inSubstitution = true) :
    r.lexeme '\x7d' ('\x60' :: rest) = .ok ⟨.token .template, 1⟩ := by
  have hblank : isBlank '\x7d' = false := by decide
  simp [lexeme, hblank, hr, templatePiece, Lexeme.template]

theorem lexeme_sign {x : String} (hx : x ∈ signs) (hchars : x.toList = c :: cs)
    (hrest : ∀ d ∈ rest.head?, signRunsOn x d = false)
    (hr : x = "\x7d" → r.inSubstitution = false) :
    r.lexeme c (cs ++ rest) = .ok ⟨.token .punctuator, cs.length⟩ := by
  have hsigns : ∀ x ∈ signs, let d := x.toList.headD ' '
      isBlank d = false ∧ isDigitLike d = false ∧ Lexeme.isNameStart d = false ∧
      d ∉ ['\ufeff', '/', '\'', '"', '\x60', '\\'] ∧
      (d = '\x7d' → x = "\x7d") ∧ (d = '.' → x = "." ∨ x = "...") := by
    decide +kernel
  have hhead : x.toList.headD ' ' = c := by rw [hchars, List.headD_cons]
  obtain ⟨hblank, hdigit, hstart, hne, hcurly, hpoint⟩ := hhead ▸ hsigns x hx
  simp only [List.mem_cons, not_or] at hne
  have hpunct : Lexeme.punctuator (c :: (cs ++ rest)) = some (cs.length + 1) := by
    have := Lexeme.punctuator_sign hx hrest
    rwa [hchars] at this
  -- a point before a digit would begin a number
  have hnumber : c = '.' → (cs.head?.or rest.head?).any isDigitLike = false := by
    intro hc
    rcases hpoint hc with rfl | rfl
    · obtain rfl : cs = [] := by simpa [hc] using hchars.symm
      cases rest with
      | nil => rfl
      | cons d rest =>
        have hd := hrest d rfl
        simp only [signRunsOn, Bool.or_eq_false_iff] at hd
        simp [hd.2]
    · obtain rfl : cs = ['.', '.'] := by simpa [hc] using hchars.symm
      rfl
  have hpiece : (decide (c = '\x7d') && r.inSubstitution) = false := by
    rw [Bool.and_eq_false_iff]
    by_cases hc : c = '\x7d'
    · exact .inr (hr (hcurly hc))
    · exact .inl (decide_eq_false hc)
  simpa [lexeme, hblank, hdigit, hstart, hne, hpunct, hpiece] using hnumber

end Reader

theorem isWordText_of_mem_keywords {k : String} (hk : k ∈ keywords) : isWordText k = true := by
  have : ∀ k ∈ keywords, isWordText k = true := by decide +kernel
  exact this k hk

namespace Piece

theorem exists_chars (p : Piece) : ∃ c cs, p.text.toList = c :: cs := by
  have of_word {x : String} (h : isWordText x = true) : ∃ c cs, x.toList = c :: cs := by
    unfold isWordText at h
    cases hx : x.toList with
    | nil => simp [hx] at h
    | cons c cs => exact ⟨c, cs, rfl⟩
  cases p with
  | word w _ => exact of_word w.isWord
  | keyword k hk => exact of_word (isWordText_of_mem_keywords hk)
  | sign x hx =>
    have : ∀ x ∈ signs, x.toList ≠ [] := by decide
    exact List.exists_cons_of_ne_nil (this x hx)
  | number d => exact List.exists_cons_of_ne_nil (by simpa [text] using d.ne_nil)
  | string q => exact ⟨_, _, String.toList_ofList⟩
  | headEnd => exact ⟨')', [], rfl⟩
  | opening turn => exact ⟨'\x60', ['$', '\x7b'], by simp [text]⟩
  | ending => exact ⟨'\x7d', ['\x60'], rfl⟩

end Piece

namespace Reader

variable {r : Reader} {p : Piece} {c : Char} {cs rest : List Char}

theorem lexeme_piece (hchars : p.text.toList = c :: cs)
    (hrest : ∀ d ∈ rest.head?, p.runsOn d = false)
    (hcurly : p = .sign "\x7d" → r.inSubstitution = false)
    (hending : p = .ending → r.inSubstitution = true) :
    r.lexeme c (cs ++ rest) = .ok ⟨p.shape, cs.length⟩ := by
  have htext : String.ofList (c :: cs) = p.text := by rw [← hchars, String.ofList_toList]
  cases p with
  | word w role =>
    have hword : isWordText (String.ofList (c :: cs)) = true := htext ▸ w.isWord
    have hkey : String.ofList (c :: cs) ∉ keywords := htext ▸ w.not_keyword
    rw [lexeme_word hword (by simpa [Piece.runsOn] using hrest), if_neg hkey]
    rfl
  | keyword k hk =>
    have hword : isWordText (String.ofList (c :: cs)) = true :=
      htext ▸ isWordText_of_mem_keywords hk
    have hkey : String.ofList (c :: cs) ∈ keywords := htext ▸ hk
    rw [lexeme_word hword (by simpa [Piece.runsOn] using hrest), if_pos hkey]
    rfl
  | sign x hx =>
    refine lexeme_sign hx hchars hrest ?_
    rintro rfl
    exact hcurly rfl
  | headEnd =>
    have hround : ")" ∈ signs := by decide
    exact lexeme_sign hround hchars (fun d _ => rfl) nofun
  | number d =>
    have hd : d.chars = c :: cs := by simpa [Piece.text] using hchars
    refine lexeme_number (hd ▸ d.isDecimal) ?_
    simpa [Piece.runsOn, and_assoc] using hrest
  | string q =>
    have hq : '"' :: (q.chars ++ ['"']) = c :: cs := by simpa [Piece.text] using hchars
    obtain ⟨rfl, rfl⟩ := List.cons.inj hq
    exact lexeme_string q.plain
  | opening turn =>
    have ho : ['\x60', '$', '\x7b'] = c :: cs := by simpa [Piece.text] using hchars
    obtain ⟨rfl, rfl⟩ := List.cons.inj ho
    exact lexeme_opening
  | ending =>
    have he : ['\x7d', '\x60'] = c :: cs := hchars
    obtain ⟨rfl, rfl⟩ := List.cons.inj he
    exact lexeme_ending (hending rfl)

end Reader

end MdxLint
