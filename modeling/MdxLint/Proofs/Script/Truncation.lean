import MdxLint.Proofs.Script.Grammar
import MdxLint.Proofs.Script.Joining
import MdxLint.Proofs.Script.Numeral

/-! # Lexemes of a text and of its beginning

How far a lexeme reaches depends on its own characters only, so it is read alike where the text
ends behind it or later.
-/

namespace MdxLint

namespace Reader

section Ends

variable {r : Reader} {c : Char} {x y : List Char} {piece : Lexeme}

/-- A lexeme of one character is told to be what it is also at the end of a text. -/
theorem lead_none_of_lexeme (h : r.lexeme c y = .ok piece) (hextra : piece.extra = 0)
    (hy : ∀ d ∈ y.head?, isDigitLike d = false) : r.lead c none = r.lead c y.head? := by
  have hslash : isBlank '/' = false := by decide
  have hline : ¬(c = '/' ∧ y.head? = some '/') := by
    rintro ⟨rfl, hnext⟩
    simp [lexeme, hslash, hnext] at h
    rw [← h] at hextra
    exact absurd hextra (by simp)
  have hblock : ¬(c = '/' ∧ y.head? = some '*') := by
    rintro ⟨rfl, hnext⟩
    simp [lexeme, hslash, hnext] at h
    split at h
    · cases h
    · cases h
      exact absurd hextra (by simp)
  have hpoint : y.head?.any isDigitLike = false := by
    rw [← Bool.not_eq_true, Option.any_eq_true]
    rintro ⟨d, hd, hdigit⟩
    simp [hy d hd] at hdigit
  have hescape : ¬(c = '\\' ∧ y.head? = some 'u') := by
    rintro ⟨rfl, hnext⟩
    have hword : startsWord '\\' y.head? = true := by
      rw [hnext]
      decide +kernel
    rw [lexeme_of_startsWord hword] at h
    have halone := startsWord_of_word hword h
    rw [hextra, List.take_zero] at halone
    exact absurd halone (by decide +kernel)
  have hnone {a : Char} (d : Char) : (decide (c = a) && decide (none = some d)) = false := by simp
  have hsome {a d : Char} (hne : ¬(c = a ∧ y.head? = some d)) :
      (decide (c = a) && decide (y.head? = some d)) = false := by
    rwa [← Bool.not_eq_true, Bool.and_eq_true, decide_eq_true_eq, decide_eq_true_eq]
  simp only [lead, hpoint, hsome hline, hsome hblock, hsome hescape, hnone, Option.any_none]

theorem take_append_drop_of_le {n : Nat} (h : n ≤ x.length) (y : List Char) :
    (x ++ y).take n ++ x.drop n = x := by
  rw [List.take_append_of_le_length h, List.take_append_drop]

theorem find?_of_append {u p : List Char}
    (h : Lexeme.punctuators.find? (·.isPrefixOf (u ++ y)) = some p) (hle : p.length ≤ u.length) :
    Lexeme.punctuators.find? (·.isPrefixOf u) = some p := by
  have hfront := List.find?_some h
  rw [List.isPrefixOf_iff_prefix] at hfront
  have hlen := Lexeme.measures_punctuators.eq_some_of_append (congrArg (Option.map _) h) hle
  obtain ⟨q, hq, hlength⟩ := Option.map_eq_some_iff.1 hlen
  have hfront' := List.find?_some hq
  rw [List.isPrefixOf_iff_prefix] at hfront'
  have hshort := List.prefix_of_prefix_length_le (hfront'.trans (List.prefix_append u y)) hfront
    hlength.le
  rw [hq, hshort.eq_of_length hlength]

theorem punctuator_of_append {n : Nat} (h : Lexeme.punctuator (c :: x ++ y) = some n)
    (hle : n - 1 ≤ x.length) (hy : ∀ d ∈ y.head?, isDigitLike d = false) :
    Lexeme.punctuator (c :: x) = some n := by
  obtain ⟨p, hp, rfl⟩ := Option.map_eq_some_iff.1 h
  have hfront := List.find?_some hp
  rw [List.isPrefixOf_iff_prefix] at hfront
  by_cases hpoint : p = ['?', '.']
  · subst hpoint
    obtain ⟨rfl, hnext⟩ := List.cons_prefix_cons.1 hfront
    cases x with
    | nil =>
      -- the point and the digit stand behind the text
      split at hle
      case isTrue hdigit =>
        rw [if_pos hdigit]
        decide +kernel
      case isFalse => exact absurd hle (by decide)
    | cons d x =>
      obtain ⟨rfl, -⟩ := List.cons_prefix_cons.1 hnext
      have hfind := find?_of_append hp (by simp)
      have hdigit : (x ++ y).head?.any isDigitLike = x.head?.any isDigitLike := by
        cases x with
        | nil =>
          rw [List.nil_append, List.head?_nil, Option.any_none, Option.any_eq_false]
          simpa using hy
        | cons d x => rfl
      simp only [Lexeme.punctuator, hfind, Option.map_some]
      exact congrArg (fun b => some (if (_ && b) = true then 1 else 2)) hdigit.symm
  · simp only [hpoint, decide_false, Bool.false_and, Bool.false_eq_true, if_false] at hle ⊢
    have hfind := find?_of_append hp (by rw [List.length_cons]; omega)
    simp only [Lexeme.punctuator, hfind, Option.map_some, hpoint, decide_false, Bool.false_and,
      Bool.false_eq_true, if_false]

theorem number_of_append (h : Lexeme.number (c :: x ++ y) - 1 ≤ x.length) :
    Lexeme.number (c :: x) = Lexeme.number (c :: x ++ y) := by
  rw [Lexeme.number_eq, Lexeme.number_eq] at *
  cases hn : Lexeme.numeral (c :: x ++ y) with
  | none => rw [Lexeme.measures_numeral.eq_none_of_append hn]
  | some n =>
    rw [hn, Option.getD_some] at h
    rw [Lexeme.measures_numeral.eq_some_of_append hn (by rw [List.length_cons]; omega)]

theorem word_of_append (h : word (c :: x ++ y) = .ok piece) (hle : piece.extra ≤ x.length) :
    word (c :: x) = .ok piece := by
  unfold word at h ⊢
  split at h
  case h_1 => cases h
  case h_2 n hn =>
    cases h
    have hlen : n + 1 ≤ (c :: x).length := Nat.succ_le_succ hle
    have hname := Lexeme.measures_nameRun.eq_some_of_append (congrArg some hn) hlen
    rw [Option.some.inj hname]
    dsimp only
    rw [List.take_append_of_le_length hlen]

theorem readAs_of_append {l : Lead} (hl : r.Begins c x.head? l)
    (h : readAs c (x ++ y) l = .ok piece) (hle : piece.extra ≤ x.length)
    (hy : ∀ d ∈ y.head?, isDigitLike d = false) : readAs c x l = .ok piece := by
  cases l with
  | space => exact h
  | line =>
    cases hl with
    | line _ hnext =>
      obtain ⟨x, rfl⟩ := List.head?_eq_some_iff.1 hnext
      cases h
      have hrun : Lexeme.lineComment (x ++ y) ≤ x.length := by
        simp only [List.cons_append, List.drop_one, List.tail_cons, List.length_cons] at hle
        omega
      have htake := Lexeme.run_take hrun
      rw [List.take_left] at htake
      exact congrArg (fun n => Except.ok (Lexeme.mk .blank (1 + n))) htake
  | block =>
    cases hl with
    | block _ hnext =>
      obtain ⟨x, rfl⟩ := List.head?_eq_some_iff.1 hnext
      simp only [readAs, List.cons_append, List.drop_one, List.tail_cons] at h ⊢
      split at h
      case h_1 => cases h
      case h_2 n hn =>
        cases h
        have hn' : n ≤ x.length := by
          rw [List.length_cons, Nat.add_comm x.length] at hle
          exact Nat.le_of_add_le_add_left hle
        rw [Lexeme.blockComment_of_append hn hn']
  | string =>
    simp only [readAs] at h ⊢
    split at h
    case h_1 => cases h
    case h_2 n hn =>
      cases h
      have htake := Lexeme.quoted_take hn (x.drop n)
      rw [take_append_drop_of_le hle] at htake
      rw [htake]
  | piece =>
    have htake := templatePiece_take h (x.drop piece.extra)
    rwa [take_append_drop_of_le hle] at htake
  | regex =>
    simp only [readAs] at h ⊢
    split at h
    case h_1 => cases h
    case h_2 n hn =>
      cases h
      obtain ⟨hflag, htake⟩ := Lexeme.regex_take hn
      have hstop : ∀ d ∈ (x.drop n).head?, Lexeme.isFlag d = false := by
        intro d hd
        apply hflag
        rw [List.drop_append_of_le_length hle, List.head?_append, Option.mem_def.1 hd]
        rfl
      have hread := htake (x.drop n) hstop
      rw [take_append_drop_of_le hle] at hread
      rw [hread]
  | number =>
    cases h
    rw [readAs, number_of_append hle]
    rfl
  | word => exact word_of_append h hle
  | sign =>
    simp only [readAs] at h ⊢
    split at h
    case h_1 => cases h
    case h_2 n hn =>
      cases h
      rw [punctuator_of_append hn hle hy]

/-- A lexeme that fits in the beginning of a text is read there alone as it is read in the text,
unless a digit stands behind the beginning. -/
theorem lexeme_of_append (h : r.lexeme c (x ++ y) = .ok piece) (hle : piece.extra ≤ x.length)
    (hy : ∀ d ∈ y.head?, isDigitLike d = false) : r.lexeme c x = .ok piece := by
  have hlead : r.lead c x.head? = r.lead c (x ++ y).head? := by
    cases x with
    | nil => exact lead_none_of_lexeme h (Nat.le_zero.1 hle) hy
    | cons d x => rfl
  rw [lexeme_eq_readAs] at h ⊢
  rw [← hlead] at h
  exact readAs_of_append begins_lead h hle hy

end Ends

end Reader

end MdxLint
