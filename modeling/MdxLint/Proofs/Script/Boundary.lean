import MdxLint.Proofs.Fragment.Front
import MdxLint.Proofs.Script.Lossless
import MdxLint.Proofs.Script.Reach
import Mathlib.Data.List.Find

/-! # Lexemes end at gaps

A gap begins with a blank, a byte order mark or the slash of a comment. None of these characters
carries a lexeme on, so no measure of a lexeme looks past the first character of a gap: what it
answers in front of a gap is what it answers at the end of the text.
-/

namespace MdxLint

def isGapStart (c : Char) : Bool := isBlank c || c = '\ufeff' || c = '/'

def Stops (g : List Char) : Prop := ∀ c ∈ g.head?, isGapStart c = true

section Characters

variable {c : Char}

theorem isGapStart_of_isBlank (h : isBlank c = true) : isGapStart c = true := by
  simp [isGapStart, h]

/-- A test that fails for all blanks and for the two other characters fails where gaps begin. -/
theorem eq_false_of_isGapStart {P : Char → Bool} (hblank : ∀ c, isBlank c = true → P c = false)
    (hmark : P '\ufeff' = false) (hslash : P '/' = false) (h : isGapStart c = true) :
    P c = false := by
  simp only [isGapStart, Bool.or_eq_true, decide_eq_true_eq] at h
  rcases h with (h | rfl) | rfl
  · exact hblank c h
  · exact hmark
  · exact hslash

theorem isWord_of_isGapStart : isGapStart c = true → isWord c = false :=
  eq_false_of_isGapStart
    (fun _ h => CodeRanges.contains_eq_false_of_apart (by decide +kernel) h)
    (by decide +kernel) (by decide +kernel)

theorem isDecimal_of_isGapStart : isGapStart c = true → isDecimal c = false :=
  eq_false_of_isGapStart
    (fun _ h => CodeRanges.contains_eq_false_of_apart (by decide +kernel) h)
    (by decide +kernel) (by decide +kernel)

theorem isDigitLike_of_isGapStart (h : isGapStart c = true) : isDigitLike c = false := by
  rw [isDigitLike, isDecimal_of_isGapStart h, Bool.false_or]
  exact eq_false_of_isGapStart (P := fun c => typographicDigitRanges.contains c.toNat)
    (fun _ h => CodeRanges.contains_eq_false_of_apart (by decide +kernel) h)
    (by decide +kernel) (by decide +kernel) h

theorem eq_false_of_bounded {P : Char → Bool}
    (hP : ∀ c, P c = true → 0x30 ≤ c.toNat ∧ c.toNat ≤ 0x66) (h : isGapStart c = true) :
    P c = false := by
  have hblank (c : Char) (h : isBlank c = true) : ¬ (0x30 ≤ c.toNat ∧ c.toNat ≤ 0x66) := by
    obtain ⟨r, hr, hlo, hhi⟩ := CodeRanges.exists_of_contains h
    have hout : r.2 < 0x30 ∨ 0x66 < r.1 :=
      (by decide : ∀ r ∈ blankRanges, r.2 < 0x30 ∨ 0x66 < r.1) r hr
    omega
  refine eq_false_of_isGapStart (fun c h => ?_) ?_ ?_ h
  all_goals
    rw [Bool.eq_false_iff]
    intro hp
  · exact hblank c h (hP c hp)
  · exact absurd (hP _ hp) (by decide)
  · exact absurd (hP _ hp) (by decide)

theorem isHex_of_isGapStart : isGapStart c = true → isHex c = false := by
  refine eq_false_of_bounded fun c h => ?_
  simp only [isHex, Char.isDigit, Bool.or_eq_true, Bool.and_eq_true, decide_eq_true_eq,
    Char.le_def, UInt32.le_iff_toNat_le] at h
  change ((48 ≤ c.toNat ∧ c.toNat ≤ 57) ∨ 97 ≤ c.toNat ∧ c.toNat ≤ 102) ∨
    65 ≤ c.toNat ∧ c.toNat ≤ 70 at h
  omega

theorem isOctal_of_isGapStart : isGapStart c = true → isOctal c = false := by
  refine eq_false_of_bounded fun c h => ?_
  simp only [isOctal, Bool.and_eq_true, decide_eq_true_eq, Char.le_def,
    UInt32.le_iff_toNat_le] at h
  change 48 ≤ c.toNat ∧ c.toNat ≤ 55 at h
  omega

def carriers : List Char :=
  ['$', '\u200c', '\u200d', '_', '\\', 'u', '\x7b', '\x7d', 'n', 'e', 'E', '+', '-', '.', '0', 'x',
   'X', 'o', 'O', 'b', 'B', '1', '=', '>', '<', '&', '|', '?', '*', '%', '^']

theorem ne_of_isGapStart (h : isGapStart c = true) : ∀ d ∈ carriers, c ≠ d :=
  ne_of_all_ne h (by decide +kernel)

theorem isNamePart_of_isGapStart (h : isGapStart c = true) : Lexeme.isNamePart c = false := by
  have hne := ne_of_isGapStart h
  simp only [carriers, List.forall_mem_cons] at hne
  simp [Lexeme.isNamePart, isWord_of_isGapStart h, hne]

theorem isFlag_of_isGapStart (h : isGapStart c = true) : Lexeme.isFlag c = false := by
  have hne := ne_of_isGapStart h
  simp only [carriers, List.forall_mem_cons] at hne
  simp [Lexeme.isFlag, isWord_of_isGapStart h, hne]

end Characters

namespace Lexeme

variable {p g : List Char}

theorem drop_run_append (P : Char → Bool) (p g : List Char) :
    (p ++ g).drop (run P p) = p.drop (run P p) ++ g :=
  List.drop_append_of_le_length (run_le_length P p)

section Stops

variable (hg : Stops g)

include hg

theorem head?_ne_of_stops {d : Char} (hd : d ∈ carriers) : g.head? ≠ some d := by
  intro h
  exact ne_of_isGapStart (hg d h) d hd rfl

theorem any_head?_of_stops {P : Char → Bool} (hP : ∀ c, isGapStart c = true → P c = false) :
    g.head?.any P = false := by
  cases g with
  | nil => rfl
  | cons d g => exact hP d (hg d rfl)

theorem run_gap {P : Char → Bool} (hP : ∀ c, isGapStart c = true → P c = false) (p : List Char) :
    run P (p ++ g) = run P p := by
  induction p with
  | nil =>
    cases g with
    | nil => rfl
    | cons d g => simp [run, hP d (hg d rfl)]
  | cons c p ih => rw [List.cons_append, run, run, ih]

theorem bigMark_gap (p : List Char) : bigMark (p ++ g) = bigMark p := by
  cases p with
  | nil =>
    have hn := head?_ne_of_stops hg (d := 'n') (by decide)
    rw [List.nil_append]
    unfold bigMark
    split
    · simp at hn
    · rfl
  | cons c p =>
    unfold bigMark
    split <;> simp_all

theorem exponent_gap (p : List Char) : exponent (p ++ g) = exponent p := by
  have hrun (cs : List Char) (k : Nat) (hk : k ≤ cs.length) :
      run isDecimal ((cs ++ g).drop k) = run isDecimal (cs.drop k) := by
    rw [List.drop_append_of_le_length hk]
    exact run_gap hg (fun _ => isDecimal_of_isGapStart) _
  cases p with
  | nil =>
    have he := head?_ne_of_stops hg (d := 'e') (by decide)
    have hE := head?_ne_of_stops hg (d := 'E') (by decide)
    cases g with
    | nil => rfl
    | cons d g => simp_all [exponent]
  | cons e p =>
    cases p with
    | nil =>
      have hplus := head?_ne_of_stops hg (d := '+') (by decide)
      have hminus := head?_ne_of_stops hg (d := '-') (by decide)
      have hzero := hrun [] 0 (Nat.le_refl 0)
      cases g with
      | nil => rfl
      | cons d g => simp_all [exponent]
    | cons c p =>
      have hsign : (if c = '+' || c = '-' then 1 else 0) ≤ (c :: p).length := by
        split <;> simp
      simp only [List.cons_append, exponent]
      rw [← List.cons_append, hrun (c :: p) _ hsign]

theorem radixNumber_gap {marks : List Char} {isDigit : Char → Bool}
    (hm : marks ⊆ carriers) (hd : ∀ c, isGapStart c = true → isDigit c = false) (p : List Char) :
    radixNumber marks isDigit (p ++ g) = radixNumber marks isDigit p := by
  have hund (c : Char) (h : isGapStart c = true) : (isDigit c || c = '_') = false := by
    rw [hd c h, Bool.false_or, decide_eq_false_iff_not]
    exact ne_of_isGapStart h '_' (by decide)
  cases p with
  | nil =>
    have hzero := head?_ne_of_stops hg (d := '0') (by decide)
    rw [List.nil_append]
    unfold radixNumber
    split
    · simp at hzero
    · rfl
  | cons z p =>
    cases p with
    | nil =>
      have hone : radixNumber marks isDigit [z] = none := by
        unfold radixNumber
        split <;> simp_all
      rw [hone, List.singleton_append]
      unfold radixNumber
      split
      case h_1 m cs heq =>
        obtain ⟨rfl, rfl⟩ := List.cons.inj heq
        rw [if_neg fun h => head?_ne_of_stops hg (hm h) rfl]
      case h_2 => rfl
    | cons m p =>
      by_cases hz : z = '0'
      · subst hz
        simp only [List.cons_append, radixNumber, run_gap hg hund]
        have hdrop := drop_run_append (fun c => isDigit c || c = '_') p g
        cases hn : run (fun c => isDigit c || c = '_') p with
        | zero => rfl
        | succ n =>
          rw [hn] at hdrop
          simp only [hdrop, bigMark_gap hg]
      · unfold radixNumber
        split <;> simp_all

theorem mantissa_gap (p : List Char) : mantissa (p ++ g) = mantissa p := by
  have hdigits (cs : List Char) : run (fun c => isDecimal c || c = '_') (cs ++ g) =
      run (fun c => isDecimal c || c = '_') cs := by
    refine run_gap hg (fun c h => ?_) cs
    rw [isDecimal_of_isGapStart h, Bool.false_or, decide_eq_false_iff_not]
    exact ne_of_isGapStart h '_' (by decide)
  have hpoint := head?_ne_of_stops hg (d := '.') (by decide)
  cases p with
  | nil =>
    cases g with
    | nil => rfl
    | cons d g =>
      have hd := isDecimal_of_isGapStart (hg d rfl)
      simp_all [mantissa]
  | cons c p =>
    by_cases hc : isDecimal c = true
    · have hdrop : (c :: (p ++ g)).drop (1 + run (fun c => isDecimal c || c = '_') p) =
          p.drop (run (fun c => isDecimal c || c = '_') p) ++ g := by
        rw [Nat.add_comm, List.drop_succ_cons, drop_run_append]
      have hdrop' : (c :: p).drop (1 + run (fun c => isDecimal c || c = '_') p) =
          p.drop (run (fun c => isDecimal c || c = '_') p) := by
        rw [Nat.add_comm, List.drop_succ_cons]
      simp only [List.cons_append, mantissa, hc, if_true, hdigits, hdrop, hdrop']
      cases p.drop (run (fun c => isDecimal c || c = '_') p) with
      | nil =>
        split
        · simp_all
        · rfl
      | cons d q =>
        by_cases hd : d = '.'
        · subst hd
          simp only [List.cons_append, hdigits]
        · split <;> simp_all
    · simp only [List.cons_append, mantissa, hc, if_false, Bool.false_eq_true]
      split
      · cases p with
        | nil =>
          have hd := any_head?_of_stops hg fun _ => isDecimal_of_isGapStart
          cases g with
          | nil => rfl
          | cons d g => simp_all
        | cons d p => simp only [List.cons_append, hdigits]
      · rfl

theorem decimalNumber_gap (p : List Char) : decimalNumber (p ++ g) = decimalNumber p := by
  rw [decimalNumber_eq, decimalNumber_eq, mantissa_gap hg]
  cases hm : mantissa p with
  | none => rfl
  | some n =>
    have hn := mantissa_le_length hm
    have hexp := exponent_le_length (p.drop n)
    rw [List.length_drop] at hexp
    simp only [Option.map_some, List.drop_append_of_le_length hn, exponent_gap hg]
    rw [List.drop_append_of_le_length (by omega), bigMark_gap hg]

theorem number_gap (p : List Char) : number (p ++ g) = number p := by
  have hbinary (c : Char) (h : isGapStart c = true) :
      (decide (c = '0') || decide (c = '1')) = false := by
    have hne := ne_of_isGapStart h
    simp [hne '0' (by decide), hne '1' (by decide)]
  rw [number, number, radixNumber_gap hg (by decide) fun _ => isHex_of_isGapStart,
    radixNumber_gap hg (by decide) fun _ => isOctal_of_isGapStart,
    radixNumber_gap hg (by decide) hbinary, decimalNumber_gap hg]

theorem nameEscape_gap (p : List Char) : nameEscape (p ++ g) = nameEscape p := by
  obtain hne | rfl | ⟨rest, rfl⟩ | ⟨c, rest, hc, rfl⟩ := escape_cases p
  · rw [nameEscape_of_ne hne]
    apply nameEscape_of_ne
    have hslash := head?_ne_of_stops hg (d := '\\') (by decide)
    have hu := head?_ne_of_stops hg (d := 'u') (by decide)
    rcases p with _ | ⟨a, _ | ⟨b, p⟩⟩
    · cases g <;> simp_all
    · cases g <;> simp_all
    · simpa using hne
  · have hopen := head?_ne_of_stops hg (d := '\x7b') (by decide)
    cases g with
    | nil => rfl
    | cons d g =>
      have hd : isHex d = false := isHex_of_isGapStart (hg d rfl)
      change nameEscape ('\\' :: 'u' :: d :: g) = none
      rw [nameEscape_digits (by simpa using hopen), hd]
      rfl
  · have hclose := head?_ne_of_stops hg (d := '\x7d') (by decide)
    have hhead : ((rest ++ g).drop (run isHex rest)).head? = some '\x7d' ↔
        (rest.drop (run isHex rest)).head? = some '\x7d' := by
      rw [drop_run_append]
      cases rest.drop (run isHex rest) with
      | nil => simp [hclose]
      | cons d q => simp
    simp only [List.cons_append, nameEscape_braces, run_gap hg fun _ => isHex_of_isGapStart, hhead]
  · simp only [List.cons_append, nameEscape_digits hc]
    by_cases hlen : 3 ≤ rest.length
    · rw [List.take_append_of_le_length hlen]
      simp [hlen, Nat.le_add_right_of_le hlen]
    · -- the digits would reach into the gap
      have hall : (decide (3 ≤ (rest ++ g).length) && ((rest ++ g).take 3).all isHex) = false := by
        cases g with
        | nil => simp [hlen]
        | cons d g =>
          have hd : isHex d = false := isHex_of_isGapStart (hg d rfl)
          rw [Bool.and_eq_false_iff]
          refine .inr (List.all_eq_false.2 ⟨d, ?_, by simp [hd]⟩)
          rw [List.mem_take_iff_getElem]
          refine ⟨rest.length, by simp; omega, by simp⟩
      rw [Bool.and_assoc, hall]
      simp [hlen]

theorem name_gap (p : List Char) : name (p ++ g) = name p := by
  fun_induction name p with
  | case1 =>
    cases g with
    | nil => rw [List.nil_append, name]
    | cons d g =>
      have hescape := nameEscape_gap hg []
      rw [List.nil_append] at hescape
      rw [List.nil_append, name, isNamePart_of_isGapStart (hg d rfl), hescape]
      rfl
  | case2 c p hc ih => rw [List.cons_append, name, if_pos hc, ih]
  | case3 c p hc hescape =>
    rw [List.cons_append, name, if_neg hc, ← List.cons_append, nameEscape_gap hg, hescape]
  | case4 c p hc n hescape ih =>
    have hn := nameEscape_le_length hescape
    rw [List.length_cons] at hn
    rw [List.cons_append, name, if_neg hc, ← List.cons_append, nameEscape_gap hg, hescape]
    dsimp only
    rw [List.drop_append_of_le_length (by omega), ih]

theorem isPrefixOf_gap {q : List Char} (hq : ∀ c ∈ q, isGapStart c = false) (p : List Char) :
    q.isPrefixOf (p ++ g) = q.isPrefixOf p := by
  induction q generalizing p with
  | nil => cases p <;> rfl
  | cons a q ih =>
    rw [List.forall_mem_cons] at hq
    cases p with
    | nil =>
      cases g with
      | nil => rfl
      | cons d g =>
        have hne : a ≠ d := by
          rintro rfl
          exact absurd (hg a rfl) (by simp [hq.1])
        simp [List.isPrefixOf, hne]
    | cons c p => simp only [List.cons_append, List.isPrefixOf, ih hq.2]

theorem punctuator_gap {c : Char} (p : List Char) :
    punctuator (c :: p ++ g) = punctuator (c :: p) := by
  have hprefix : ∀ q ∈ punctuators, q.isPrefixOf (c :: p ++ g) = q.isPrefixOf (c :: p) := by
    intro q hq
    have hall : punctuators.all (fun q => q.tail.all fun d => !isGapStart d) = true := by
      decide +kernel
    cases q with
    | nil => rfl
    | cons a q =>
      have htail : ∀ d ∈ q, isGapStart d = false := by
        simpa using List.all_eq_true.1 hall _ hq
      simp only [List.cons_append, List.isPrefixOf, isPrefixOf_gap hg htail p]
  have hfind : punctuators.find? (·.isPrefixOf (c :: p ++ g)) =
      punctuators.find? (·.isPrefixOf (c :: p)) := List.find?_congr hprefix
  rw [punctuator, punctuator, hfind]
  cases hq : punctuators.find? (·.isPrefixOf (c :: p)) with
  | none => rfl
  | some q =>
    rw [Option.map_some, Option.map_some]
    by_cases hpoint : q = ['?', '.']
    · subst hpoint
      have hpre := List.find?_some hq
      obtain ⟨rest, hrest⟩ := List.isPrefixOf_iff_prefix.1 hpre
      have hdigit := any_head?_of_stops hg fun _ => isDigitLike_of_isGapStart
      rw [← hrest]
      cases rest with
      | nil => simp [hdigit]
      | cons d rest => simp
    · simp [hpoint]

end Stops

/-! ## Lexemes that end by a mark of their own -/

theorem quoted_take {quote : Char} {cs : List Char} {n : Nat} (h : quoted quote cs = some n)
    (b : List Char) : quoted quote (cs.take n ++ b) = some n := by
  fun_induction quoted quote cs generalizing n with
  | case1 => cases h
  | case2 => cases h
  | case3 c cs ih =>
    obtain ⟨m, hm, rfl⟩ := Option.map_eq_some_iff.1 h
    simp [quoted, ih hm]
  | case4 cs hb =>
    cases h
    simp [quoted]
  | case5 => cases h
  | case6 c cs hb hq hl ih =>
    obtain ⟨m, hm, rfl⟩ := Option.map_eq_some_iff.1 h
    rw [List.take_succ_cons, List.cons_append, quoted, if_neg hq, if_neg hl, ih hm]
    · rfl
    · exact hb

theorem template_take {cs : List Char} {r : Nat × TemplateEnd} (h : template cs = some r)
    (b : List Char) : template (cs.take r.1 ++ b) = some r := by
  fun_induction template cs generalizing r with
  | case1 => cases h
  | case2 => cases h
  | case3 c cs ih =>
    obtain ⟨m, hm, rfl⟩ := Option.map_eq_some_iff.1 h
    simp [template, ih hm]
  | case4 cs =>
    cases h
    simp [template]
  | case5 cs =>
    cases h
    simp [template]
  | case6 c cs hb ht hs ih =>
    obtain ⟨m, hm, rfl⟩ := Option.map_eq_some_iff.1 h
    have hopen (rest : List Char) : c = '$' → cs.take m.1 ++ b ≠ '\x7b' :: rest := by
      intro hc hrest
      -- the rest of the piece has a character, and it is the one behind `c`
      obtain ⟨body, htake⟩ := exists_of_template hm
      cases cs with
      | nil => cases hm
      | cons d cs =>
        cases hn : m.1 with
        | zero =>
          rw [hn, List.take_zero] at htake
          cases e : m.2 <;> simp [e, TemplateEnd.mark] at htake
        | succ n =>
          rw [hn, List.take_succ_cons, List.cons_append, List.cons.injEq] at hrest
          exact hs cs hc (by rw [hrest.1])
    rw [List.take_succ_cons, List.cons_append, template, ih hm]
    · rfl
    · exact hb
    · exact ht
    · exact hopen

theorem head?_drop_run (P : Char → Bool) (cs : List Char) :
    ∀ c ∈ (cs.drop (run P cs)).head?, P c = false := by
  intro c hc
  rw [drop_run] at hc
  have hnot := List.head?_dropWhile_not P cs
  rw [Option.mem_def.1 hc] at hnot
  simpa using hnot

theorem regex_take {inClass : Bool} {cs : List Char} {n : Nat} (h : regex inClass cs = some n) :
    (∀ c ∈ (cs.drop n).head?, isFlag c = false) ∧
      ∀ b : List Char, (∀ c ∈ b.head?, isFlag c = false) →
        regex inClass (cs.take n ++ b) = some n := by
  fun_induction regex inClass cs generalizing n with
  | case1 => cases h
  | case2 => cases h
  | case3 inClass c cs ih =>
    obtain ⟨m, hm, rfl⟩ := Option.map_eq_some_iff.1 h
    obtain ⟨hflag, hb⟩ := ih hm
    exact ⟨hflag, fun b hs => by simp [regex, hb b hs]⟩
  | case4 => cases h
  | case5 inClass cs hb hend ih =>
    obtain ⟨m, hm, rfl⟩ := Option.map_eq_some_iff.1 h
    obtain ⟨hflag, hstop⟩ := ih hm
    exact ⟨hflag, fun b hs => by simp [regex, hend, hstop b hs]⟩
  | case6 inClass cs hb hend hopen ih =>
    obtain ⟨m, hm, rfl⟩ := Option.map_eq_some_iff.1 h
    obtain ⟨hflag, hstop⟩ := ih hm
    exact ⟨hflag, fun b hs => by simp [regex, hend, hstop b hs]⟩
  | case7 inClass c cs hb hend hopen hclose hslash =>
    cases h
    refine ⟨head?_drop_run isFlag cs, fun b hs => ?_⟩
    have hflags : run isFlag (cs.take (run isFlag cs) ++ b) = run isFlag cs := by
      have hlen := List.length_take_of_le (run_le_length isFlag cs)
      rw [run_append _ hs, hlen]
      intro d hd
      rw [take_run] at hd
      exact List.mem_takeWhile_imp hd
    rw [List.take_succ_cons, List.cons_append, regex, if_neg hend, if_neg hopen, if_neg hclose,
      if_pos hslash, hflags]
    exact hb
  | case8 inClass c cs hb hend hopen hclose hslash ih =>
    obtain ⟨m, hm, rfl⟩ := Option.map_eq_some_iff.1 h
    obtain ⟨hflag, hstop⟩ := ih hm
    refine ⟨hflag, fun b hs => ?_⟩
    rw [List.take_succ_cons, List.cons_append, regex, if_neg hend, if_neg hopen, if_neg hclose,
      if_neg hslash, hstop b hs]
    · rfl
    · exact hb

end Lexeme

end MdxLint
