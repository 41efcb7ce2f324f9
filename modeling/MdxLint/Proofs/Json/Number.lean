import Mathlib.Data.List.TakeWhile
import MdxLint.Json.Writer
import MdxLint.Proofs.Data.Shortest

/-! # Numbers in JSON

The grammar of numbers that RFC 8259 gives, with the number that each text writes. Whole numbers and
finite numbers of double precision are written in it.
-/

namespace MdxLint

open Nat (ofDigitChars)

namespace Json

/-- One decimal digit or more. -/
def IsRow (cs : List Char) : Prop := cs ≠ [] ∧ ∀ c ∈ cs, c.isDigit = true

/-- Digits before a point begin with a zero only if it stands alone. -/
def IsWhole (cs : List Char) : Prop := IsRow cs ∧ (cs.head? = some '0' → cs = ['0'])

/-- A point and the digits behind it, if there are any, and the fraction that they write. -/
inductive IsFraction : List Char → ℚ → Prop where
  | absent : IsFraction [] 0
  | digits {ds : List Char} (h : IsRow ds) :
      IsFraction ('.' :: ds) (ofDigitChars 10 ds 0 / 10 ^ ds.length)

/-- A power of ten, if there is any, and its exponent. -/
inductive IsExponent : List Char → ℤ → Prop where
  | absent : IsExponent [] 0
  | plain {e : Char} {ds : List Char} (he : e = 'e' ∨ e = 'E') (h : IsRow ds) :
      IsExponent (e :: ds) (ofDigitChars 10 ds 0)
  | plus {e : Char} {ds : List Char} (he : e = 'e' ∨ e = 'E') (h : IsRow ds) :
      IsExponent (e :: '+' :: ds) (ofDigitChars 10 ds 0)
  | minus {e : Char} {ds : List Char} (he : e = 'e' ∨ e = 'E') (h : IsRow ds) :
      IsExponent (e :: '-' :: ds) (-(ofDigitChars 10 ds 0 : ℕ))

/-- The text of a number without a sign. -/
inductive IsUnsigned : List Char → ℚ → Prop where
  | mk {ws fs es : List Char} {f : ℚ} {e : ℤ} (hw : IsWhole ws) (hf : IsFraction fs f)
      (he : IsExponent es e) : IsUnsigned (ws ++ fs ++ es) ((ofDigitChars 10 ws 0 + f) * 10 ^ e)

/-- The text of a number: whether it has a sign, and how large it is. -/
inductive IsNumber : List Char → Bool → ℚ → Prop where
  | positive {cs : List Char} {q : ℚ} (h : IsUnsigned cs q) : IsNumber cs false q
  | negative {cs : List Char} {q : ℚ} (h : IsUnsigned cs q) : IsNumber ('-' :: cs) true q

/-! ## Digits -/

section Digits

variable {cs ds : List Char} {n k : ℕ}

theorem isRow_toDigits (n : ℕ) : IsRow (Nat.toDigits 10 n) :=
  ⟨Nat.toDigits_ne_nil, fun _ h => Nat.isDigit_of_mem_toDigits (by decide) le_rfl h⟩

theorem IsRow.append (hc : IsRow cs) (hd : ∀ d ∈ ds, d.isDigit = true) : IsRow (cs ++ ds) :=
  ⟨List.append_ne_nil_of_left_ne_nil hc.1 ds, List.forall_mem_append.2 ⟨hc.2, hd⟩⟩

theorem IsRow.prepend (hc : ∀ c ∈ cs, c.isDigit = true) (hd : IsRow ds) : IsRow (cs ++ ds) :=
  ⟨List.append_ne_nil_of_right_ne_nil cs hd.1, List.forall_mem_append.2 ⟨hc, hd.2⟩⟩

theorem isDigit_of_mem_zeros : ∀ c ∈ List.replicate k '0', c.isDigit = true := by
  intro c hc
  rw [List.eq_of_mem_replicate hc]
  rfl

theorem isWhole_zero : IsWhole ['0'] := ⟨⟨List.cons_ne_nil _ _, by simp⟩, fun _ => rfl⟩

theorem ofDigitChars_append_eq (cs ds : List Char) :
    ofDigitChars 10 (cs ++ ds) 0 =
      10 ^ ds.length * ofDigitChars 10 cs 0 + ofDigitChars 10 ds 0 := by
  rw [Nat.ofDigitChars_append, Nat.ofDigitChars_eq_ofDigitChars_zero]

theorem ofDigitChars_zeros_append (k : ℕ) (ds : List Char) :
    ofDigitChars 10 (List.replicate k '0' ++ ds) 0 = ofDigitChars 10 ds 0 := by
  rw [ofDigitChars_append_eq, Nat.ofDigitChars_replicate_zero, mul_zero, mul_zero, zero_add]

theorem ofDigitChars_append_zeros (ds : List Char) (k : ℕ) :
    ofDigitChars 10 (ds ++ List.replicate k '0') 0 = ofDigitChars 10 ds 0 * 10 ^ k := by
  rw [Nat.ofDigitChars_append, Nat.ofDigitChars_replicate_zero, mul_comm]

theorem eq_zero_of_head?_toDigits : ∀ {n : ℕ}, (Nat.toDigits 10 n).head? = some '0' → n = 0 := by
  intro n
  induction n using Nat.strong_induction_on with
  | _ n ih =>
    intro h
    obtain hsmall | hlarge := Nat.lt_or_ge n 10
    · rw [Nat.toDigits_of_lt_base hsmall, List.head?_cons, Option.some_inj] at h
      have hdigit : ∀ m : Fin 10, m.1.digitChar = '0' → m.1 = 0 := by decide
      exact hdigit ⟨n, hsmall⟩ h
    · rw [Nat.toDigits_of_base_le (by decide) hlarge, List.head?_append_of_ne_nil _
        Nat.toDigits_ne_nil] at h
      have := ih (n / 10) (by omega) h
      omega

theorem isWhole_toDigits (n : ℕ) : IsWhole (Nat.toDigits 10 n) := by
  refine ⟨isRow_toDigits n, fun h => ?_⟩
  rw [eq_zero_of_head?_toDigits h]
  rfl

structure IsLeading (ds : List Char) : Prop where
  row : IsRow ds
  head : ds.head? ≠ some '0'

theorem IsLeading.isWhole_append (hc : IsLeading cs) (hd : ∀ d ∈ ds, d.isDigit = true) :
    IsWhole (cs ++ ds) := by
  refine ⟨hc.row.append hd, fun h => ?_⟩
  rw [List.head?_append_of_ne_nil _ hc.row.1] at h
  exact absurd h hc.head

theorem IsLeading.isWhole (hc : IsLeading cs) : IsWhole cs := by
  rw [← List.append_nil cs]
  exact hc.isWhole_append (List.forall_mem_nil _)

end Digits

/-! ## Whole numbers -/

theorem IsWhole.isUnsigned {ws : List Char} (h : IsWhole ws) :
    IsUnsigned ws (ofDigitChars 10 ws 0) := by
  have := IsUnsigned.mk h .absent .absent
  rwa [List.append_nil, List.append_nil, add_zero, zpow_zero, mul_one] at this

theorem isUnsigned_toString (n : ℕ) : IsUnsigned (toString n).toList n := by
  rw [Nat.toString_eq_ofList_toDigits, String.toList_ofList]
  have := (isWhole_toDigits n).isUnsigned
  rwa [Nat.ofDigitChars_ten_toDigits] at this

theorem isNumber_toString (n : ℤ) :
    IsNumber (toString n).toList (decide (n < 0)) n.natAbs := by
  cases n with
  | ofNat n => exact .positive (isUnsigned_toString n)
  | negSucc n =>
    rw [show toString (Int.negSucc n) = "-" ++ toString (n + 1) from rfl, String.toList_append,
      decide_eq_true (Int.negSucc_lt_zero n)]
    exact .negative (isUnsigned_toString (n + 1))

end Json

/-! ## Decimals -/

namespace Decimal

open Json

variable {ds : List Char} {point : ℤ}

theorem exists_zeros (ds : List Char) :
    ∃ k, ds = (ds.reverse.dropWhile (· = '0')).reverse ++ List.replicate k '0' := by
  refine ⟨(ds.reverse.takeWhile (· = '0')).length, ?_⟩
  have hzero : ∀ c ∈ ds.reverse.takeWhile (· = '0'), c = '0' := by
    intro c hc
    have h := @List.mem_takeWhile_imp _ (· = '0') _ _ hc
    exact of_decide_eq_true h
  have hzeros := List.eq_replicate_iff.2 ⟨rfl, hzero⟩
  calc ds = (ds.reverse.takeWhile (· = '0') ++ ds.reverse.dropWhile (· = '0')).reverse := by
        rw [List.takeWhile_append_dropWhile, List.reverse_reverse]
    _ = (ds.reverse.dropWhile (· = '0')).reverse ++ (ds.reverse.takeWhile (· = '0')).reverse :=
        List.reverse_append
    _ = _ := by
        conv_lhs => rw [hzeros, List.reverse_replicate]

/-- The digits of a decimal without the zeros at their end, and the place of the point. -/
theorem normal_spec {d : Decimal} (hd : 0 < d.digits) :
    IsLeading d.normal.1 ∧
      d.toRat = ofDigitChars 10 d.normal.1 0 * 10 ^ (d.normal.2 - d.normal.1.length) := by
  have hlead : (Nat.toDigits 10 d.digits).head? ≠ some '0' := fun h =>
    hd.ne' (eq_zero_of_head?_toDigits h)
  have hnumber := @Nat.ofDigitChars_ten_toDigits d.digits
  have hrow := isRow_toDigits d.digits
  obtain ⟨k, hk⟩ := exists_zeros (Nat.toDigits 10 d.digits)
  have hpoint : d.normal.2 = (Nat.toDigits 10 d.digits).length + d.exponent := rfl
  change Nat.toDigits 10 d.digits = d.normal.1 ++ _ at hk
  generalize d.normal.1 = ds at hk
  rw [hk] at hlead hnumber hrow hpoint
  have hne : ds ≠ [] := by
    rintro rfl
    cases k with
    | zero => exact hrow.1 rfl
    | succ k => exact hlead rfl
  rw [List.head?_append_of_ne_nil _ hne] at hlead
  refine ⟨⟨⟨hne, fun c hc => hrow.2 c (List.mem_append_left _ hc)⟩, hlead⟩, ?_⟩
  rw [toRat, ← hnumber, ofDigitChars_append_zeros, hpoint, List.length_append,
    List.length_replicate, show ((ds.length + k : ℕ) : ℤ) + d.exponent - ds.length =
      k + d.exponent by push_cast; ring, zpow_add₀ (by norm_num), zpow_natCast]
  push_cast
  ring

theorem isUnsigned_point {ws fs es : List Char} {e : ℤ} (hw : IsWhole ws) (hf : IsRow fs)
    (he : IsExponent es e) :
    IsUnsigned (ws ++ '.' :: fs ++ es) (ofDigitChars 10 (ws ++ fs) 0 * 10 ^ (e - fs.length)) := by
  have hten : (10 : ℚ) ≠ 0 := by norm_num
  convert IsUnsigned.mk hw (.digits hf) he using 1
  rw [ofDigitChars_append_eq, zpow_sub₀ hten, zpow_natCast]
  push_cast
  field_simp

section Positional

variable (h : IsLeading ds)

include h

theorem isUnsigned_behind (k : ℕ) :
    IsUnsigned ('0' :: '.' :: (List.replicate k '0' ++ ds))
      (ofDigitChars 10 ds 0 * 10 ^ (-(k : ℤ) - ds.length)) := by
  have hu := isUnsigned_point isWhole_zero (h.row.prepend (@isDigit_of_mem_zeros k)) .absent
  rw [← List.append_assoc, show ['0'] ++ List.replicate k '0' = List.replicate (k + 1) '0' from rfl,
    ofDigitChars_zeros_append, List.append_nil, List.length_append, List.length_replicate,
    Nat.cast_add, ← sub_sub, zero_sub] at hu
  exact hu

theorem isUnsigned_before (k : ℕ) :
    IsUnsigned (ds ++ List.replicate k '0' ++ ['.', '0']) (ofDigitChars 10 ds 0 * 10 ^ k) := by
  have hu := isUnsigned_point (h.isWhole_append (@isDigit_of_mem_zeros k)) isWhole_zero.1 .absent
  rw [List.append_assoc ds (List.replicate k '0') ['0'],
    show List.replicate k '0' ++ ['0'] = List.replicate (k + 1) '0' from
      List.replicate_succ'.symm, ofDigitChars_append_zeros, List.append_nil] at hu
  convert hu using 1
  rw [List.length_singleton, pow_succ]
  push_cast
  norm_num
  ring

theorem isUnsigned_among {p : ℕ} (hp : 0 < p) (hlt : p < ds.length) :
    IsUnsigned (ds.take p ++ '.' :: ds.drop p)
      (ofDigitChars 10 ds 0 * 10 ^ ((p : ℤ) - ds.length)) := by
  have hdrop : ds.drop p ≠ [] := by
    rw [Ne, List.drop_eq_nil_iff]
    omega
  have htake : IsLeading (ds.take p) := by
    obtain ⟨q, rfl⟩ : ∃ q, p = q + 1 := ⟨p - 1, by omega⟩
    obtain ⟨d, ds, rfl⟩ := List.exists_cons_of_ne_nil h.row.1
    exact ⟨⟨List.cons_ne_nil _ _, fun c hc => h.row.2 c (List.mem_of_mem_take hc)⟩, h.head⟩
  have hu := isUnsigned_point htake.isWhole
    ⟨hdrop, fun c hc => h.row.2 c (List.mem_of_mem_drop hc)⟩ .absent
  rw [List.take_append_drop, List.append_nil, List.length_drop, Nat.cast_sub hlt.le, zero_sub,
    neg_sub] at hu
  exact hu

theorem isUnsigned_positional (point : ℤ) :
    IsUnsigned (positional ds point) (ofDigitChars 10 ds 0 * 10 ^ (point - ds.length)) := by
  unfold positional
  split
  case isTrue hpoint =>
    obtain ⟨k, hk⟩ : ∃ k : ℕ, point = -k := ⟨(-point).toNat, by omega⟩
    rw [hk, neg_neg, Int.toNat_natCast]
    exact isUnsigned_behind h k
  case isFalse hpoint =>
    obtain ⟨p, rfl⟩ : ∃ p : ℕ, point = p := ⟨point.toNat, by omega⟩
    rw [Int.toNat_natCast]
    dsimp only
    obtain hle | hlt := Nat.lt_or_ge p ds.length
    · rw [show p - ds.length = 0 by omega, List.replicate_zero, List.append_nil,
        if_neg (by rw [List.isEmpty_iff, List.drop_eq_nil_iff]; omega)]
      exact isUnsigned_among h (by omega) hle
    · rw [List.take_of_length_le hlt, List.drop_of_length_le hlt,
        show (p : ℤ) - ds.length = (p - ds.length : ℕ) by omega, zpow_natCast]
      exact isUnsigned_before h _

end Positional

theorem isExponent_scientific (e : ℤ) :
    IsExponent ('e' :: (if e < 0 then '-' else '+') ::
      (List.replicate (2 - (Nat.toDigits 10 e.natAbs).length) '0' ++ Nat.toDigits 10 e.natAbs))
      e := by
  have hrow := (isRow_toDigits e.natAbs).prepend
    (@isDigit_of_mem_zeros (2 - (Nat.toDigits 10 e.natAbs).length))
  split
  case isTrue he =>
    convert IsExponent.minus (.inl rfl) hrow using 1
    rw [ofDigitChars_zeros_append, Nat.ofDigitChars_ten_toDigits]
    omega
  case isFalse he =>
    convert IsExponent.plus (.inl rfl) hrow using 1
    rw [ofDigitChars_zeros_append, Nat.ofDigitChars_ten_toDigits]
    omega

theorem isUnsigned_scientific (h : IsLeading ds) (point : ℤ) :
    IsUnsigned (scientific ds point) (ofDigitChars 10 ds 0 * 10 ^ (point - ds.length)) := by
  obtain ⟨d, ds, rfl⟩ := List.exists_cons_of_ne_nil h.row.1
  have he := isExponent_scientific (point - 1)
  cases ds with
  | nil =>
    have hu := IsUnsigned.mk h.isWhole .absent he
    rw [List.append_nil, add_zero] at hu
    exact hu
  | cons r rs =>
    obtain ⟨hd, hrs⟩ := List.forall_mem_cons.1 h.row.2
    have hwhole : IsLeading [d] := ⟨⟨List.cons_ne_nil _ _, by simpa using hd⟩, h.head⟩
    have hu := isUnsigned_point hwhole.isWhole ⟨List.cons_ne_nil r rs, hrs⟩ he
    have hplace : point - (d :: r :: rs).length = point - 1 - (r :: rs).length := by
      rw [@List.length_cons _ d (r :: rs)]
      omega
    rw [hplace]
    exact hu

theorem isUnsigned_text {d : Decimal} (hd : 0 < d.digits) : IsUnsigned d.text d.toRat := by
  obtain ⟨hlead, heq⟩ := normal_spec hd
  rw [heq]
  unfold text
  dsimp only
  split
  · exact isUnsigned_positional hlead _
  · exact isUnsigned_scientific hlead _

end Decimal

/-! ## Floating point numbers -/

namespace Json

section Characters

variable {cs ds : List Char} {q : ℚ} {e : ℤ} {negative : Bool}

def inNumbers (c : Char) : Bool := c.isDigit || c ∈ ['+', '-', '.', 'E', 'e']

theorem IsRow.inNumbers (h : IsRow cs) : ∀ c ∈ cs, inNumbers c = true := fun c hc =>
  Bool.or_eq_true_iff.2 (.inl (h.2 c hc))

theorem IsFraction.inNumbers (h : IsFraction cs q) : ∀ c ∈ cs, inNumbers c = true := by
  cases h with
  | absent => exact List.forall_mem_nil _
  | digits h => exact List.forall_mem_cons.2 ⟨rfl, h.inNumbers⟩

theorem IsExponent.inNumbers (h : IsExponent cs e) : ∀ c ∈ cs, inNumbers c = true := by
  have hmark {m : Char} (hm : m = 'e' ∨ m = 'E') : Json.inNumbers m = true := by
    obtain rfl | rfl := hm
    · rfl
    · rfl
  cases h with
  | absent => exact List.forall_mem_nil _
  | plain he h => exact List.forall_mem_cons.2 ⟨hmark he, h.inNumbers⟩
  | plus he h =>
    exact List.forall_mem_cons.2 ⟨hmark he, List.forall_mem_cons.2 ⟨rfl, h.inNumbers⟩⟩
  | minus he h =>
    exact List.forall_mem_cons.2 ⟨hmark he, List.forall_mem_cons.2 ⟨rfl, h.inNumbers⟩⟩

theorem IsNumber.inNumbers (h : IsNumber cs negative q) : ∀ c ∈ cs, inNumbers c = true := by
  have hunsigned {cs : List Char} (h : IsUnsigned cs q) : ∀ c ∈ cs, Json.inNumbers c = true := by
    obtain ⟨hw, hf, he⟩ := h
    exact List.forall_mem_append.2
      ⟨List.forall_mem_append.2 ⟨hw.1.inNumbers, hf.inNumbers⟩, he.inNumbers⟩
  cases h with
  | positive h => exact hunsigned h
  | negative h => exact List.forall_mem_cons.2 ⟨rfl, hunsigned h⟩

end Characters

theorem isUnsigned_zero : IsUnsigned ['0', '.', '0'] 0 := by
  have h := IsUnsigned.mk isWhole_zero (.digits isWhole_zero.1) .absent
  rw [show ofDigitChars 10 ['0'] 0 = 0 from rfl, Nat.cast_zero, zero_div, add_zero, zero_mul] at h
  exact h

section Finite

variable {x : Float} {negative : Bool} {d : Dyadic}
  (h : Dyadic.ofBits x.toBits.toNat = (negative, .finite d))

include h

theorem isNumber_floatText :
    ∃ q, IsNumber (floatText x).toList negative q ∧ d.IsNearest q := by
  have hd := Dyadic.isDouble_of_ofBits h
  obtain ⟨cs, q, hcs, hq, hnear⟩ : ∃ cs q,
      cs = (if d.mantissa = 0 then ['0', '.', '0'] else d.shortest.text) ∧
        IsUnsigned cs q ∧ d.IsNearest q := by
    by_cases hzero : d.mantissa = 0
    · refine ⟨_, d.toRat, (if_pos hzero).symm, ?_, d.isNearest_toRat⟩
      rw [Dyadic.toRat, hzero, Nat.cast_zero, zero_mul]
      exact isUnsigned_zero
    · have hpos := Nat.pos_of_ne_zero hzero
      exact ⟨_, _, (if_neg hzero).symm, Decimal.isUnsigned_text (hd.digits_shortest_pos hpos),
        hd.isNearest_of_rounds (hd.rounds_shortest hpos)⟩
  refine ⟨q, ?_, hnear⟩
  rw [floatText, h, String.toList_ofList]
  dsimp only
  rw [← hcs]
  cases negative with
  | true => exact .negative hq
  | false => exact .positive hq

theorem isNumber_numberText :
    ∃ q, IsNumber (numberText x).toList negative q ∧ d.IsNearest q := by
  obtain ⟨q, hq, hnear⟩ := isNumber_floatText h
  have hword (s : String) (hs : ('n' ∈ s.toList)) : floatText x ≠ s := by
    rintro rfl
    exact absurd (hq.inNumbers _ hs) (by decide)
  have htext : numberText x = floatText x := by
    unfold numberText
    split
    case h_1 hs => exact absurd hs (hword _ (by decide))
    case h_2 hs => exact absurd hs (hword _ (by decide))
    case h_3 hs => exact absurd hs (hword _ (by decide))
    case h_4 => rfl
  rw [htext]
  exact ⟨q, hq, hnear⟩

end Finite

end Json

end MdxLint
