import MdxLint.Data.Decimal

/-! # Floating point numbers and their bits

The bits of a floating point number say what it is as a signed mantissa with an exponent, and its
order is told by these.
-/

namespace MdxLint

open Float.Model (UnpackedFloat Format)
open Float.Model.UnpackedFloat (Sign unpackMantissa unpackExponent unpackSign)

def signOf (negative : Bool) : Sign := if negative then .negative else .positive

def unpacked (negative : Bool) : Magnitude → UnpackedFloat
  | .undefined => .notANumber
  | .infinite => .infinity (signOf negative)
  | .finite d =>
    if h : 0 < d.mantissa then .finite (signOf negative) d.mantissa d.exponent h
    else .zero (signOf negative)

section Bits

variable (b : BitVec 64)

theorem toNat_unpackMantissa :
    (@unpackMantissa Format.binary64 b).toNat = b.toNat % Nat.pow 2 52 := by
  rw [show @unpackMantissa Format.binary64 b = b.extractLsb' 0 52 from rfl,
    BitVec.extractLsb'_toNat, Nat.shiftRight_zero]
  rfl

theorem toNat_unpackExponent :
    (@unpackExponent Format.binary64 b).toNat = b.toNat / Nat.pow 2 52 % Nat.pow 2 11 := by
  rw [show @unpackExponent Format.binary64 b = b.extractLsb' 52 11 from rfl,
    BitVec.extractLsb'_toNat, Nat.shiftRight_eq_div_pow]
  rfl

theorem toNat_unpackSign :
    (@unpackSign Format.binary64 b).toNat = b.toNat / Nat.pow 2 63 % 2 := by
  rw [show @unpackSign Format.binary64 b = b.extractLsb' 63 1 from rfl,
    BitVec.extractLsb'_toNat, Nat.shiftRight_eq_div_pow]

theorem ofBitVec_eq_signOf (v : BitVec 1) : Sign.ofBitVec v = signOf (v.toNat = 1) := by
  rcases BitVec.eq_zero_or_eq_one v with rfl | rfl
  · rfl
  · rfl

theorem toNat_one_append (v : BitVec 52) : (1#1 ++ v).toNat = v.toNat + Nat.pow 2 52 := by
  rw [BitVec.toNat_append, ← Nat.shiftLeft_add_eq_or_of_lt v.isLt, Nat.add_comm]
  rfl

end Bits

theorem unpacked_finite {negative : Bool} {d : Dyadic} {m : Nat} {e : Int} (h : 0 < m)
    (hm : m = d.mantissa) (he : e = d.exponent) :
    UnpackedFloat.finite (signOf negative) m e h = unpacked negative (.finite d) := by
  subst hm he
  exact (dif_pos h).symm

theorem unpacked_zero {negative : Bool} {d : Dyadic} (h : d.mantissa = 0) :
    UnpackedFloat.zero (signOf negative) = unpacked negative (.finite d) := by
  have hpos : ¬ 0 < d.mantissa := by
    rw [h]
    exact Nat.lt_irrefl 0
  rw [unpacked, dif_neg hpos]

theorem unpack_toModel (x : Float) :
    x.toModel.unpack =
      unpacked (Dyadic.ofBits x.toBits.toNat).1 (Dyadic.ofBits x.toBits.toNat).2 := by
  have hm := toNat_unpackMantissa x.toModel.toBits.toBitVec
  have he := toNat_unpackExponent x.toModel.toBits.toBitVec
  have hs := toNat_unpackSign x.toModel.toBits.toBitVec
  rw [show x.toModel.toBits.toBitVec.toNat = x.toBits.toNat from rfl] at hm he hs
  have hsign : Sign.ofBitVec (@unpackSign Format.binary64 x.toModel.toBits.toBitVec) =
      signOf (x.toBits.toNat / Nat.pow 2 63 % 2 = 1) := by
    rw [ofBitVec_eq_signOf, hs]
  have hones : @unpackExponent Format.binary64 x.toModel.toBits.toBitVec = -1#11 ↔
      x.toBits.toNat / Nat.pow 2 52 % Nat.pow 2 11 = 2047 := by
    rw [← he, ← BitVec.toNat_inj]
    rfl
  have hzero : @unpackExponent Format.binary64 x.toModel.toBits.toBitVec = 0#11 ↔
      x.toBits.toNat / Nat.pow 2 52 % Nat.pow 2 11 = 0 := by
    rw [← he, ← BitVec.toNat_inj]
    rfl
  have hfraction : @unpackMantissa Format.binary64 x.toModel.toBits.toBitVec = 0#52 ↔
      x.toBits.toNat % Nat.pow 2 52 = 0 := by
    rw [← hm, ← BitVec.toNat_inj]
    rfl
  have hbias : ((Format.binary64.exponentBias : Nat) : Int) = 1023 := rfl
  delta Float.Model.unpack UnpackedFloat.unpack Dyadic.ofBits
  dsimp only
  rw [hsign]
  by_cases hall : x.toBits.toNat / Nat.pow 2 52 % Nat.pow 2 11 = 2047
  · rw [if_pos (hones.2 hall), if_pos hall]
    by_cases hnone : x.toBits.toNat % Nat.pow 2 52 = 0
    · rw [if_pos (hfraction.2 hnone), if_pos hnone]
      rfl
    · rw [if_neg (mt hfraction.1 hnone), if_neg hnone]
      rfl
  · rw [if_neg (mt hones.1 hall), if_neg hall]
    by_cases hsmall : x.toBits.toNat / Nat.pow 2 52 % Nat.pow 2 11 = 0
    · rw [if_pos (hzero.2 hsmall), if_pos hsmall]
      by_cases hnone : x.toBits.toNat % Nat.pow 2 52 = 0
      · rw [dif_pos (hfraction.2 hnone)]
        exact unpacked_zero hnone
      · rw [dif_neg (mt hfraction.1 hnone)]
        apply unpacked_finite
        · exact hm
        · rw [he, hsmall, hbias]
          rfl
    · rw [if_neg (mt hzero.1 hsmall), if_neg hsmall]
      apply unpacked_finite
      · rw [toNat_one_append, hm]
      · rw [he, hbias]
        rfl

/-! ## Comparing with small whole numbers -/

section Compare

variable {x : Float} {n : Int}

theorem unpack_ofInt_zero : (Float.ofInt 0).toModel.unpack = .zero .positive := by rfl

theorem unpack_ofInt_one :
    (Float.ofInt 1).toModel.unpack = .finite .positive (Nat.pow 2 52) (-52) (by decide) := by rfl

theorem lt_iff {y : Float} : x < y ↔ x.toModel.unpack.compare y.toModel.unpack = some .lt := by
  have hmodel : x < y ↔ decide (x.toModel < y.toModel) = true := Iff.rfl
  rw [hmodel, decide_eq_true_iff]
  change (x.toModel.unpack.compare y.toModel.unpack == some .lt) = true ↔ _
  rw [beq_iff_eq]

theorem beq_iff {y : Float} :
    (x == y) = true ↔ x.toModel.unpack.compare y.toModel.unpack = some .eq := by
  change (x.toModel.unpack.compare y.toModel.unpack == some .eq) = true ↔ _
  rw [beq_iff_eq]

/-- A finite number with a sign is smaller than zero and than all positive numbers. -/
theorem compare_unpacked_negative {d : Dyadic} (hd : 0 < d.mantissa) :
    (unpacked true (.finite d)).compare (.zero .positive) = some .lt ∧
      ∀ (m : Nat) (e : Int) (hm : 0 < m),
        (unpacked true (.finite d)).compare (.finite .positive m e hm) = some .lt := by
  rw [unpacked, dif_pos hd]
  exact ⟨rfl, fun _ _ _ => rfl⟩

theorem compare_of_eq_zero {u : UnpackedFloat} {e : Int} {m : Nat} {hm : 0 < m}
    (h : u.compare (.zero .positive) = some .eq) :
    u.compare (.finite .positive m e hm) = some .lt := by
  cases u with
  | zero sign => rfl
  | notANumber => cases h
  | infinity sign => cases sign <;> cases h
  | finite sign => cases sign <;> cases h

theorem exists_of_floatTruncate? (h : floatTruncate? x = some n) :
    ∃ negative d, x.toModel.unpack = unpacked negative (.finite d) ∧
      (0 ≤ n ∨ negative = true ∧ 0 < d.mantissa) := by
  rw [unpack_toModel]
  unfold floatTruncate? at h
  generalize Dyadic.ofBits x.toBits.toNat = b at h ⊢
  obtain ⟨negative, d | _ | _⟩ := b
  · refine ⟨negative, d, rfl, ?_⟩
    cases negative with
    | false =>
      cases h
      exact .inl (Int.natCast_nonneg _)
    | true =>
      by_cases hd : 0 < d.mantissa
      · exact .inr ⟨rfl, hd⟩
      · have hzero : d.mantissa = 0 := by omega
        simp only [hzero, Nat.zero_mul, Nat.zero_div, ite_self] at h
        cases h
        exact .inl (Int.le_refl 0)
  · cases h
  · cases h

theorem floatTruncate?_nonneg (h : floatTruncate? x = some n) (hx : ¬ x < Float.ofInt 0) :
    0 ≤ n := by
  obtain ⟨negative, d, hd, hn | ⟨rfl, hpos⟩⟩ := exists_of_floatTruncate? h
  · exact hn
  · refine absurd ?_ hx
    rw [lt_iff, unpack_ofInt_zero, hd]
    exact (compare_unpacked_negative hpos).1

/-- A whole number that is not below one is not cut off to a number below one. -/
theorem one_le_of_floatTruncate? (h : floatTruncate? x = some n)
    (hwhole : (x == Float.ofInt n) = true) (hx : ¬ x < Float.ofInt 1) : 1 ≤ n := by
  rw [lt_iff, unpack_ofInt_one] at hx
  obtain ⟨negative, d, hd, hn | ⟨rfl, hpos⟩⟩ := exists_of_floatTruncate? h
  · have hne : n ≠ 0 := by
      rintro rfl
      rw [beq_iff, unpack_ofInt_zero] at hwhole
      exact hx (compare_of_eq_zero hwhole)
    omega
  · rw [hd] at hx
    exact absurd ((compare_unpacked_negative hpos).2 _ _ _) hx

end Compare

end MdxLint
