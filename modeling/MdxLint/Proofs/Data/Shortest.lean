import Mathlib.Tactic.Positivity
import MdxLint.Proofs.Data.Nearest

/-! # The shortest decimal

The decimal that a double precision number is written as lies in the interval of what is read as the
number. One with seventeen digits always does: there the decimals are closer together than the
numbers of double precision.
-/

namespace MdxLint

theorem zpow_mul_pow_toNat {b : ℚ} (hb : b ≠ 0) (e : ℤ) :
    b ^ e * b ^ (-e).toNat = b ^ e.toNat := by
  obtain ⟨n, rfl | rfl⟩ := e.eq_nat_or_neg
  · rw [zpow_natCast, Int.toNat_natCast, show (-(n : ℤ)).toNat = 0 by omega, pow_zero, mul_one]
  · rw [Int.neg_neg, Int.toNat_natCast, zpow_neg, zpow_natCast, inv_mul_cancel₀ (pow_ne_zero n hb),
      show (-(n : ℤ)).toNat = 0 by omega, pow_zero]

theorem cast_natPow (b n : ℕ) : ((Nat.pow b n : ℕ) : ℚ) = (b : ℚ) ^ n := Nat.cast_pow b n

namespace Dyadic

variable {x : Dyadic}

theorem unit_den_pos : 0 < x.unit.2 := by
  unfold unit
  dsimp only
  split
  · exact Nat.one_pos
  · exact Nat.pow_pos two_pos

theorem unit_eq : (x.unit.1 : ℚ) = 2 ^ (x.exponent - 2) * x.unit.2 := by
  have h := zpow_mul_pow_toNat (show (2 : ℚ) ≠ 0 by norm_num) (x.exponent - 2)
  unfold unit
  dsimp only [Nat.pow_eq]
  split
  case isTrue he =>
    rw [show (-(x.exponent - 2)).toNat = 0 by omega, pow_zero, mul_one] at h
    push_cast
    rw [h, mul_one]
  case isFalse he =>
    rw [show (x.exponent - 2).toNat = 0 by omega, pow_zero] at h
    push_cast
    exact h.symm

theorem toRat_eq_quarters : x.toRat = 4 * x.mantissa * 2 ^ (x.exponent - 2) := by
  rw [toRat, two_zpow_eq, two_zpow_eq (x.exponent - 1), sub_sub]
  norm_num
  ring

section Window

variable (hpos : 0 < x.mantissa)

include hpos in
theorem window_low_eq :
    (x.window.1 : ℚ) = (x.toRat - x.below / 2) * x.unit.2 := by
  have hnat : (((4 * x.mantissa - if x.atStep then 1 else 2 : ℕ) : ℕ) : ℚ) =
      4 * x.mantissa - if x.atStep then 1 else 2 := by
    rw [Nat.cast_sub (by split <;> omega)]
    split <;> norm_num
  rw [show x.window.1 = (4 * x.mantissa - if x.atStep then 1 else 2) * x.unit.1 from rfl,
    Nat.cast_mul, hnat, unit_eq, toRat_eq_quarters, below]
  rw [two_zpow_eq x.exponent, two_zpow_eq (x.exponent - 1), sub_sub, one_add_one_eq_two]
  split <;> ring

theorem window_middle_eq : (x.window.2.1 : ℚ) = x.toRat * x.unit.2 := by
  rw [show x.window.2.1 = 4 * x.mantissa * x.unit.1 from rfl, toRat_eq_quarters]
  push_cast
  rw [unit_eq]
  ring

theorem window_high_eq : (x.window.2.2 : ℚ) = (x.toRat + 2 ^ x.exponent / 2) * x.unit.2 := by
  rw [show x.window.2.2 = (4 * x.mantissa + 2) * x.unit.1 from rfl, toRat_eq_quarters,
    two_zpow_eq x.exponent, two_zpow_eq (x.exponent - 1), sub_sub, one_add_one_eq_two]
  push_cast
  rw [unit_eq]
  ring

end Window

/-! ## Decimals on a grid -/

/-- The whole part of a quotient has as many digits as the quotient has in front of the point. -/
theorem length_toDigits_div {a b : ℕ} (hb : 0 < b) (h : b ≤ a) :
    10 ^ ((Nat.toDigits 10 (a / b)).length - 1) * b ≤ a ∧
      a < 10 ^ (Nat.toDigits 10 (a / b)).length * b := by
  have hpos := @Nat.length_toDigits_pos 10 (a / b)
  have htop : a / b < 10 ^ (Nat.toDigits 10 (a / b)).length :=
    (Nat.length_toDigits_le_iff (by decide) hpos).1 le_rfl
  have hbottom : 10 ^ ((Nat.toDigits 10 (a / b)).length - 1) ≤ a / b := by
    obtain hzero | hlt := Nat.eq_zero_or_pos ((Nat.toDigits 10 (a / b)).length - 1)
    · rw [hzero]
      exact Nat.div_pos h hb
    · refine Nat.le_of_not_lt fun hlow => ?_
      have := (Nat.length_toDigits_le_iff (by decide) hlt).2 hlow
      omega
  exact ⟨(Nat.le_div_iff_mul_le hb).1 hbottom, (Nat.div_lt_iff_lt_mul hb).1 htop⟩

theorem two_pow_le_ten_pow : (2 : ℚ) ^ 1074 ≤ 10 ^ 400 :=
  calc (2 : ℚ) ^ 1074 ≤ 2 ^ (13 * 100) := pow_le_pow_right₀ one_le_two (by decide)
    _ = (2 ^ 13) ^ 100 := pow_mul 2 13 100
    _ ≤ (10 ^ 4) ^ 100 := pow_le_pow_left₀ (by norm_num) (by norm_num) 100
    _ = 10 ^ 400 := (pow_mul 10 4 100).symm

/-- The smallest number that is not zero has a digit among the first four hundred. -/
theorem IsDouble.one_le (hx : x.IsDouble) (hpos : 0 < x.mantissa) : 1 ≤ x.toRat * 10 ^ 400 := by
  have hmantissa : (1 : ℚ) ≤ x.mantissa := by exact_mod_cast hpos
  have hexponent : (2 : ℚ) ^ (-1074 : ℤ) ≤ 2 ^ x.exponent :=
    zpow_le_zpow_right₀ one_le_two hx.le_exponent
  have hten : (0 : ℚ) < 10 ^ 400 := pow_pos (by norm_num) 400
  calc (1 : ℚ) = 2 ^ (-1074 : ℤ) * 2 ^ 1074 := by
        rw [← zpow_natCast, ← zpow_add₀ two_ne_zero]
        rfl
    _ ≤ 2 ^ (-1074 : ℤ) * 10 ^ 400 :=
        mul_le_mul_of_nonneg_left two_pow_le_ten_pow (two_zpow_pos _).le
    _ ≤ x.toRat * 10 ^ 400 := by
        refine mul_le_mul_of_nonneg_right ?_ hten.le
        exact hexponent.trans (le_mul_of_one_le_left (two_zpow_pos _).le hmantissa)

theorem length_toDigits_scaled {k : ℕ} (hone : 1 ≤ x.toRat * 10 ^ k) {e : ℤ}
    (he : e = (Nat.toDigits 10 (x.window.2.1 * Nat.pow 10 k / x.unit.2)).length - k) :
    (10 : ℚ) ^ (e - 1) ≤ x.toRat ∧ x.toRat < 10 ^ e := by
  have hden : (0 : ℚ) < x.unit.2 := by exact_mod_cast unit_den_pos
  have hten : (0 : ℚ) < 10 ^ k := pow_pos (by norm_num) k
  obtain ⟨a, ha⟩ : ∃ a, a = x.window.2.1 * Nat.pow 10 k := ⟨_, rfl⟩
  have hscaled : (a : ℚ) = x.toRat * 10 ^ k * x.unit.2 := by
    rw [ha, Nat.cast_mul, window_middle_eq, cast_natPow, Nat.cast_ofNat, mul_right_comm]
  have hle : x.unit.2 ≤ a := by
    have : (x.unit.2 : ℚ) ≤ a := by
      rw [hscaled]
      exact le_mul_of_one_le_left hden.le hone
    exact_mod_cast this
  obtain ⟨hlow, hhigh⟩ := length_toDigits_div unit_den_pos hle
  have hlength := @Nat.length_toDigits_pos 10 (a / x.unit.2)
  rw [he, ← ha]
  generalize (Nat.toDigits 10 (a / x.unit.2)).length = n at hlow hhigh hlength
  have hlow' : ((10 ^ (n - 1) * x.unit.2 : ℕ) : ℚ) ≤ a := by exact_mod_cast hlow
  have hhigh' : (a : ℚ) < (10 ^ n * x.unit.2 : ℕ) := by exact_mod_cast hhigh
  rw [hscaled, Nat.cast_mul, Nat.cast_pow, Nat.cast_ofNat] at hlow' hhigh'
  constructor
  · rw [show (n : ℤ) - k - 1 = ((n - 1 : ℕ) : ℤ) - k by push_cast [hlength]; ring,
      zpow_sub₀ (by norm_num), zpow_natCast, zpow_natCast, div_le_iff₀ hten]
    exact le_of_mul_le_mul_right hlow' hden
  · rw [zpow_sub₀ (by norm_num), zpow_natCast, zpow_natCast, lt_div_iff₀ hten]
    exact lt_of_mul_lt_mul_right hhigh' hden.le

theorem magnitude_eq (x : Dyadic) : x.magnitude =
    ((Nat.toDigits 10 (x.window.2.1 * Nat.pow 10 400 / x.unit.2)).length : ℤ) -
      (400 : ℕ) := rfl

theorem IsDouble.magnitude_spec (hx : x.IsDouble) (hpos : 0 < x.mantissa) :
    (10 : ℚ) ^ (x.magnitude - 1) ≤ x.toRat ∧ x.toRat < 10 ^ x.magnitude := by
  obtain ⟨k, hk⟩ : ∃ k, k = 400 := ⟨_, rfl⟩
  have hone : 1 ≤ x.toRat * 10 ^ k := hk ▸ hx.one_le hpos
  exact length_toDigits_scaled hone (by rw [magnitude_eq, ← hk])

/-- A numerator over the denominator of the unit, and a decimal on a grid, over a common one. -/
theorem scaled_eq {r : ℚ} {a : ℕ} (ha : (a : ℚ) = r * x.unit.2) (c : ℕ) (e : ℤ) :
    ∃ k : ℚ, 0 < k ∧ ((a * Nat.pow 10 (-e).toNat : ℕ) : ℚ) = r * k ∧
      ((c * (x.unit.2 * Nat.pow 10 e.toNat) : ℕ) : ℚ) = c * 10 ^ e * k := by
  have hten := zpow_mul_pow_toNat (show (10 : ℚ) ≠ 0 by norm_num) e
  refine ⟨x.unit.2 * 10 ^ (-e).toNat, ?_, ?_, ?_⟩
  · have hden : (0 : ℚ) < x.unit.2 := by exact_mod_cast unit_den_pos
    positivity
  · rw [Nat.cast_mul, cast_natPow, Nat.cast_ofNat, ha, mul_assoc]
  · rw [Nat.cast_mul, Nat.cast_mul, cast_natPow, Nat.cast_ofNat, ← hten]
    ring

section Grid

variable {r : ℚ} {a : ℕ} (ha : (a : ℚ) = r * x.unit.2) (c : ℕ) (e : ℤ)

include ha

theorem le_grid_iff :
    a * Nat.pow 10 (-e).toNat ≤ c * (x.unit.2 * Nat.pow 10 e.toNat) ↔ r ≤ c * 10 ^ e := by
  obtain ⟨k, hk, h, h'⟩ := scaled_eq ha c e
  rw [← @Nat.cast_le ℚ, h, h', mul_le_mul_iff_left₀ hk]

theorem grid_le_iff :
    c * (x.unit.2 * Nat.pow 10 e.toNat) ≤ a * Nat.pow 10 (-e).toNat ↔ c * 10 ^ e ≤ r := by
  obtain ⟨k, hk, h, h'⟩ := scaled_eq ha c e
  rw [← @Nat.cast_le ℚ, h, h', mul_le_mul_iff_left₀ hk]

theorem lt_grid_iff :
    a * Nat.pow 10 (-e).toNat < c * (x.unit.2 * Nat.pow 10 e.toNat) ↔ r < c * 10 ^ e := by
  rw [← not_le, grid_le_iff ha, not_le]

theorem grid_lt_iff :
    c * (x.unit.2 * Nat.pow 10 e.toNat) < a * Nat.pow 10 (-e).toNat ↔ c * 10 ^ e < r := by
  rw [← not_le, le_grid_iff ha, not_le]

end Grid

def takes (x : Dyadic) (e : ℤ) (c : ℕ) : Bool :=
  let c := c * (x.unit.2 * Nat.pow 10 e.toNat)
  let low := x.window.1 * Nat.pow 10 (-e).toNat
  let high := x.window.2.2 * Nat.pow 10 (-e).toNat
  if x.mantissa % 2 = 0 then low ≤ c && c ≤ high else low < c && c < high

theorem takes_iff (hpos : 0 < x.mantissa) (e : ℤ) (c : ℕ) :
    x.takes e c = true ↔ x.Rounds (c * 10 ^ e) := by
  unfold takes Rounds
  dsimp only
  split
  · rw [Bool.and_eq_true, decide_eq_true_iff, decide_eq_true_iff,
      le_grid_iff (window_low_eq hpos), grid_le_iff window_high_eq]
  · rw [Bool.and_eq_true, decide_eq_true_iff, decide_eq_true_iff,
      lt_grid_iff (window_low_eq hpos), grid_lt_iff window_high_eq]

def floorAt (x : Dyadic) (e : ℤ) : ℕ :=
  x.window.2.1 * Nat.pow 10 (-e).toNat / (x.unit.2 * Nat.pow 10 e.toNat)

theorem floorAt_spec (e : ℤ) :
    x.floorAt e * 10 ^ e ≤ x.toRat ∧ x.toRat < (x.floorAt e + 1 : ℕ) * 10 ^ e := by
  have hgrid : 0 < x.unit.2 * Nat.pow 10 e.toNat :=
    Nat.mul_pos unit_den_pos (Nat.pow_pos (by decide))
  constructor
  · exact (grid_le_iff window_middle_eq _ _).1 (Nat.div_mul_le_self _ _)
  · exact (lt_grid_iff window_middle_eq _ _).1 (Nat.lt_mul_of_div_lt (Nat.lt_succ_self _) hgrid)

theorem withDigits?_eq (x : Dyadic) (n : ℕ) :
    let e := x.magnitude - n
    let c := x.floorAt e
    ∃ (p : Prop) (_ : Decidable p), x.withDigits? n =
      if x.takes e c && x.takes e (c + 1) then some ⟨if p then c else c + 1, e⟩
      else if x.takes e c then some ⟨c, e⟩
      else if x.takes e (c + 1) then some ⟨c + 1, e⟩
      else none := ⟨_, _, rfl⟩

theorem rounds_of_withDigits? (hpos : 0 < x.mantissa) {n : ℕ} {d : Decimal}
    (h : x.withDigits? n = some d) : x.Rounds d.toRat := by
  obtain ⟨p, _, heq⟩ := x.withDigits?_eq n
  rw [heq] at h
  split at h
  case isTrue hboth =>
    obtain ⟨hbelow, habove⟩ := Bool.and_eq_true_iff.1 hboth
    cases h
    rw [Decimal.toRat, ← takes_iff hpos]
    split
    · exact hbelow
    · exact habove
  case isFalse =>
    split at h
    case isTrue hbelow =>
      cases h
      exact (takes_iff hpos _ _).1 hbelow
    case isFalse =>
      split at h
      case isTrue habove =>
        cases h
        exact (takes_iff hpos _ _).1 habove
      case isFalse => cases h

/-- If no decimal is chosen, those on either side of the number lie outside of its interval. -/
theorem not_rounds_of_withDigits? (hpos : 0 < x.mantissa) {n : ℕ} (h : x.withDigits? n = none) :
    ¬ x.Rounds (x.floorAt (x.magnitude - n) * 10 ^ (x.magnitude - n)) ∧
      ¬ x.Rounds ((x.floorAt (x.magnitude - n) + 1 : ℕ) * 10 ^ (x.magnitude - n)) := by
  obtain ⟨p, _, heq⟩ := x.withDigits?_eq n
  rw [heq] at h
  rw [← takes_iff hpos, ← takes_iff hpos]
  split at h
  case isTrue => cases h
  case isFalse =>
    split at h
    case isTrue => cases h
    case isFalse hbelow =>
      split at h
      case isTrue => cases h
      case isFalse habove => exact ⟨hbelow, habove⟩

theorem le_or_le_of_not_rounds {q : ℚ} (h : ¬ x.Rounds q) :
    q ≤ x.toRat - x.below / 2 ∨ x.toRat + 2 ^ x.exponent / 2 ≤ q := by
  unfold Rounds at h
  split at h
  · obtain h | h := not_and_or.1 h
    · exact .inl (not_le.1 h).le
    · exact .inr (not_le.1 h).le
  · obtain h | h := not_and_or.1 h
    · exact .inl (not_lt.1 h)
    · exact .inr (not_lt.1 h)

/-- Decimals with seventeen digits are closer together than double precision numbers. -/
theorem IsDouble.isSome_withDigits?_seventeen (hx : x.IsDouble) (hpos : 0 < x.mantissa) :
    (x.withDigits? 17).isSome = true := by
  rw [Option.isSome_iff_ne_none]
  intro hnone
  obtain ⟨hlow, hhigh⟩ := not_rounds_of_withDigits? hpos hnone
  obtain ⟨hle, hlt⟩ := @floorAt_spec x (x.magnitude - 17)
  have hstep := two_zpow_pos x.exponent
  have hbelow := @below_pos x
  have hgrid : (10 : ℚ) ^ (x.magnitude - 17) * 10 ^ 16 ≤ x.toRat := by
    rw [← zpow_natCast, ← zpow_add₀ (by norm_num)]
    convert (hx.magnitude_spec hpos).1 using 2
    push_cast
    ring
  -- the decimals on either side are apart by more than the interval is wide
  have hwide : 2 ^ x.exponent / 2 + x.below / 2 ≤ (10 : ℚ) ^ (x.magnitude - 17) := by
    have h₁ := (le_or_le_of_not_rounds hlow).resolve_right fun h => by
      push_cast at h
      linarith
    have h₂ := (le_or_le_of_not_rounds hhigh).resolve_left fun h => by
      push_cast at h hlt
      linarith
    push_cast at h₁ h₂
    linarith
  rw [toRat] at hgrid
  unfold below at hwide
  split at hwide
  case isTrue h =>
    rw [(hx.atStep_iff.1 h).1, two_zpow_eq x.exponent] at hgrid
    rw [two_zpow_eq x.exponent] at hwide
    have := two_zpow_pos (x.exponent - 1)
    push_cast at hgrid
    linarith
  case isFalse h =>
    have hm : (x.mantissa : ℚ) ≤ 2 ^ 53 := by exact_mod_cast hx.mantissa_lt.le
    have := mul_le_mul_of_nonneg_right hm hstep.le
    linarith

theorem IsDouble.rounds_shortest (hx : x.IsDouble) (hpos : 0 < x.mantissa) :
    x.Rounds x.shortest.toRat := by
  unfold shortest
  cases hfind : (List.range 17).findSome? fun n => x.withDigits? (n + 1) with
  | some d =>
    obtain ⟨n, -, hd⟩ := List.exists_of_findSome?_eq_some hfind
    exact rounds_of_withDigits? hpos hd
  | none =>
    have := List.findSome?_eq_none_iff.1 hfind 16 (by simp)
    have hsome := hx.isSome_withDigits?_seventeen hpos
    rw [this] at hsome
    cases hsome

theorem IsDouble.digits_shortest_pos (hx : x.IsDouble) (hpos : 0 < x.mantissa) :
    0 < x.shortest.digits := by
  refine Nat.pos_of_ne_zero fun hzero => ?_
  have h := hx.rounds_shortest hpos
  rw [Decimal.toRat, hzero, Nat.cast_zero, zero_mul] at h
  have hstep := two_zpow_pos x.exponent
  have hbelow := @below_le x
  have hone : 1 * 2 ^ x.exponent ≤ x.toRat :=
    mul_le_mul_of_nonneg_right (by exact_mod_cast hpos) hstep.le
  unfold Rounds at h
  split at h
  · linarith [h.1]
  · linarith [h.1]

end Dyadic

end MdxLint
