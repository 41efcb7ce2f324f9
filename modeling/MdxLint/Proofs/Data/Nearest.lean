import Mathlib.Algebra.Order.Field.Power
import Mathlib.Algebra.Order.Ring.Rat
import Mathlib.Data.Rat.Cast.Order
import Mathlib.Tactic.FieldSimp
import Mathlib.Tactic.Linarith
import Mathlib.Tactic.NormNum
import Mathlib.Tactic.Ring
import MdxLint.Data.Decimal

/-! # The nearest double

A number is read as the double precision number next to it. Around each of these lies an interval
of numbers that are read as it: it reaches half way to its neighbours, and its ends belong to it if
its mantissa is even.
-/

namespace MdxLint

def Decimal.toRat (d : Decimal) : ℚ := d.digits * 10 ^ d.exponent

namespace Dyadic

/-- The number that a mantissa and an exponent make. -/
def toRat (x : Dyadic) : ℚ := x.mantissa * 2 ^ x.exponent

/-- The magnitude of a double precision number. -/
structure IsDouble (x : Dyadic) : Prop where
  mantissa_lt : x.mantissa < 2 ^ 53
  le_exponent : -1074 ≤ x.exponent
  exponent_le : x.exponent ≤ 971
  normal : 2 ^ 52 ≤ x.mantissa ∨ x.exponent = -1074
  atStep_iff : x.atStep = true ↔ x.mantissa = 2 ^ 52 ∧ -1074 < x.exponent

theorem isDouble_subnormal {fraction : ℕ} (h : fraction < 2 ^ 52) :
    IsDouble ⟨fraction, -1074, false⟩ where
  mantissa_lt := h.trans (by decide)
  le_exponent := le_rfl
  exponent_le := show (-1074 : ℤ) ≤ 971 by decide
  normal := .inr rfl
  atStep_iff := by simp

theorem isDouble_normal {fraction exponent : ℕ} (h : fraction < 2 ^ 52) (hpos : 0 < exponent)
    (hlt : exponent < 2047) :
    IsDouble ⟨fraction + Nat.pow 2 52, exponent - 1075, fraction = 0 && exponent > 1⟩ where
  mantissa_lt := show fraction + 2 ^ 52 < 2 ^ 53 by omega
  le_exponent := show (-1074 : ℤ) ≤ exponent - 1075 by omega
  exponent_le := show (exponent - 1075 : ℤ) ≤ 971 by omega
  normal := .inl (Nat.le_add_left _ _)
  atStep_iff := by
    simp only [Nat.pow_eq, Bool.and_eq_true, decide_eq_true_iff]
    omega

theorem isDouble_of_ofBits {bits : ℕ} {negative : Bool} {x : Dyadic}
    (h : ofBits bits = (negative, .finite x)) : x.IsDouble := by
  have hfraction : bits % Nat.pow 2 52 < 2 ^ 52 := Nat.mod_lt _ (by decide)
  have hexponent : bits / Nat.pow 2 52 % Nat.pow 2 11 < 2 ^ 11 := Nat.mod_lt _ (by decide)
  replace h := congrArg Prod.snd h
  unfold ofBits at h
  dsimp only at h
  by_cases hall : bits / Nat.pow 2 52 % Nat.pow 2 11 = 2047
  · rw [if_pos hall] at h
    by_cases hnone : bits % Nat.pow 2 52 = 0
    · rw [if_pos hnone] at h
      cases h
    · rw [if_neg hnone] at h
      cases h
  · rw [if_neg hall] at h
    by_cases hsmall : bits / Nat.pow 2 52 % Nat.pow 2 11 = 0
    · rw [if_pos hsmall] at h
      cases h
      exact isDouble_subnormal hfraction
    · rw [if_neg hsmall] at h
      cases h
      exact isDouble_normal hfraction (by omega) (by omega)

/-- No other number of the same precision is nearer to `q`, and if one is equally near then the
mantissa of `x` is even. The exponent of the others has no upper bound: what is nearer to a number
that is too large than to any double precision number is nearest to none of these. -/
def IsNearest (x : Dyadic) (q : ℚ) : Prop :=
  ∀ (m : ℕ) (e : ℤ), m < 2 ^ 53 → -1074 ≤ e → (m * 2 ^ e : ℚ) ≠ x.toRat →
    |q - x.toRat| < |q - m * 2 ^ e| ∨ |q - x.toRat| = |q - m * 2 ^ e| ∧ x.mantissa % 2 = 0

def below (x : Dyadic) : ℚ := if x.atStep then 2 ^ (x.exponent - 1) else 2 ^ x.exponent

def Rounds (x : Dyadic) (q : ℚ) : Prop :=
  if x.mantissa % 2 = 0 then x.toRat - x.below / 2 ≤ q ∧ q ≤ x.toRat + 2 ^ x.exponent / 2
  else x.toRat - x.below / 2 < q ∧ q < x.toRat + 2 ^ x.exponent / 2

variable {x : Dyadic} {q : ℚ}

theorem two_zpow_pos (e : ℤ) : (0 : ℚ) < 2 ^ e := zpow_pos two_pos e

theorem two_zpow_eq (e : ℤ) : (2 : ℚ) ^ e = 2 * 2 ^ (e - 1) := by
  rw [← zpow_one_add₀ two_ne_zero, add_sub_cancel]

theorem toRat_nonneg (x : Dyadic) : 0 ≤ x.toRat :=
  mul_nonneg x.mantissa.cast_nonneg (two_zpow_pos _).le

theorem below_pos : 0 < x.below := by
  unfold below
  split
  · exact two_zpow_pos _
  · exact two_zpow_pos _

theorem below_le : x.below ≤ 2 ^ x.exponent := by
  unfold below
  split
  · exact zpow_le_zpow_right₀ one_le_two (by omega)
  · exact le_rfl

theorem isNearest_toRat (x : Dyadic) : x.IsNearest x.toRat := by
  intro m e _ _ hne
  left
  rw [sub_self, abs_zero]
  exact abs_pos.2 (sub_ne_zero.2 hne.symm)

theorem IsDouble.gap (hx : x.IsDouble) {m : ℕ} {e : ℤ} (hm : m < 2 ^ 53) (he : -1074 ≤ e)
    (hne : (m * 2 ^ e : ℚ) ≠ x.toRat) :
    (m * 2 ^ e : ℚ) ≤ x.toRat - x.below ∨ x.toRat + 2 ^ x.exponent ≤ m * 2 ^ e := by
  have hpos := two_zpow_pos x.exponent
  by_cases hle : x.exponent ≤ e
  · -- a multiple of the last place of `x`
    obtain ⟨k, rfl⟩ : ∃ k : ℕ, e = x.exponent + k := ⟨(e - x.exponent).toNat, by omega⟩
    have hgrid : (m * 2 ^ (x.exponent + k) : ℚ) = (m * 2 ^ k : ℕ) * 2 ^ x.exponent := by
      rw [zpow_add₀ two_ne_zero, zpow_natCast]
      push_cast
      ring
    have hbelow := @below_le x
    rw [hgrid, toRat] at hne ⊢
    obtain h | h | h := lt_trichotomy (m * 2 ^ k) x.mantissa
    · left
      have hcast : ((m * 2 ^ k : ℕ) : ℚ) + 1 ≤ x.mantissa := by exact_mod_cast h
      nlinarith
    · exact absurd (by rw [h]) hne
    · right
      have hcast : (x.mantissa : ℚ) + 1 ≤ (m * 2 ^ k : ℕ) := by exact_mod_cast h
      nlinarith
  · -- finer than the last place of `x`, and so below all numbers with that last place
    left
    have hnormal : 2 ^ 52 ≤ x.mantissa := hx.normal.resolve_right (by omega)
    have hfine : (2 : ℚ) ^ e ≤ 2 ^ (x.exponent - 1) := zpow_le_zpow_right₀ one_le_two (by omega)
    have hhalf := two_zpow_pos (x.exponent - 1)
    have hm' : (m : ℚ) ≤ 2 ^ 53 - 1 := by
      have : m + 1 ≤ 2 ^ 53 := hm
      have : ((m + 1 : ℕ) : ℚ) ≤ (2 ^ 53 : ℕ) := by exact_mod_cast this
      push_cast at this
      linarith
    have hy : (m * 2 ^ e : ℚ) ≤ (2 ^ 53 - 1) * 2 ^ (x.exponent - 1) :=
      mul_le_mul hm' hfine (two_zpow_pos e).le (by norm_num)
    rw [toRat, below, two_zpow_eq x.exponent]
    split
    case isTrue hstep =>
      rw [(hx.atStep_iff.1 hstep).1]
      push_cast
      linarith
    case isFalse hstep =>
      have hnot : x.mantissa ≠ 2 ^ 52 := fun h => hstep (hx.atStep_iff.2 ⟨h, by omega⟩)
      have hmantissa : (2 ^ 52 + 1 : ℚ) ≤ x.mantissa := by
        have : 2 ^ 52 + 1 ≤ x.mantissa := by omega
        exact_mod_cast this
      nlinarith

theorem IsDouble.isNearest_of_rounds (hx : x.IsDouble) (hq : x.Rounds q) : x.IsNearest q := by
  intro m e hm he hne
  have hpos := two_zpow_pos x.exponent
  have hbelow := @below_pos x
  have hgap := hx.gap hm he hne
  unfold Rounds at hq
  split at hq
  case isTrue heven =>
    have hle : |q - x.toRat| ≤ |q - m * 2 ^ e| := by
      obtain h | h := hgap <;> obtain h₁ | h₁ := abs_cases (q - x.toRat) <;>
        obtain h₂ | h₂ := abs_cases (q - m * 2 ^ e) <;> linarith
    exact hle.lt_or_eq.imp_right fun h => ⟨h, heven⟩
  case isFalse =>
    left
    obtain h | h := hgap <;> obtain h₁ | h₁ := abs_cases (q - x.toRat) <;>
      obtain h₂ | h₂ := abs_cases (q - m * 2 ^ e) <;> linarith

end Dyadic

end MdxLint
