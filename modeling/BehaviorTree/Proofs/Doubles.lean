import BehaviorTree.Datum
import Mathlib.Algebra.Group.Nat.Defs
import Mathlib.Tactic.SplitIfs

/-!
Whole numbers as floats. A number of at most 64 binary digits is far from where floats end, so the
float nearest to it is finite, and one of at most 53 digits is a float itself.
-/
namespace BehaviorTree

namespace Double

theorem shift_of_nonneg {num den : ℕ} {power : ℤ} (h : 0 ≤ power) :
    shift num den power = (num * Nat.pow 2 power.toNat, den) := if_pos h

theorem shift_of_neg {num den : ℕ} {power : ℤ} (h : ¬ 0 ≤ power) :
    shift num den power = (num, den * Nat.pow 2 (-power).toNat) := if_neg h

/-- The exponent of a whole number is the place of its first binary digit. -/
theorem binaryExponent_one {n : ℕ} (hn : n ≠ 0) : binaryExponent n 1 = n.log2 := by
  have hle : Nat.pow 2 n.log2 ≤ n := Nat.log2_self_le hn
  have hone : Nat.log2 1 = 0 := by decide
  by_cases hlog : 0 ≤ -((n.log2 : ℤ) - (Nat.log2 1 : ℕ))
  · have hpos : ¬ n < 1 := by omega
    have hzero : n.log2 = 0 := by omega
    simp only [binaryExponent, shift_of_nonneg hlog]
    simp [hone, hzero, hn]
  · simp only [binaryExponent, shift_of_neg hlog]
    have hnot : ¬ n < 1 * Nat.pow 2 (- -((n.log2 : ℤ) - (Nat.log2 1 : ℕ))).toNat := by
      simpa [hone] using hle
    rw [if_neg hnot, hone]
    omega

theorem roundHalfEven_le (num den : ℕ) : roundHalfEven num den ≤ num / den + 1 := by
  simp only [roundHalfEven]
  split_ifs <;> omega

/-- What is rounded of a whole number has no more than 53 digits before the point. -/
theorem shift_div_lt {n : ℕ} :
    (shift n 1 (52 - (n.log2 : ℤ))).1 / (shift n 1 (52 - (n.log2 : ℤ))).2 < 2 ^ 53 := by
  have hlt : n < 2 ^ (n.log2 + 1) := Nat.lt_log2_self
  by_cases hpower : 0 ≤ 52 - (n.log2 : ℤ)
  · have hexp : n.log2 + 1 + (52 - (n.log2 : ℤ)).toNat = 53 := by omega
    rw [shift_of_nonneg hpower, Nat.div_one]
    calc n * 2 ^ (52 - (n.log2 : ℤ)).toNat
      _ < 2 ^ (n.log2 + 1) * 2 ^ (52 - (n.log2 : ℤ)).toNat :=
        Nat.mul_lt_mul_of_pos_right hlt (Nat.two_pow_pos _)
      _ = 2 ^ 53 := by rw [← Nat.pow_add, hexp]
  · have hexp : n.log2 + 1 = (-(52 - (n.log2 : ℤ))).toNat + 53 := by omega
    rw [shift_of_neg hpower, Nat.one_mul]
    refine Nat.div_lt_of_lt_mul ?_
    rwa [hexp, Nat.pow_add] at hlt

/-- A number of 64 binary digits does not round to an infinity. -/
theorem roundMagnitude_lt {n : ℕ} (hlt : n < 2 ^ 64) :
    roundMagnitude n 1 < infinityMagnitude := by
  by_cases hn : n = 0
  · simp [roundMagnitude, hn, infinityMagnitude]
  · have hlog : n.log2 < 64 := (Nat.log2_lt hn).mpr hlt
    have hpower : max ((n.log2 : ℤ) - 52) (-1074) = n.log2 - 52 := by omega
    have hneg : -((n.log2 : ℤ) - 52) = 52 - n.log2 := by omega
    have hround := roundHalfEven_le (shift n 1 (52 - (n.log2 : ℤ))).1
      (shift n 1 (52 - (n.log2 : ℤ))).2
    have hdiv := shift_div_lt (n := n)
    simp only [roundMagnitude, if_neg hn, binaryExponent_one hn, hpower, hneg, infinityMagnitude,
      Nat.pow_eq]
    omega

theorem magnitude_ofMagnitude {negative : Bool} {m : ℕ} (hm : m < signBit) :
    (ofMagnitude negative m).magnitude = m := by
  have hword : signBit = 2 ^ 63 := rfl
  rw [hword] at hm
  simp only [ofMagnitude, magnitude, UInt64.toNat_ofNat', hword]
  split_ifs <;> omega

theorem isNegative_ofMagnitude {m : ℕ} (hm : m < signBit) :
    (ofMagnitude false m).isNegative = false := by
  have hword : signBit = 2 ^ 63 := rfl
  rw [hword] at hm
  simp only [ofMagnitude, isNegative, UInt64.toNat_ofNat', hword, decide_eq_false_iff_not]
  simp only [Bool.false_eq_true, if_false]
  omega

/-- Below the magnitude of an infinity all numbers are finite. -/
theorem isFinite_ofMagnitude {negative : Bool} {m : ℕ} (hm : m < infinityMagnitude) :
    (ofMagnitude negative m).isFinite = true := by
  have hsign : infinityMagnitude < signBit := by decide
  rwa [isFinite, magnitude_ofMagnitude (Nat.lt_trans hm hsign), decide_eq_true_eq]

/-- A whole number of at most 53 digits fills the significand from its first digit on. -/
theorem roundMagnitude_of_lt {n : ℕ} (hn : n ≠ 0) (hlt : n < 2 ^ 53) :
    roundMagnitude n 1 = (n.log2 + 1022) * 2 ^ 52 + n * 2 ^ (52 - n.log2) := by
  have hlog : n.log2 < 53 := (Nat.log2_lt hn).mpr hlt
  have hpower : max ((n.log2 : ℤ) - 52) (-1074) = n.log2 - 52 := by omega
  have hneg : -((n.log2 : ℤ) - 52) = 52 - n.log2 := by omega
  have hshift : shift n 1 (52 - (n.log2 : ℤ)) = (n * 2 ^ (52 - n.log2), 1) := by
    have hexp : (52 - (n.log2 : ℤ)).toNat = 52 - n.log2 := by omega
    rw [shift_of_nonneg (by omega), hexp]
    rfl
  have hround : roundHalfEven (n * 2 ^ (52 - n.log2)) 1 = n * 2 ^ (52 - n.log2) := by
    simp [roundHalfEven, Nat.mod_one]
  have hbiased : ((n.log2 : ℤ) - 52 + 1074).toNat = n.log2 + 1022 := by omega
  have hfinite := roundMagnitude_lt (Nat.lt_trans hlt (by decide : 2 ^ 53 < 2 ^ 64))
  simp only [roundMagnitude, if_neg hn, binaryExponent_one hn, hpower, hneg, hshift, hround,
    hbiased, Nat.pow_eq] at hfinite ⊢
  omega

/-- The digits that fill the significand, and the place of the last one. -/
theorem fraction_of_digits {exponent digits : ℕ} (hlow : 2 ^ 52 ≤ digits)
    (hhigh : digits < 2 ^ 53) :
    fraction ((exponent + 1022) * 2 ^ 52 + digits) = shift digits 1 ((exponent : ℤ) - 52) := by
  have hnormal : ¬ (exponent + 1022) * 2 ^ 52 + digits < Nat.pow 2 53 := by
    rw [Nat.pow_eq]
    omega
  have hmod : ((exponent + 1022) * 2 ^ 52 + digits) % 2 ^ 52 + 2 ^ 52 = digits := by omega
  have hdiv : ((exponent + 1022) * 2 ^ 52 + digits) / 2 ^ 52 = exponent + 1023 := by omega
  have hquantum : ((exponent + 1023 : ℕ) : ℤ) - 1075 = exponent - 52 := by omega
  rw [fraction, significand, quantum, if_neg hnormal, if_neg hnormal, Nat.pow_eq, hmod, hdiv,
    hquantum]

/-- The float of a whole number of at most 53 digits is that number. -/
theorem exists_fraction_ofNat {n : ℕ} (hlt : n < 2 ^ 53) :
    ∃ den, 0 < den ∧ fraction (roundMagnitude n 1) = (n * den, den) := by
  by_cases hn : n = 0
  · subst hn
    have hzero : fraction (roundMagnitude 0 1) = shift 0 1 (-1074) := rfl
    obtain ⟨power, hpower⟩ : ∃ power, shift 0 1 (-1074) = (0, 1 * Nat.pow 2 power) :=
      ⟨_, shift_of_neg (by omega)⟩
    have hden : 0 < 1 * Nat.pow 2 power := Nat.mul_pos Nat.one_pos (Nat.two_pow_pos power)
    exact ⟨_, hden, by rw [hzero, hpower, Nat.zero_mul]⟩
  have hlog : n.log2 < 53 := (Nat.log2_lt hn).mpr hlt
  have hsum : n.log2 + (52 - n.log2) = 52 := by omega
  have hlow : 2 ^ 52 ≤ n * 2 ^ (52 - n.log2) := by
    calc 2 ^ 52
      _ = 2 ^ n.log2 * 2 ^ (52 - n.log2) := by rw [← Nat.pow_add, hsum]
      _ ≤ n * 2 ^ (52 - n.log2) := Nat.mul_le_mul_right _ (Nat.log2_self_le hn)
  have hhigh : n * 2 ^ (52 - n.log2) < 2 ^ 53 := by
    calc n * 2 ^ (52 - n.log2)
      _ < 2 ^ (n.log2 + 1) * 2 ^ (52 - n.log2) :=
        Nat.mul_lt_mul_of_pos_right Nat.lt_log2_self (Nat.two_pow_pos _)
      _ = 2 ^ 53 := by rw [← Nat.pow_add, Nat.add_right_comm, hsum]
  rw [roundMagnitude_of_lt hn hlt, fraction_of_digits hlow hhigh]
  by_cases htop : n.log2 = 52
  · refine ⟨1, Nat.one_pos, ?_⟩
    simp [htop, shift]
  · have hneg : ¬ (0 : ℤ) ≤ (n.log2 : ℤ) - 52 := by omega
    have hexp : (-((n.log2 : ℤ) - 52)).toNat = 52 - n.log2 := by omega
    refine ⟨2 ^ (52 - n.log2), Nat.two_pow_pos _, ?_⟩
    rw [shift_of_neg hneg, hexp, Nat.one_mul]
    rfl

section

variable {n : ℕ} (hlt : n < 2 ^ 53)
include hlt

theorem isFinite_ofNat : (ofNat n).isFinite = true :=
  isFinite_ofMagnitude (roundMagnitude_lt (Nat.lt_trans hlt (by decide)))

theorem magnitude_ofNat : (ofNat n).magnitude = roundMagnitude n 1 := by
  have hfinite := roundMagnitude_lt (Nat.lt_trans hlt (by decide : 2 ^ 53 < 2 ^ 64))
  exact magnitude_ofMagnitude (Nat.lt_trans hfinite (by decide))

theorem isWhole_ofNat : (ofNat n).isWhole = true := by
  obtain ⟨den, hden, hfraction⟩ := exists_fraction_ofNat hlt
  simp [isWhole, isFinite_ofNat hlt, magnitude_ofNat hlt, hfraction]

theorem truncate_ofNat : (ofNat n).truncate = n := by
  obtain ⟨den, hden, hfraction⟩ := exists_fraction_ofNat hlt
  have hfinite := roundMagnitude_lt (Nat.lt_trans hlt (by decide : 2 ^ 53 < 2 ^ 64))
  have hpositive : (ofNat n).isNegative = false :=
    isNegative_ofMagnitude (Nat.lt_trans hfinite (by decide))
  simp [truncate, hpositive, isFinite_ofNat hlt, magnitude_ofNat hlt, hfraction,
    Nat.mul_div_cancel _ hden]

end

end Double

end BehaviorTree
