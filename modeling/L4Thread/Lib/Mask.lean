import Mathlib.Algebra.Order.Ring.Nat
import Mathlib.Tactic.Common

/-!
# Masks of words

`low w n` has the `n` lowest bits set. Words that are masked with it, or with its complement, are
remainders and multiples of `2 ^ n`.
-/

namespace Mask

variable {w m n : Nat} {x : BitVec w}

def low (w n : Nat) : BitVec w := BitVec.ofNat w (2 ^ n - 1)

theorem toNat_low (h : n ≤ w) : (low w n).toNat = 2 ^ n - 1 := by
  have hpow : 2 ^ n ≤ 2 ^ w := Nat.pow_le_pow_right (by decide) h
  have hpos := Nat.two_pow_pos n
  rw [low, BitVec.toNat_ofNat, Nat.mod_eq_of_lt (by omega)]

theorem getLsbD_low (h : n ≤ w) (i : Nat) : (low w n).getLsbD i = decide (i < n) := by
  rw [BitVec.getLsbD, toNat_low h, Nat.testBit_two_pow_sub_one]

/-- The mask that a shift of the word of ones makes. -/
theorem allOnes_ushiftRight (h : n ≤ w) : BitVec.allOnes w >>> (w - n) = low w n := by
  apply BitVec.eq_of_getLsbD_eq
  intro i hi
  rw [getLsbD_low h, BitVec.getLsbD_ushiftRight, BitVec.getLsbD_allOnes, decide_eq_decide]
  omega

/-- The mask that a shift of one makes. -/
theorem one_shiftLeft_sub_one (h : n < w) : (1 : BitVec w) <<< n - 1 = low w n := by
  apply BitVec.eq_of_toNat_eq
  have hpow : 2 ^ n < 2 ^ w := Nat.pow_lt_pow_right (by decide) h
  have hw : 1 < 2 ^ w := Nat.one_lt_two_pow (by omega)
  have hpos := Nat.two_pow_pos n
  have hone : (1 : BitVec w).toNat = 1 := Nat.mod_eq_of_lt hw
  have hshift : ((1 : BitVec w) <<< n).toNat = 2 ^ n := by
    rw [BitVec.toNat_shiftLeft, hone, Nat.shiftLeft_eq, Nat.one_mul, Nat.mod_eq_of_lt hpow]
  have hle : (1 : BitVec w) ≤ (1 : BitVec w) <<< n := by
    rw [BitVec.le_def, hshift, hone]
    exact hpos
  rw [BitVec.toNat_sub_of_le hle, hshift, hone, toNat_low (Nat.le_of_lt h)]

theorem toNat_and_low (h : n ≤ w) : (x &&& low w n).toNat = x.toNat % 2 ^ n := by
  rw [BitVec.toNat_and, toNat_low h, Nat.and_two_pow_sub_one_eq_mod]

theorem and_not_low (h : n ≤ w) : x &&& ~~~low w n = x >>> n <<< n := by
  apply BitVec.eq_of_getLsbD_eq
  intro i hi
  rw [BitVec.getLsbD_and, BitVec.getLsbD_not, getLsbD_low h, BitVec.getLsbD_shiftLeft,
    BitVec.getLsbD_ushiftRight]
  by_cases hin : i < n
  · simp [hin]
  · have hsum : n + (i - n) = i := by omega
    simp [hin, hi, hsum]

theorem toNat_and_not_low (h : n ≤ w) : (x &&& ~~~low w n).toNat = x.toNat / 2 ^ n * 2 ^ n := by
  rw [and_not_low h, BitVec.toNat_shiftLeft, BitVec.toNat_ushiftRight, Nat.shiftRight_eq_div_pow,
    Nat.shiftLeft_eq]
  exact Nat.mod_eq_of_lt (Nat.lt_of_le_of_lt (Nat.div_mul_le_self _ _) x.isLt)

/-- The bits between `m` and `n`. -/
theorem toNat_and_between (hm : m ≤ w) (hn : n ≤ w) :
    (x &&& (low w n &&& ~~~low w m)).toNat = x.toNat % 2 ^ n / 2 ^ m * 2 ^ m := by
  rw [← BitVec.and_assoc, toNat_and_not_low hm, toNat_and_low hn]

/-- A word without low bits has none between 0 and `m`. -/
theorem and_not_between (hm : m ≤ w) (hx : 2 ^ m ∣ x.toNat) :
    x &&& ~~~(low w n &&& ~~~low w m) = x &&& ~~~low w n := by
  have hlow : x &&& low w m = 0#w := by
    apply BitVec.eq_of_toNat_eq
    rw [toNat_and_low hm, Nat.mod_eq_zero_of_dvd hx, BitVec.toNat_ofNat, Nat.zero_mod]
  rw [BitVec.not_and, BitVec.not_not, BitVec.and_or_distrib_left, hlow, BitVec.or_zero]

end Mask
