import Mathlib.Tactic.Common
import Mathlib.Algebra.Order.Ring.Nat

/-!
# Big-endian bytes

The number that a list of bytes stands for, most significant byte first. Two words that are shifted
against each other make up the number of the bytes in between.
-/

namespace Bytes

variable {bs xs ys : List (BitVec 8)} {k m n w : Nat}

def bigEndian : List (BitVec 8) → Nat
  | [] => 0
  | b :: bs => b.toNat * 256 ^ bs.length + bigEndian bs

theorem bigEndian_lt (bs : List (BitVec 8)) : bigEndian bs < 256 ^ bs.length := by
  induction bs with
  | nil => exact Nat.one_pos
  | cons b bs ih =>
    have hb : b.toNat + 1 ≤ 256 := b.isLt
    have hmul := Nat.mul_le_mul_right (256 ^ bs.length) hb
    rw [Nat.succ_mul] at hmul
    rw [bigEndian, List.length_cons, Nat.pow_succ, Nat.mul_comm _ 256]
    omega

theorem bigEndian_append (xs ys : List (BitVec 8)) :
    bigEndian (xs ++ ys) = bigEndian xs * 256 ^ ys.length + bigEndian ys := by
  induction xs with
  | nil => rw [List.nil_append, bigEndian, Nat.zero_mul, Nat.zero_add]
  | cons x xs ih =>
    rw [List.cons_append, bigEndian, bigEndian, ih, List.length_append, Nat.pow_add, Nat.add_mul,
      Nat.mul_assoc, Nat.add_assoc]

theorem bigEndian_take (bs : List (BitVec 8)) (n : Nat) :
    bigEndian (bs.take n) = bigEndian bs / 256 ^ (bs.drop n).length := by
  have hlt := bigEndian_lt (bs.drop n)
  have happ := bigEndian_append (bs.take n) (bs.drop n)
  rw [List.take_append_drop] at happ
  rw [happ, Nat.mul_comm, Nat.mul_add_div (Nat.pow_pos (by decide)), Nat.div_eq_of_lt hlt,
    Nat.add_zero]

theorem bigEndian_drop (bs : List (BitVec 8)) (n : Nat) :
    bigEndian (bs.drop n) = bigEndian bs % 256 ^ (bs.drop n).length := by
  have hlt := bigEndian_lt (bs.drop n)
  have happ := bigEndian_append (bs.take n) (bs.drop n)
  rw [List.take_append_drop] at happ
  rw [happ, Nat.mul_comm, Nat.mul_add_mod, Nat.mod_eq_of_lt hlt]

theorem pow_eq (n : Nat) : 256 ^ n = 2 ^ (8 * n) := by rw [Nat.pow_mul]

/-- The word of some bytes. -/
def word (w : Nat) (bs : List (BitVec 8)) : BitVec w := BitVec.ofNat w (bigEndian bs)

theorem toNat_word (h : 8 * bs.length ≤ w) : (word w bs).toNat = bigEndian bs := by
  have hlt := bigEndian_lt bs
  rw [pow_eq] at hlt
  rw [word, BitVec.toNat_ofNat]
  exact Nat.mod_eq_of_lt (hlt.trans_le (Nat.pow_le_pow_right (by decide) h))

/-- The bytes from place `k` of two words that follow each other. -/
theorem word_splice (hxs : xs.length = m) (hys : ys.length = m) (hw : 8 * m = w) (hk : k ≤ m) :
    word w xs <<< (8 * k) ||| word w ys >>> (8 * (m - k)) = word w (xs.drop k ++ ys.take k) := by
  have hdrop : (xs.drop k).length = m - k := by rw [List.length_drop, hxs]
  have htake : (ys.take k).length = k := by rw [List.length_take, hys, Nat.min_eq_left hk]
  have hhigh : (word w xs <<< (8 * k)).toNat = 2 ^ (8 * k) * bigEndian (xs.drop k) := by
    have hpow : 2 ^ w = 2 ^ (8 * k) * 2 ^ (8 * (m - k)) := by
      rw [← Nat.pow_add]
      congr 1
      omega
    rw [BitVec.toNat_shiftLeft, toNat_word (by omega), Nat.shiftLeft_eq, Nat.mul_comm, hpow,
      Nat.mul_mod_mul_left, bigEndian_drop, hdrop, pow_eq]
  have hlow : (word w ys >>> (8 * (m - k))).toNat = bigEndian (ys.take k) := by
    rw [BitVec.toNat_ushiftRight, toNat_word (by omega), Nat.shiftRight_eq_div_pow, bigEndian_take,
      List.length_drop, hys, pow_eq]
  have hlt := bigEndian_lt (ys.take k)
  rw [htake, pow_eq] at hlt
  apply BitVec.eq_of_toNat_eq
  rw [BitVec.toNat_or, hhigh, hlow, ← Nat.two_pow_add_eq_or_of_lt hlt, toNat_word, bigEndian_append,
    htake, pow_eq, Nat.mul_comm]
  rw [List.length_append, hdrop, htake]
  omega

end Bytes
