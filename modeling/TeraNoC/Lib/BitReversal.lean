import Mathlib.Data.Nat.Bitwise

/-!
# Bit reversal

The reversal of the `k` lowest bits is a permutation of the numbers below `2 ^ k`, and its own
inverse.
-/

namespace TeraNoC.Lib

/-- The `k` lowest bits in reverse order. -/
def bitReversed : Nat → Nat → Nat
  | 0, _ => 0
  | k + 1, x => 2 ^ k * (x % 2) + bitReversed k (x / 2)

section Reversal

variable {k x y : Nat}

theorem bitReversed_lt (k x : Nat) : bitReversed k x < 2 ^ k := by
  induction k generalizing x with
  | zero => exact Nat.one_pos
  | succ k ih =>
      have hrest := ih (x / 2)
      have hbit := Nat.mul_le_mul_left (2 ^ k) (show x % 2 ≤ 1 by omega)
      rw [bitReversed, Nat.pow_succ]
      omega

/-- Bit `j` comes from the other end. -/
theorem testBit_bitReversed (k x j : Nat) :
    (bitReversed k x).testBit j = (decide (j < k) && x.testBit (k - 1 - j)) := by
  induction k generalizing x j with
  | zero => rw [bitReversed, Nat.zero_testBit, decide_eq_false (Nat.not_lt_zero j), Bool.false_and]
  | succ k ih =>
      rw [bitReversed, Nat.testBit_two_pow_mul_add _ (bitReversed_lt k (x / 2)), ih]
      by_cases hj : j < k
      · have hindex : k + 1 - 1 - j = k - 1 - j + 1 := by omega
        rw [if_pos hj, decide_eq_true hj, decide_eq_true (Nat.lt_succ_of_lt hj), hindex,
          Nat.testBit_succ]
      · rw [if_neg hj]
        by_cases htop : j = k
        · subst htop
          rw [Nat.sub_self, Nat.add_sub_cancel, Nat.sub_self, decide_eq_true (Nat.lt_succ_self j),
            Nat.testBit_zero, Nat.testBit_zero, Nat.mod_mod, Bool.true_and]
        · have hbit : x % 2 < 2 ^ (j - k) :=
            (Nat.mod_lt x (by decide)).trans_le (Nat.le_self_pow (by omega) 2)
          rw [Nat.testBit_lt_two_pow hbit, decide_eq_false (by omega), Bool.false_and]

theorem bitReversed_bitReversed (hx : x < 2 ^ k) : bitReversed k (bitReversed k x) = x := by
  refine Nat.eq_of_testBit_eq fun j => ?_
  rw [testBit_bitReversed, testBit_bitReversed]
  by_cases hj : j < k
  · rw [decide_eq_true hj, decide_eq_true (show k - 1 - j < k by omega), Bool.true_and,
      Bool.true_and, show k - 1 - (k - 1 - j) = j by omega]
  · rw [decide_eq_false hj, Bool.false_and, Nat.testBit_lt_two_pow (hx.trans_le
      (Nat.pow_le_pow_right (by decide) (Nat.le_of_not_lt hj)))]

theorem bitReversed_inj (hx : x < 2 ^ k) (hy : y < 2 ^ k)
    (h : bitReversed k x = bitReversed k y) : x = y := by
  rw [← bitReversed_bitReversed hx, h, bitReversed_bitReversed hy]

end Reversal

end TeraNoC.Lib
