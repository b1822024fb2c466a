import Mathlib.Data.BitVec

/-!
# Computing on wider registers

A value of `w` bits can be computed on in a register of `n` bits, where it stands sign-
or zero-extended, and cut back to `w` bits afterwards. These are the operations for
which that makes no difference, and the comparisons that see the same order.
-/

namespace TeraNoC.Lib

variable {w n m : Nat}

/-! ## Cutting an extension -/

theorem setWidth_signExtend_of_le (h : m ≤ n) (x : BitVec w) :
    (x.signExtend n).setWidth m = x.signExtend m := by
  apply BitVec.eq_of_getLsbD_eq
  intro i hi
  have hn : i < n := by omega
  rw [BitVec.getLsbD_setWidth, BitVec.getLsbD_signExtend, BitVec.getLsbD_signExtend]
  simp [hi, hn]

theorem setWidth_signExtend (h : w ≤ n) (x : BitVec w) : (x.signExtend n).setWidth w = x := by
  rw [setWidth_signExtend_of_le h, BitVec.signExtend_eq]

theorem setWidth_extend (h : w ≤ n) (x : BitVec w) : (x.setWidth n).setWidth w = x := by
  rw [BitVec.setWidth_setWidth_of_le _ h, BitVec.setWidth_eq]

theorem setWidth_sub (h : w ≤ n) (x y : BitVec n) :
    (x - y).setWidth w = x.setWidth w - y.setWidth w := by
  rw [BitVec.sub_eq_add_neg, BitVec.setWidth_add _ _ h, BitVec.setWidth_neg_of_le h,
    ← BitVec.sub_eq_add_neg]

/-! ## Extending twice -/

theorem signExtend_signExtend (hw : w ≤ n) (hn : n ≤ m) (x : BitVec w) :
    (x.signExtend n).signExtend m = x.signExtend m := by
  apply BitVec.eq_of_toInt_eq
  rw [BitVec.toInt_signExtend_of_le hn, BitVec.toInt_signExtend_of_le hw,
    BitVec.toInt_signExtend_of_le (hw.trans hn)]

/-- A zero-extended value is not negative. -/
theorem toInt_extend (h : w < n) (x : BitVec w) : (x.setWidth n).toInt = x.toNat := by
  rw [BitVec.toInt_eq_toNat_of_lt, BitVec.toNat_setWidth_of_le h.le]
  rw [BitVec.toNat_setWidth_of_le h.le]
  have hx := x.isLt
  have hpow : 2 ^ (w + 1) ≤ 2 ^ n := Nat.pow_le_pow_right (by omega) h
  rw [Nat.pow_succ] at hpow
  omega

theorem signExtend_extend (hw : w < n) (hn : n ≤ m) (x : BitVec w) :
    (x.setWidth n).signExtend m = x.setWidth m := by
  apply BitVec.eq_of_toInt_eq
  rw [BitVec.toInt_signExtend_of_le hn, toInt_extend hw, toInt_extend (hw.trans_le hn)]

/-! ## Comparisons -/

theorem sle_signExtend (h : w ≤ n) (x y : BitVec w) :
    (x.signExtend n).sle (y.signExtend n) = x.sle y := by
  rw [BitVec.sle_eq_decide, BitVec.sle_eq_decide, BitVec.toInt_signExtend_of_le h,
    BitVec.toInt_signExtend_of_le h]

theorem slt_signExtend (h : w ≤ n) (x y : BitVec w) :
    (x.signExtend n).slt (y.signExtend n) = x.slt y := by
  rw [BitVec.slt_eq_decide, BitVec.slt_eq_decide, BitVec.toInt_signExtend_of_le h,
    BitVec.toInt_signExtend_of_le h]

theorem ule_extend (h : w ≤ n) (x y : BitVec w) :
    (x.setWidth n).ule (y.setWidth n) = x.ule y := by
  rw [BitVec.ule_eq_decide, BitVec.ule_eq_decide, BitVec.toNat_setWidth_of_le h,
    BitVec.toNat_setWidth_of_le h]

theorem ult_extend (h : w ≤ n) (x y : BitVec w) :
    (x.setWidth n).ult (y.setWidth n) = x.ult y := by
  rw [BitVec.ult_eq_decide, BitVec.ult_eq_decide, BitVec.toNat_setWidth_of_le h,
    BitVec.toNat_setWidth_of_le h]

/-- The signed order of zero-extended values is their unsigned order. -/
theorem sle_extend (h : w < n) (x y : BitVec w) :
    (x.setWidth n).sle (y.setWidth n) = x.ule y := by
  rw [BitVec.sle_eq_decide, BitVec.ule_eq_decide, toInt_extend h, toInt_extend h]
  simp

theorem slt_extend (h : w < n) (x y : BitVec w) :
    (x.setWidth n).slt (y.setWidth n) = x.ult y := by
  rw [BitVec.slt_eq_decide, BitVec.ult_eq_decide, toInt_extend h, toInt_extend h]
  simp

/-- The order of sign-extended values as unsigned numbers is that of the values. -/
theorem ule_signExtend (h : w ≤ n) (x y : BitVec w) :
    (x.signExtend n).ule (y.signExtend n) = x.ule y := by
  have hpow : 2 ^ w ≤ 2 ^ n := Nat.pow_le_pow_right (by omega) h
  have hx := x.isLt
  have hy := y.isLt
  rw [BitVec.ule_eq_decide, BitVec.ule_eq_decide, BitVec.toNat_signExtend,
    BitVec.toNat_signExtend, BitVec.toNat_setWidth_of_le h, BitVec.toNat_setWidth_of_le h]
  cases hmx : x.msb <;> cases hmy : y.msb
  · simp
  · have hlow := BitVec.msb_eq_false_iff_two_mul_lt.mp hmx
    have hhigh := BitVec.msb_eq_true_iff_two_mul_ge.mp hmy
    simp only [Bool.false_eq_true, if_false, if_true, decide_eq_decide]
    omega
  · have hhigh := BitVec.msb_eq_true_iff_two_mul_ge.mp hmx
    have hlow := BitVec.msb_eq_false_iff_two_mul_lt.mp hmy
    simp only [Bool.false_eq_true, if_false, if_true, decide_eq_decide]
    omega
  · simp

theorem ult_signExtend (h : w ≤ n) (x y : BitVec w) :
    (x.signExtend n).ult (y.signExtend n) = x.ult y := by
  have hle := ule_signExtend h y x
  rw [BitVec.ule_eq_not_ult, BitVec.ule_eq_not_ult] at hle
  exact Bool.not_inj hle

/-! ## Shifts -/

theorem shiftLeft_extend (h : w ≤ n) (x : BitVec w) (k : Nat) :
    (x.setWidth n <<< k).setWidth w = x <<< k := by
  rw [BitVec.setWidth_shiftLeft_of_le h, setWidth_extend h]

theorem shiftRight_extend (h : w ≤ n) (x : BitVec w) (k : Nat) :
    (x.setWidth n >>> k).setWidth w = x >>> k := by
  apply BitVec.eq_of_getLsbD_eq
  intro i hi
  rw [BitVec.getLsbD_setWidth, BitVec.getLsbD_ushiftRight, BitVec.getLsbD_setWidth,
    BitVec.getLsbD_ushiftRight]
  by_cases hk : k + i < w
  · have hn : k + i < n := by omega
    simp [hi, hn]
  · simp [BitVec.getLsbD_of_ge x (k + i) (by omega)]

theorem sshiftRight_signExtend (h : w ≤ n) (x : BitVec w) (k : Nat) :
    (x.signExtend n).sshiftRight k = (x.sshiftRight k).signExtend n := by
  apply BitVec.eq_of_toInt_eq
  rw [BitVec.toInt_sshiftRight, BitVec.toInt_signExtend_of_le h,
    BitVec.toInt_signExtend_of_le h, BitVec.toInt_sshiftRight]

/-! ## An extension as the bits in front -/

theorem sign_append (k : Nat) (x : BitVec w) :
    (if x.msb then BitVec.allOnes k else 0#k) ++ x = x.signExtend (k + w) := by
  apply BitVec.eq_of_getLsbD_eq
  intro j hj
  rw [BitVec.getLsbD_append, BitVec.getLsbD_signExtend]
  by_cases hw : j < w
  · simp [hw, hj]
  · cases x.msb
    · simp [hw]
    · have hk : j - w < k := by omega
      simp [hw, hj, hk]

theorem zero_append (k : Nat) (x : BitVec w) : 0#k ++ x = x.setWidth (k + w) := by
  apply BitVec.eq_of_getLsbD_eq
  intro j hj
  rw [BitVec.getLsbD_append, BitVec.getLsbD_setWidth]
  by_cases hw : j < w
  · simp [hw, hj]
  · simp [hw, BitVec.getLsbD_of_ge x j (by omega)]

end TeraNoC.Lib
