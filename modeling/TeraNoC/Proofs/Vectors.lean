import TeraNoC.Kernels.Cmatmul

/-!
# Vectors of two halfwords

What the vector instructions do to the halfwords, and the integers that they stand for.
-/

namespace TeraNoC.Kernels

section Lanes

variable {x y z : V2s} {a b : BitVec 16}

/-- The value of a halfword. -/
def laneInt (x : V2s) (i : Nat) : Int := (lane x i).toInt

theorem lane_append_one : lane (a ++ b) 1 = a := BitVec.extractLsb'_append_eq_left

theorem lane_append_zero : lane (a ++ b) 0 = b := BitVec.extractLsb'_append_eq_right

theorem lane_addH {i : Nat} (hi : i < 2) : lane (addH x y) i = lane x i + lane y i := by
  obtain rfl | rfl : i = 0 ∨ i = 1 := by omega
  · exact lane_append_zero
  · exact lane_append_one

theorem laneInt_range (i : Nat) : -2 ^ 15 ≤ laneInt x i ∧ laneInt x i < 2 ^ 15 :=
  ⟨BitVec.le_toInt _, BitVec.toInt_lt⟩

end Lanes

section Products

variable {x y z : V2s}

theorem extractH_eq (i : Nat) : extractH x i = BitVec.ofInt 32 (laneInt x i) := by
  refine BitVec.eq_of_toInt_eq ?_
  rw [extractH, BitVec.toInt_signExtend_of_le (by decide), BitVec.toInt_ofInt, ← laneInt]
  have := laneInt_range (x := x) i
  exact (Int.bmod_eq_of_le (by omega) (by omega)).symm

theorem dotspH_eq : dotspH x y =
    BitVec.ofInt 32 (laneInt x 1 * laneInt y 1 + laneInt x 0 * laneInt y 0) := by
  rw [dotspH, extractH_eq, extractH_eq, extractH_eq, extractH_eq, ← BitVec.ofInt_mul,
    ← BitVec.ofInt_mul, ← BitVec.ofInt_add]

theorem toInt_ofInt32 {v : Int} (hlo : -2 ^ 31 ≤ v) (hhi : v < 2 ^ 31) :
    (BitVec.ofInt 32 v).toInt = v := by
  rw [BitVec.toInt_ofInt]
  exact Int.bmod_eq_of_le (by omega) (by omega)

theorem lane_ofInt (v : Int) : lane (BitVec.ofInt 32 v) 0 = BitVec.ofInt 16 v := by
  refine BitVec.eq_of_toNat_eq ?_
  rw [lane, BitVec.extractLsb'_toNat, BitVec.toNat_ofInt, BitVec.toNat_ofInt]
  have : (v % 2 ^ 32).toNat % 2 ^ 16 = (v % 2 ^ 16).toNat := by omega
  exact this

theorem packH_ofInt (v w : Int) :
    packH (BitVec.ofInt 32 v) (BitVec.ofInt 32 w) = BitVec.ofInt 16 v ++ BitVec.ofInt 16 w := by
  rw [packH, lane_ofInt, lane_ofInt]

theorem sshiftRight_ofInt {v : Int} (hlo : -2 ^ 31 ≤ v) (hhi : v < 2 ^ 31) (n : Nat) :
    (BitVec.ofInt 32 v).sshiftRight n = BitVec.ofInt 32 (v / 2 ^ n) := by
  rw [BitVec.sshiftRight, toInt_ofInt32 hlo hhi, Int.shiftRight_eq_div_pow]
  rfl

end Products

end TeraNoC.Kernels
