import Mathlib.Algebra.BigOperators.Intervals
import Mathlib.Algebra.BigOperators.Fin

/-!
# Triangular recurrences

The factor of a matrix and the solutions of its triangular systems, in any arithmetic: the
product, the quotient and the root are parameters, and need not be exact. What a column of
the factor, or an element of a solution, is computed from has been computed before it.
-/

namespace TeraNoC.Lib

section Triangular

variable {α : Type} [AddCommGroup α] (mul div : α → α → α) (root : α → α)
  (A L : Nat → Nat → α) (y : Nat → α)

/-- The first columns of the factor. -/
def choleskyColumns : Nat → Nat → Nat → α
  | 0 => fun _ _ => 0
  | j + 1 => fun i k =>
    let L := choleskyColumns j
    let diag := root (A j j - ∑ k ∈ Finset.range j, mul (L j k) (L j k))
    if k ≠ j then L i k
    else if i = j then diag
    else div (A i j - ∑ k ∈ Finset.range j, mul (L i k) (L j k)) diag

/-- The factor `L` of `A = L Lᵀ`. -/
def cholesky (i j : Nat) : α := choleskyColumns mul div root A (j + 1) i j

theorem choleskyColumns_eq {i j k : Nat} (h : k < j) :
    choleskyColumns mul div root A j i k = cholesky mul div root A i k := by
  induction j with
  | zero => exact absurd h (Nat.not_lt_zero k)
  | succ j ih =>
      rcases Nat.lt_succ_iff_lt_or_eq.mp h with hlt | rfl
      · rw [← ih hlt, choleskyColumns]
        exact if_pos hlt.ne
      · rfl

theorem cholesky_diag (j : Nat) : cholesky mul div root A j j =
    root (A j j - ∑ k ∈ Finset.range j,
      mul (cholesky mul div root A j k) (cholesky mul div root A j k)) := by
  rw [cholesky, choleskyColumns]
  dsimp only
  rw [if_neg (not_not_intro rfl), if_pos rfl]
  congr 2
  refine Finset.sum_congr rfl fun k hk => ?_
  rw [choleskyColumns_eq mul div root A (Finset.mem_range.mp hk)]

theorem cholesky_below {i j : Nat} (h : i ≠ j) : cholesky mul div root A i j =
    div (A i j - ∑ k ∈ Finset.range j,
      mul (cholesky mul div root A i k) (cholesky mul div root A j k))
      (cholesky mul div root A j j) := by
  rw [cholesky_diag, cholesky, choleskyColumns]
  dsimp only
  rw [if_neg (not_not_intro rfl), if_neg h]
  have hsum (i' : Nat) : ∑ k ∈ Finset.range j,
      mul (choleskyColumns mul div root A j i' k) (choleskyColumns mul div root A j j k) =
        ∑ k ∈ Finset.range j,
          mul (cholesky mul div root A i' k) (cholesky mul div root A j k) := by
    refine Finset.sum_congr rfl fun k hk => ?_
    rw [choleskyColumns_eq mul div root A (Finset.mem_range.mp hk),
      choleskyColumns_eq mul div root A (Finset.mem_range.mp hk)]
  rw [hsum i, hsum j]

/-- The first elements of the solution of `L x = y`. -/
def forwardPart : Nat → Nat → α
  | 0 => fun _ => 0
  | i + 1 => fun k =>
    let x := forwardPart i
    if k ≠ i then x k else div (y i - ∑ j ∈ Finset.range i, mul (x j) (L i j)) (L i i)

/-- The solution of `L x = y`. -/
def forward (i : Nat) : α := forwardPart mul div L y (i + 1) i

theorem forwardPart_eq {i k : Nat} (h : k < i) :
    forwardPart mul div L y i k = forward mul div L y k := by
  induction i with
  | zero => exact absurd h (Nat.not_lt_zero k)
  | succ i ih =>
      rcases Nat.lt_succ_iff_lt_or_eq.mp h with hlt | rfl
      · rw [← ih hlt, forwardPart]
        exact if_pos hlt.ne
      · rfl

theorem forward_eq (i : Nat) : forward mul div L y i =
    div (y i - ∑ j ∈ Finset.range i, mul (forward mul div L y j) (L i j)) (L i i) := by
  rw [forward, forwardPart]
  dsimp only
  rw [if_neg (not_not_intro rfl)]
  congr 2
  refine Finset.sum_congr rfl fun j hj => ?_
  rw [forwardPart_eq mul div L y (Finset.mem_range.mp hj)]

/-- The solution of `Lᵀ x = y` for a matrix of order `n`: from the last element on. -/
def backward (n i : Nat) : α :=
  forward mul div (fun a b => L (n - 1 - b) (n - 1 - a)) (fun a => y (n - 1 - a)) (n - 1 - i)

/-- The elements after `i`, from the last one on. -/
theorem sum_after {n i : Nat} (hi : i < n) (f : Nat → α) :
    ∑ t ∈ Finset.range (n - 1 - i), f (n - 1 - t) = ∑ j ∈ Finset.Ico (i + 1) n, f j := by
  have hmap : Finset.Ico (i + 1) n = Finset.Ico (n - (n - 1 - i)) n := by congr 1; omega
  rw [hmap, Finset.sum_Ico_eq_sum_range, ← Finset.sum_range_reflect]
  have hlen : n - (n - (n - 1 - i)) = n - 1 - i := by omega
  rw [hlen]
  refine Finset.sum_congr rfl fun t ht => ?_
  have ht := Finset.mem_range.mp ht
  congr 1
  omega

theorem backward_eq {n i : Nat} (hi : i < n) : backward mul div L y n i =
    div (y i - ∑ j ∈ Finset.Ico (i + 1) n, mul (backward mul div L y n j) (L j i)) (L i i) := by
  rw [backward, forward_eq, ← sum_after hi]
  have hrow : n - 1 - (n - 1 - i) = i := by omega
  rw [hrow]
  congr 2
  refine Finset.sum_congr rfl fun t ht => ?_
  have ht := Finset.mem_range.mp ht
  have hback : n - 1 - (n - 1 - t) = t := by omega
  rw [backward, hback]

end Triangular

end TeraNoC.Lib
