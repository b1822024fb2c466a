import Mathlib.Algebra.BigOperators.Group.Finset.Basic
import Mathlib.Data.Nat.Count
import Mathlib.Logic.Function.Basic

/-!
# Counting the members of a team

How many of the members `0 .. n - 1` are in a state with a given property, and how
that number changes when one member moves.
-/

namespace TeraNoC.Lib

variable {β : Type} {p : β → Bool} {f g : Nat → β} {i n : Nat} {v : β}

def tally (p : β → Bool) (f : Nat → β) (n : Nat) : Nat := Nat.count (fun k => p (f k) = true) n

theorem tally_succ : tally p f (n + 1) = tally p f n + (p (f n)).toNat := by
  rw [tally, Nat.count_succ, ← tally]
  cases p (f n) <;> rfl

theorem tally_congr (h : ∀ k < n, f k = g k) : tally p f n = tally p g n := by
  induction n with
  | zero => rfl
  | succ n ih =>
      rw [tally_succ, tally_succ, h n (by omega), ih fun k hk => h k (by omega)]

theorem tally_update (p : β → Bool) (f : Nat → β) (v : β) (hi : i < n) :
    tally p (Function.update f i v) n + (p (f i)).toNat = tally p f n + (p v).toNat := by
  induction n with
  | zero => omega
  | succ n ih =>
      rw [tally_succ, tally_succ]
      by_cases hin : i = n
      · rw [← hin, Function.update_self,
          tally_congr fun k hk => Function.update_of_ne (show k ≠ i by omega) v f]
        omega
      · rw [Function.update_of_ne (Ne.symm hin)]
        have := ih (by omega)
        omega

theorem tally_update_eq (hi : i < n) (h : p v = p (f i)) :
    tally p (Function.update f i v) n = tally p f n := by
  have := tally_update p f v hi
  rw [h] at this
  omega

theorem tally_le : tally p f n ≤ n := Nat.count_le _

theorem tally_eq_zero : tally p f n = 0 ↔ ∀ k < n, p (f k) = false := by
  rw [tally, Nat.count_iff_forall_not]
  simp only [Bool.not_eq_true]

theorem tally_eq_all : tally p f n = n ↔ ∀ k < n, p (f k) = true := Nat.count_iff_forall

theorem tally_lt (hi : i < n) (h : p (f i) = false) : tally p f n < n := by
  refine lt_of_le_of_ne tally_le fun hall => ?_
  rw [tally_eq_all.mp hall i hi] at h
  cases h

/-- A sum whose terms change at one place. -/
theorem sum_update {ι β : Type} [DecidableEq ι] {l : Finset ι} {x : ι} (hx : x ∈ l)
    (g : ι → β → Nat) (f : ι → β) (v : β) :
    ∑ y ∈ l, g y (Function.update f x v y) + g x (f x) = ∑ y ∈ l, g y (f y) + g x v := by
  have hrest : ∑ y ∈ l.erase x, g y (Function.update f x v y) = ∑ y ∈ l.erase x, g y (f y) :=
    Finset.sum_congr rfl fun y hy => by rw [Function.update_of_ne (Finset.ne_of_mem_erase hy)]
  rw [← Finset.add_sum_erase l _ hx, ← Finset.add_sum_erase l _ hx, Function.update_self, hrest]
  omega

end TeraNoC.Lib
