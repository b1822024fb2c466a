import Mathlib.Data.Nat.Basic
import Mathlib.Tactic.Ring

/-!
# Division by shifting and subtracting

The divisor is aligned to the dividend first and moved down a bit in each turn. What a
turn keeps is that the dividend is the quotient so far, in units of the divisor where it
stands, and a remainder below that divisor (`Dividing`).
-/

namespace TeraNoC.Lib

/-- `a` is divided by `b`, which stands `n` bits up: `q` is the quotient so far and `r`
what is left. -/
structure Dividing (a b n q r : Nat) : Prop where
  eq : a = q * (b * 2 ^ n) + r
  lt : r < b * 2 ^ n

namespace Dividing

variable {a b n q r : Nat}

theorem start (h : a < b * 2 ^ n) : Dividing a b n 0 a := ⟨by rw [Nat.zero_mul, Nat.zero_add], h⟩

theorem take (h : Dividing a b (n + 1) q r) (hle : b * 2 ^ n ≤ r) :
    Dividing a b n (2 * q + 1) (r - b * 2 ^ n) := by
  have hdouble : b * 2 ^ (n + 1) = 2 * (b * 2 ^ n) := by ring
  have heq := h.eq
  have hlt := h.lt
  rw [hdouble] at heq hlt
  have hturn : (2 * q + 1) * (b * 2 ^ n) = q * (2 * (b * 2 ^ n)) + b * 2 ^ n := by ring
  exact ⟨by omega, by omega⟩

theorem skip (h : Dividing a b (n + 1) q r) (hlt : r < b * 2 ^ n) :
    Dividing a b n (2 * q) r := by
  have hdouble : q * (b * 2 ^ (n + 1)) = 2 * q * (b * 2 ^ n) := by ring
  exact ⟨hdouble ▸ h.eq, hlt⟩

/-- At the divisor's own place the division is done. -/
theorem done (h : Dividing a b 0 q r) : q = a / b ∧ r = a % b := by
  have heq := h.eq
  have hlt := h.lt
  rw [Nat.pow_zero, Nat.mul_one] at heq hlt
  have hpos : 0 < b := Nat.lt_of_le_of_lt (Nat.zero_le r) hlt
  rw [heq, Nat.add_comm, Nat.add_mul_div_right _ _ hpos, Nat.add_mul_mod_self_right,
    Nat.div_eq_of_lt hlt, Nat.mod_eq_of_lt hlt, Nat.zero_add]
  exact ⟨rfl, rfl⟩

end Dividing

end TeraNoC.Lib
