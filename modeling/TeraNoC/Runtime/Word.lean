import Mathlib.Data.Nat.Bitwise

/-!
# `uint32_t` and `int`

An unsigned number of the runtime is a natural number below `2 ^ 32`, a signed one an
integer; every operation that can leave the range says so with `u32` or `i32`.
-/

namespace TeraNoC.Runtime

def u32 (x : Nat) : Nat := x % 2 ^ 32

/-- `a - b` of two `uint32_t`. -/
def sub32 (a b : Nat) : Nat := u32 (a + 2 ^ 32 - b)

/-- A value stored to an `int`. -/
def i32 (x : Int) : Int := Int.bmod x (2 ^ 32)

/-- `~a`. -/
def not32 (a : Nat) : Nat := 2 ^ 32 - 1 - a

theorem u32_eq {a : Nat} (ha : a < 2 ^ 32) : u32 a = a := Nat.mod_eq_of_lt ha

theorem sub32_eq {a d : Nat} (hd : d ≤ a) (ha : a < 2 ^ 32) : sub32 a d = a - d := by
  rw [sub32, u32, Nat.sub_add_comm hd, Nat.add_mod_right, Nat.mod_eq_of_lt (by omega)]

theorem i32_eq {x : Int} (hlo : -2 ^ 31 ≤ x) (hhi : x < 2 ^ 31) : i32 x = x :=
  Int.bmod_eq_of_le (by omega) (by omega)

theorem i32_add (x y : Int) : i32 (i32 x + y) = i32 (x + y) := Int.bmod_add_bmod

end TeraNoC.Runtime
