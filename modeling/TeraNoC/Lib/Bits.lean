import Mathlib.Data.Nat.Bitwise
import Mathlib.Data.Nat.Log
import Mathlib.Data.Nat.ModEq
import Mathlib.Tactic.Ring

/-!
# Bit fields of natural numbers

Address decoding is written with part-selects whose bounds are parameters, so
the fields are read off natural numbers here rather than off fixed-width
vectors. `slice x lo w` is the read `x[lo +: w]`, `splice x lo w v` the write
of the same field. Everything about the two is proved once, bit by bit: the
two `testBit` lemmas say which bit goes where, and every interaction between
a read and a write is a case split on the bit index.

`clog2` and `idxWidth` are the two width functions such code computes its
bounds with: the ceiling logarithm, and the width of an index into `n`
elements, which is never zero.
-/

namespace TeraNoC.Lib

/-- `$clog2`: the ceiling of the base-two logarithm, zero at zero and one. -/
def clog2 (n : Nat) : Nat := Nat.clog 2 n

/-- Bits of an index into `n` elements; one bit even for a single element. -/
def idxWidth (n : Nat) : Nat := if n > 1 then clog2 n else 1

/-- The field `x[lo +: w]`. -/
def slice (x lo w : Nat) : Nat := x / 2 ^ lo % 2 ^ w

/-- `x` with the field `[lo +: w]` overwritten by the low bits of `v`. -/
def splice (x lo w v : Nat) : Nat :=
  2 ^ lo * (2 ^ w * (x / 2 ^ (lo + w)) + v % 2 ^ w) + x % 2 ^ lo

/-- The concatenation of `hi` over a `w`-bit `lo`. -/
def concat (hi lo w : Nat) : Nat := 2 ^ w * hi + lo

@[simp] theorem clog2_pow (k : Nat) : clog2 (2 ^ k) = k := by
  rw [clog2]
  exact Nat.clog_pow 2 k (by omega)

@[simp] theorem clog2_one : clog2 1 = 0 := clog2_pow 0

theorem clog2_le_of_le_pow {n k : Nat} (h : n ≤ 2 ^ k) : clog2 n ≤ k :=
  Nat.clog_le_of_le_pow h

/-- The bit below a power of two: `$clog2(2^e - 1)` is `e`, but not for two. -/
theorem clog2_pow_sub_one {e : Nat} (he : e ≠ 1) : clog2 (2 ^ e - 1) = e := by
  cases e with
  | zero => rw [Nat.pow_zero, Nat.sub_self, clog2, Nat.clog_zero_right]
  | succ e =>
      have hpos : 1 < 2 ^ e := Nat.one_lt_two_pow (by omega)
      have hlow : 2 ^ e < 2 ^ (e + 1) - 1 := by rw [Nat.pow_succ]; omega
      refine Nat.le_antisymm (clog2_le_of_le_pow (by omega)) ?_
      exact (Nat.lt_clog_iff_pow_lt (by omega)).mpr hlow

theorem idxWidth_pow {k : Nat} (hk : k ≠ 0) : idxWidth (2 ^ k) = k := by
  have h1 : 1 < 2 ^ k := Nat.one_lt_two_pow hk
  rw [idxWidth, if_pos h1, clog2_pow]

theorem le_pow_idxWidth (n : Nat) : n ≤ 2 ^ idxWidth n := by
  by_cases h : 1 < n
  · rw [idxWidth, if_pos h]
    exact Nat.le_pow_clog (by omega) n
  · rw [idxWidth, if_neg (by omega)]
    omega

/-! ## Bit by bit -/

theorem testBit_slice (x lo w i : Nat) :
    (slice x lo w).testBit i = (decide (i < w) && x.testBit (lo + i)) := by
  rw [slice, Nat.testBit_mod_two_pow, Nat.testBit_div_two_pow, Nat.add_comm i lo]

theorem testBit_splice (x lo w v i : Nat) :
    (splice x lo w v).testBit i =
      if lo ≤ i ∧ i < lo + w then v.testBit (i - lo) else x.testBit i := by
  rw [splice, Nat.testBit_two_pow_mul_add _ (Nat.mod_lt _ (Nat.two_pow_pos lo))]
  by_cases hlo : i < lo
  · rw [if_pos hlo, if_neg (by omega), Nat.testBit_mod_two_pow]
    simp [hlo]
  · rw [if_neg hlo, Nat.testBit_two_pow_mul_add _
      (Nat.mod_lt _ (Nat.two_pow_pos w))]
    by_cases hw : i - lo < w
    · rw [if_pos hw, if_pos (by omega), Nat.testBit_mod_two_pow]
      simp [hw]
    · rw [if_neg hw, if_neg (by omega), Nat.testBit_div_two_pow]
      congr 1
      omega

theorem testBit_concat {hi lo w : Nat} (hlo : lo < 2 ^ w) (i : Nat) :
    (concat hi lo w).testBit i =
      if i < w then lo.testBit i else hi.testBit (i - w) := by
  rw [concat, Nat.testBit_two_pow_mul_add _ hlo]

theorem testBit_of_lt {x n i : Nat} (hx : x < 2 ^ n) (hi : n ≤ i) :
    x.testBit i = false :=
  Nat.testBit_lt_two_pow (Nat.lt_of_lt_of_le hx (Nat.pow_le_pow_right (by omega) hi))

/-! ## Reads -/

theorem slice_lt (x lo w : Nat) : slice x lo w < 2 ^ w :=
  Nat.mod_lt _ (Nat.two_pow_pos w)

@[simp] theorem slice_zero_width (x lo : Nat) : slice x lo 0 = 0 := by
  rw [slice, Nat.pow_zero, Nat.mod_one]

/-- A field of a field. -/
theorem slice_slice {x lo w lo' w' : Nat} (h : lo' + w' ≤ w) :
    slice (slice x lo w) lo' w' = slice x (lo + lo') w' := by
  refine Nat.eq_of_testBit_eq fun i => ?_
  rw [testBit_slice, testBit_slice, testBit_slice]
  by_cases hi : i < w'
  · rw [Nat.add_assoc lo lo' i]
    simp [hi, show lo' + i < w by omega]
  · simp [hi]

/-- A field that covers the whole number is the number. -/
theorem slice_eq_self {x w : Nat} (h : x < 2 ^ w) : slice x 0 w = x := by
  rw [slice, Nat.pow_zero, Nat.div_one, Nat.mod_eq_of_lt h]

/-- Reading a field of a concatenation that lies in its upper part. -/
theorem slice_concat_hi {hi lo w lo' w' : Nat} (hlo : lo < 2 ^ w) (h : w ≤ lo') :
    slice (concat hi lo w) lo' w' = slice hi (lo' - w) w' := by
  refine Nat.eq_of_testBit_eq fun i => ?_
  rw [testBit_slice, testBit_slice, testBit_concat hlo]
  by_cases hi' : i < w'
  · rw [if_neg (by omega), show lo' + i - w = lo' - w + i by omega]
  · simp [hi']

/-- Reading a field of a concatenation that lies in its lower part. -/
theorem slice_concat_lo {hi lo w lo' w' : Nat} (hlo : lo < 2 ^ w)
    (h : lo' + w' ≤ w) : slice (concat hi lo w) lo' w' = slice lo lo' w' := by
  refine Nat.eq_of_testBit_eq fun i => ?_
  rw [testBit_slice, testBit_slice, testBit_concat hlo]
  by_cases hi' : i < w'
  · rw [if_pos (by omega)]
  · simp [hi']

theorem concat_lt {hi lo w n : Nat} (hlo : lo < 2 ^ w) (hhi : hi < 2 ^ n) :
    concat hi lo w < 2 ^ (w + n) := by
  have h : 2 ^ w * (hi + 1) ≤ 2 ^ w * 2 ^ n := Nat.mul_le_mul_left _ hhi
  rw [Nat.mul_succ] at h
  rw [concat, Nat.pow_add]
  omega

/-- Rounding down to a multiple of `2 ^ m` clears the bits below `m`. -/
theorem testBit_roundDown (x m i : Nat) :
    (x - x % 2 ^ m).testBit i = (decide (m ≤ i) && x.testBit i) := by
  have hval : x - x % 2 ^ m = 2 ^ m * (x / 2 ^ m) := by
    have := Nat.div_add_mod x (2 ^ m)
    omega
  rw [hval, Nat.testBit_two_pow_mul]
  by_cases hi : m ≤ i
  · simp [hi, Nat.testBit_div_two_pow, Nat.sub_add_cancel hi]
  · simp [hi]

theorem slice_roundDown {x m lo w : Nat} (h : m ≤ lo) :
    slice (x - x % 2 ^ m) lo w = slice x lo w := by
  refine Nat.eq_of_testBit_eq fun i => ?_
  rw [testBit_slice, testBit_slice, testBit_roundDown]
  simp [show m ≤ lo + i by omega]

/-- Two adjacent fields, put back together. -/
theorem concat_slice (x lo w w' : Nat) :
    concat (slice x (lo + w) w') (slice x lo w) w = slice x lo (w + w') := by
  refine Nat.eq_of_testBit_eq fun i => ?_
  rw [testBit_concat (slice_lt _ _ _), testBit_slice, testBit_slice, testBit_slice]
  by_cases hi : i < w
  · rw [if_pos hi]
    simp [hi, show i < w + w' by omega]
  · rw [if_neg hi, show lo + w + (i - w) = lo + i by omega]
    congr 1
    exact decide_eq_decide.mpr (by omega)

theorem concat_assoc (a b d w w' : Nat) :
    concat (concat a b w) d w' = concat a (concat b d w') (w + w') := by
  simp only [concat, Nat.pow_add]
  ring

theorem concat_zero_hi (lo w : Nat) : concat 0 lo w = lo := by
  rw [concat, Nat.mul_zero, Nat.zero_add]

theorem concat_div {hi lo w : Nat} (h : lo < 2 ^ w) : concat hi lo w / 2 ^ w = hi := by
  rw [concat, Nat.mul_add_div (Nat.two_pow_pos w), Nat.div_eq_of_lt h, Nat.add_zero]

theorem concat_mod {hi lo w : Nat} (h : lo < 2 ^ w) : concat hi lo w % 2 ^ w = lo := by
  rw [concat, Nat.mul_add_mod, Nat.mod_eq_of_lt h]

/-- A field that reaches past the top of the number loses nothing there. -/
theorem slice_eq_of_lt {x lo w w' : Nat} (h : x < 2 ^ (lo + w)) (hw : w ≤ w') :
    slice x lo w' = slice x lo w := by
  have hdiv : x / 2 ^ lo < 2 ^ w := by
    rw [Nat.div_lt_iff_lt_mul (Nat.two_pow_pos lo), ← Nat.pow_add, Nat.add_comm]
    exact h
  rw [slice, slice, Nat.mod_eq_of_lt hdiv,
    Nat.mod_eq_of_lt (Nat.lt_of_lt_of_le hdiv (Nat.pow_le_pow_right (by omega) hw))]

/-- The concatenation determines both of its parts. -/
theorem concat_inj {hi lo hi' lo' w : Nat} (h : lo < 2 ^ w) (h' : lo' < 2 ^ w)
    (heq : concat hi lo w = concat hi' lo' w) : hi = hi' ∧ lo = lo' := by
  constructor
  · rw [← @concat_div hi lo w h, heq, concat_div h']
  · rw [← @concat_mod hi lo w h, heq, concat_mod h']

/-! ## Reads after a write -/

theorem splice_lt {x lo w v n : Nat} (hx : x < 2 ^ n) (h : lo + w ≤ n) :
    splice x lo w v < 2 ^ n := by
  refine Nat.lt_pow_two_of_testBit _ fun i hi => ?_
  rw [testBit_splice, if_neg (by omega)]
  exact testBit_of_lt hx hi

/-- A field that does not meet the one written reads as before. -/
theorem slice_splice_of_disjoint {x lo w v lo' w' : Nat}
    (h : lo' + w' ≤ lo ∨ lo + w ≤ lo') :
    slice (splice x lo w v) lo' w' = slice x lo' w' := by
  refine Nat.eq_of_testBit_eq fun i => ?_
  rw [testBit_slice, testBit_slice, testBit_splice]
  by_cases hi : i < w'
  · rw [if_neg (by omega)]
  · simp [hi]

/-- A field inside the one written reads back what was written. -/
theorem slice_splice_of_inside {x lo w v lo' w' : Nat} (hlo : lo ≤ lo')
    (h : lo' + w' ≤ lo + w) :
    slice (splice x lo w v) lo' w' = slice v (lo' - lo) w' := by
  refine Nat.eq_of_testBit_eq fun i => ?_
  rw [testBit_slice, testBit_slice, testBit_splice]
  by_cases hi : i < w'
  · rw [if_pos (by omega), show lo' + i - lo = lo' - lo + i by omega]
  · simp [hi]

/-- Writing back what is there changes nothing. -/
theorem splice_self {x lo w : Nat} : splice x lo w (slice x lo w) = x := by
  refine Nat.eq_of_testBit_eq fun i => ?_
  rw [testBit_splice]
  split
  · rename_i h
    rw [testBit_slice, show lo + (i - lo) = i by omega]
    simp [show i - lo < w by omega]
  · rfl

/-- Equal low parts and equal high parts make equal numbers. -/
theorem eq_of_slices {x y n m : Nat} (hx : x < 2 ^ (n + m)) (hy : y < 2 ^ (n + m))
    (hlo : slice x 0 n = slice y 0 n) (hhi : slice x n m = slice y n m) : x = y := by
  have hsplit : ∀ z, z < 2 ^ (n + m) → concat (slice z n m) (slice z 0 n) n = z := by
    intro z hz
    have := concat_slice z 0 n m
    rw [Nat.zero_add] at this
    rw [this, slice_eq_self hz]
  rw [← hsplit x hx, ← hsplit y hy, hlo, hhi]

/-! ## Address masks -/

/-- Bit `i` of the mask that clears the low `n` of `w` bits. -/
theorem testBit_highMask {n w i : Nat} (h : n ≤ w) :
    (2 ^ w - 2 ^ n).testBit i = (decide (n ≤ i) && decide (i < w)) := by
  have hval : 2 ^ w - 2 ^ n = (2 ^ (w - n) - 1) <<< n := by
    rw [Nat.shiftLeft_eq, Nat.sub_mul, ← Nat.pow_add, Nat.one_mul,
      Nat.sub_add_cancel h]
  rw [hval, Nat.testBit_shiftLeft, Nat.testBit_two_pow_sub_one]
  by_cases hn : n ≤ i
  · simp only [hn, decide_true, Bool.true_and]
    exact decide_eq_decide.mpr (by omega)
  · simp [hn]

/-! ## Rotations -/

/-- Moving by a fixed distance on a circle of `m` places is injective. -/
theorem add_mod_inj {m x y d : Nat} (hx : x < m) (hy : y < m)
    (h : (x + d) % m = (y + d) % m) : x = y := by
  have h' : x ≡ y [MOD m] := Nat.ModEq.add_right_cancel' d h
  rw [Nat.ModEq, Nat.mod_eq_of_lt hx, Nat.mod_eq_of_lt hy] at h'
  exact h'

end TeraNoC.Lib
