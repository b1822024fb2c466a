import Mathlib.Data.List.Basic

/-!
# Consecutive entries of a sequence

`span f off len` lists `len` consecutive entries of `f` from `off` on. Cutting
a span and joining the pieces is the whole theory: `span_append` for one cut,
and `flatMap_clip` for the cut of `[s, s + n)` along the multiples of `W`.
-/

namespace TeraNoC.Lib

variable {α : Type*}

def span (f : Nat → α) (off len : Nat) : List α :=
  (List.range len).map fun k => f (off + k)

@[simp] theorem span_zero (f : Nat → α) (off : Nat) : span f off 0 = [] := rfl

theorem span_append (f : Nat → α) (off len len' : Nat) :
    span f off len ++ span f (off + len) len' = span f off (len + len') := by
  rw [span, span, span, List.range_add, List.map_append, List.map_map]
  congr 1
  refine List.map_congr_left fun k _ => ?_
  simp only [Function.comp_apply, Nat.add_assoc]

theorem mem_span {f : Nat → α} {off len : Nat} {x : α} :
    x ∈ span f off len ↔ ∃ k < len, f (off + k) = x := by
  simp [span]

/-- A span of the shifted sequence. -/
theorem span_shift (f : Nat → α) (d off len : Nat) :
    span (fun k => f (d + k)) off len = span f (d + off) len := by
  rw [span, span]
  refine List.map_congr_left fun k _ => ?_
  rw [Nat.add_assoc]

/-- The first end of the piece of `[s, s + n)` in block `i` of width `W`. -/
def clipLo (s W i : Nat) : Nat := max s (i * W)

/-- The second end. -/
def clipHi (s n W i : Nat) : Nat := min (s + n) ((i + 1) * W)

/-- The pieces of `[s, s + n)` in the first `j` blocks, in order, are its part
below `j * W`. -/
theorem flatMap_clip (f : Nat → α) (s n W j : Nat) :
    ((List.range j).flatMap fun i =>
        span f (clipLo s W i - s) (clipHi s n W i - clipLo s W i)) =
      span f 0 (min (s + n) (j * W) - s) := by
  induction j with
  | zero =>
      rw [Nat.zero_mul, Nat.min_zero, Nat.zero_sub]
      rfl
  | succ j ih =>
      rw [List.range_succ, List.flatMap_append, ih, List.flatMap_singleton, clipLo, clipHi]
      have hmul : (j + 1) * W = j * W + W := Nat.succ_mul j W
      by_cases hj : j * W < s + n
      · -- the piece starts where the earlier pieces end
        have hoff : max s (j * W) - s = 0 + (min (s + n) (j * W) - s) := by omega
        rw [hoff, span_append]
        congr 1
        omega
      · have hlen : min (s + n) ((j + 1) * W) - max s (j * W) = 0 := by omega
        have hsame : min (s + n) (j * W) - s = min (s + n) ((j + 1) * W) - s := by omega
        rw [hlen, span_zero, List.append_nil, hsame]

end TeraNoC.Lib
