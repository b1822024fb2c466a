import Mathlib.Algebra.BigOperators.Intervals
import TeraNoC.Kernels.FixedPoint

/-!
# 2D convolutions (`kernels/baremetal/mempool_conv2d_i32p.h`)

What one thread writes to `out`, in order: the index and the value.
-/

namespace TeraNoC.Kernels

open TeraNoC.Lib TeraNoC.Runtime

/-- `(unsigned int)x`. -/
def castU32 (x : Int) : Nat := (x % 2 ^ 32).toNat

/-- The values of an `int` that counts by one from `lo` while it is below `hi`. -/
def intRange (lo hi : Int) : List Int := (List.range (hi - lo).toNat).map fun d : Nat => lo + d

section Conv2d

variable (input k : Nat → Int32) (inX inY kX kY id numThreads fuel : Nat)

/-- `weight`. -/
def convWeight (taps : Nat) : Int32 := (List.range taps).foldl (fun weight i => weight + k i) 0

/-- `conv2d_parallel`, the loops over `m` and `n`. -/
def conv2dSum (i j : Int) : Int32 :=
  let boundaryX := i32 (kX / 2 : Nat)
  let boundaryY := i32 (kY / 2 : Nat)
  (intRange (-boundaryY) (i32 (i32 kY - boundaryY))).foldl (fun sum m =>
    (intRange (-boundaryX) (i32 (i32 kX - boundaryX))).foldl (fun sum n =>
      sum + input (u32 (u32 (castU32 (j + m) * inX) + castU32 (i + n))) *
        k (u32 (u32 (castU32 (m + boundaryY) * kX) + castU32 (n + boundaryX)))) sum) 0

/-- `conv2d_parallel`, the loop over `j`. -/
def conv2dColumn (i : Int) : List (Nat × Int32) :=
  let boundaryY := i32 (kY / 2 : Nat)
  (intRange boundaryY (i32 (i32 inY - boundaryY))).map fun j =>
    (u32 (u32 (castU32 j * inX) + castU32 i),
      div32 (conv2dSum input k inX kX kY i j) (convWeight k (u32 (kX * kY))))

/-- `conv2d_parallel`. -/
def conv2dParallel : Option (List (Nat × Int32)) := do
  let boundaryX := i32 (kX / 2 : Nat)
  let id ← whileLoop (fun id => id < castU32 boundaryX) (fun id => u32 (id + numThreads)) fuel id
  let s ← whileLoop (fun s : Int × List (Nat × Int32) => s.1 < i32 (i32 inX - boundaryX))
    (fun s => (i32 (s.1 + i32 numThreads), s.2 ++ conv2dColumn input k inX inY kX kY s.1)) fuel
    (i32 id, [])
  some s.2

/-- `conv2d_shifted_parallel`, the loops over `m` and `n`. -/
def conv2dShiftedSum (i j : Nat) : Int32 :=
  (List.range kY).foldl (fun sum m =>
    (List.range kX).foldl (fun sum n =>
      sum + input (u32 (u32 (u32 (j + m) * inX) + u32 (i + n))) * k (u32 (u32 (m * kX) + n)))
      sum) 0

/-- `conv2d_shifted_parallel`, the loop over `j`. -/
def conv2dShiftedColumn (i : Nat) : List (Nat × Int32) :=
  (List.range (sub32 inY (u32 (2 * (kY / 2))))).map fun j =>
    (u32 (u32 (u32 (j + kY / 2) * inX) + u32 (i + kX / 2)),
      div32 (conv2dShiftedSum input k inX kX kY i j) (convWeight k (u32 (kX * kY))))

/-- `conv2d_shifted_parallel`. -/
def conv2dShiftedParallel : Option (List (Nat × Int32)) :=
  forLoop (fun i => i < sub32 inX (u32 (2 * (kX / 2)))) (fun i => u32 (i + numThreads))
    (fun i writes => writes ++ conv2dShiftedColumn input k inX inY kX kY i) fuel id []

/-- One line of the unrolled sums. -/
def tap (row col t : Nat) : Int32 := input (u32 (u32 (row * inX) + col)) * k t

/-- `conv2d_3x3_unrolled_parallel`, the loop over `j`. -/
def conv2d3x3UnrolledColumn (i : Nat) : List (Nat × Int32) :=
  (List.range' 1 (sub32 inY 1 - 1)).map fun j =>
    let sum := 0
    let sum := sum + tap input k inX (sub32 j 1) (sub32 i 1) 0
    let sum := sum + tap input k inX (sub32 j 1) (u32 (i + 0)) 1
    let sum := sum + tap input k inX (sub32 j 1) (u32 (i + 1)) 2
    let sum := sum + tap input k inX (u32 (j + 0)) (sub32 i 1) 3
    let sum := sum + tap input k inX (u32 (j + 0)) (u32 (i + 0)) 4
    let sum := sum + tap input k inX (u32 (j + 0)) (u32 (i + 1)) 5
    let sum := sum + tap input k inX (u32 (j + 1)) (sub32 i 1) 6
    let sum := sum + tap input k inX (u32 (j + 1)) (u32 (i + 0)) 7
    let sum := sum + tap input k inX (u32 (j + 1)) (u32 (i + 1)) 8
    (u32 (u32 (j * inX) + i), div32 sum (convWeight k 9))

/-- `start` and `end` of `conv2d_3x3_unrolled_parallel`. -/
def unrolledColumns : Nat × Nat :=
  let div := inX / numThreads
  let rem := inX % numThreads
  let start := u32 (div * id)
  let end_ := u32 (div * u32 (id + 1))
  let start := u32 (start + if id < rem then id else rem)
  let end_ := u32 (end_ + if id < rem then id else rem)
  (if start < 1 then 1 else start, if sub32 inX 1 < end_ then sub32 inX 1 else end_)

/-- `conv2d_3x3_unrolled_parallel`. -/
def conv2d3x3UnrolledParallel : Option (List (Nat × Int32)) :=
  let range := unrolledColumns inX id numThreads
  forLoop (fun i => i < range.2) (fun i => u32 (i + 1))
    (fun i writes => writes ++ conv2d3x3UnrolledColumn input k inX inY i) fuel range.1 []

/-- `conv2d_3x3_shifted_unrolled_parallel`, the loop over `j`. -/
def conv2d3x3ShiftedUnrolledColumn (i : Nat) : List (Nat × Int32) :=
  (List.range (sub32 inY 2)).map fun j =>
    let sum := 0
    let sum := sum + tap input k inX (u32 (j + 0)) (u32 (i + 0)) 0
    let sum := sum + tap input k inX (u32 (j + 0)) (u32 (i + 1)) 1
    let sum := sum + tap input k inX (u32 (j + 0)) (u32 (i + 2)) 2
    let sum := sum + tap input k inX (u32 (j + 1)) (u32 (i + 0)) 3
    let sum := sum + tap input k inX (u32 (j + 1)) (u32 (i + 1)) 4
    let sum := sum + tap input k inX (u32 (j + 1)) (u32 (i + 2)) 5
    let sum := sum + tap input k inX (u32 (j + 2)) (u32 (i + 0)) 6
    let sum := sum + tap input k inX (u32 (j + 2)) (u32 (i + 1)) 7
    let sum := sum + tap input k inX (u32 (j + 2)) (u32 (i + 2)) 8
    (u32 (u32 (u32 (j + 1) * inX) + u32 (i + 1)), div32 sum (convWeight k 9))

/-- `conv2d_3x3_shifted_unrolled_parallel`. -/
def conv2d3x3ShiftedUnrolledParallel : Option (List (Nat × Int32)) :=
  forLoop (fun i => i < sub32 inX 2) (fun i => u32 (i + numThreads))
    (fun i writes => writes ++ conv2d3x3ShiftedUnrolledColumn input k inX inY i) fuel id []

/-- The pixel `(x + 1, y + 1)` of the convolution with a kernel of three by three. -/
def convPixel (x y : Nat) : Int32 :=
  div32
    (∑ m ∈ Finset.range 3, ∑ n ∈ Finset.range 3,
      input ((y + m) * inX + (x + n)) * k (m * 3 + n))
    (∑ i ∈ Finset.range 9, k i)

/-- The interior pixels of a column. -/
def convColumn (x : Nat) : List (Nat × Int32) :=
  (List.range (inY - 2)).map fun y => ((y + 1) * inX + (x + 1), convPixel input k inX x y)

end Conv2d

/-- What a convolution does on all threads: every thread returns, and together they write every
interior pixel once and nothing else. -/
def ConvExact (input k : Nat → Int32) (inX inY numThreads : Nat)
    (kernel : Nat → Nat → Option (List (Nat × Int32))) : Prop :=
  ∃ writes : Nat → List (Nat × Int32), (∀ id < numThreads, Ends (kernel id) (writes id)) ∧
    ((List.range numThreads).flatMap writes).Perm
      ((List.range (inX - 2)).flatMap (convColumn input k inX inY))

end TeraNoC.Kernels
