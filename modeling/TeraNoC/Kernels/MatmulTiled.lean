import TeraNoC.Kernels.Matmul

/-!
# Tiled matrix multiplication (`kernels/baremetal/mempool_matmul_i32p.h`)

The two kernels that compute `C` in tiles of four by four. A trace is what one thread writes
and what it loads of `A` and `B`, in order. A division by zero has no result.
-/

namespace TeraNoC.Kernels

open TeraNoC.Lib TeraNoC.Runtime

/-- `a / b` -/
def udiv (a b : Nat) : Option Nat := if b = 0 then none else some (a / b)

/-- `a % b` -/
def umod (a b : Nat) : Option Nat := if b = 0 then none else some (a % b)

/-- `if (x >= m) { x = x - m * (x / m); }` -/
def roundRobin (x m : Nat) : Option Nat :=
  if m ≤ x then (udiv x m).map fun q => sub32 x (u32 (m * q)) else some x

structure TileTrace where
  writes : List (Nat × Int32) := []
  loadsA : List Nat := []
  loadsB : List Nat := []
  deriving Inhabited

section MatmulTiled

variable (A B : Nat → Int32) (M N P id numThreads fuel : Nat)

/-- `c00` to `c33`, after the values `ks` of `k`. -/
def tileElem (ks : List Nat) (i j x y : Nat) : Int32 :=
  ks.foldl (fun c k =>
    c + A (u32 (u32 (u32 (i + x) * N) + k)) * B (u32 (u32 (u32 (k * P) + j) + y))) 0

/-- The body of the loop over `j`. -/
def tile (ks : List Nat) (i j : Nat) (t : TileTrace) : TileTrace where
  writes := t.writes ++ (List.range 4).flatMap fun x => (List.range 4).map fun y =>
    (u32 (u32 (u32 (u32 (i + x) * P) + j) + y), tileElem A B N P ks i j x y)
  loadsA := t.loadsA ++ ks.flatMap fun k => (List.range 4).map fun x =>
    u32 (u32 (u32 (i + x) * N) + k)
  loadsB := t.loadsB ++ ks.flatMap fun k => (List.range 4).map fun y =>
    u32 (u32 (u32 (k * P) + j) + y)

/-- The loop over `j`. -/
def tileLoop (ks : List Nat) (i jStart jEnd : Nat) (t : TileTrace) : Option TileTrace :=
  forLoop (fun j => j < jEnd) (fun j => u32 (j + 4)) (fun j t => tile A B N P ks i j t) fuel jStart
    t

/-- `mat_mul_unrolled_4x4_parallel`. -/
def matMulUnrolled4x4Parallel : Option TileTrace := do
  let c ← udiv numThreads (M / 4)
  let width ← udiv P c
  let slice ← umod id c
  let cStart := u32 (width * slice)
  let cEnd := u32 (width * u32 (slice + 1))
  let row ← udiv id c
  let rows ← udiv numThreads c
  let t ← forLoop (fun i => i < M) (fun i => u32 (i + u32 (4 * rows)))
    (fun i t => t.bind fun t => tileLoop A B N P fuel (List.range N) i cStart cEnd t) fuel
    (u32 (4 * row)) (some {})
  t

/-- The values of `k` in `Inner_Loop`, with its second round. -/
def innerOrder (kOffset : Nat) : List Nat :=
  List.range' kOffset (N - kOffset) ++ if 0 < kOffset then List.range kOffset else []

/-- `Mid_loop`, with its second round. -/
def midLoop (kOffset i cStart cEnd jOffset : Nat) (t : TileTrace) : Option TileTrace := do
  let jOffsetCounter := u32 (cStart + u32 (jOffset * 4))
  let t ← tileLoop A B N P fuel (innerOrder N kOffset) i jOffsetCounter cEnd t
  if jOffsetCounter ≠ cStart then
    tileLoop A B N P fuel (innerOrder N kOffset) i cStart jOffsetCounter t
  else some t

/-- `Round-Robin control, if offset lines > M, back to the first window` -/
def outerRoundRobin (mPartition outerLoopCounter i : Nat) : Option Nat :=
  let lines := u32 (mPartition * outerLoopCounter)
  if lines ≤ i then (udiv i lines).map fun q => sub32 i (u32 (mPartition * q)) else some i

/-- The body of the loop over `i_ori`; the state has `outer_loop_counter`. -/
def conflictOptBody (iOffset kOffset mPartition cStart cEnd jOffset iOri : Nat)
    (s : Nat × TileTrace) : Option (Nat × TileTrace) := do
  let outerLoopCounter := u32 (s.1 + 1)
  let i ← outerRoundRobin mPartition outerLoopCounter (u32 (iOri + iOffset))
  let t ← midLoop A B N P fuel kOffset i cStart cEnd jOffset s.2
  some (outerLoopCounter, t)

/-- `mat_mul_unrolled_4x4_conflict_opt_parallel`. -/
def matMulUnrolled4x4ConflictOptParallel : Option TileTrace := do
  let c ← udiv numThreads (M / 4)
  let c := if u32 (numThreads * 4) < M then 1 else c
  let width ← udiv P c
  let slice ← umod id c
  let cStart := u32 (width * slice)
  let cEnd := u32 (width * u32 (slice + 1))
  let groupBankNums := 512
  let tileCoreNums := 8
  let jumpLinesA ← udiv groupBankNums N
  let jumpLinesB ← udiv groupBankNums P
  let jumpLinesA := if jumpLinesA < 4 then 4 else jumpLinesA
  let iOffset := u32 (jumpLinesA * (id % tileCoreNums))
  let kOffsetIncr := u32 (jumpLinesB * (id % tileCoreNums))
  let row ← udiv id c
  let kOffset := u32 (u32 (slice + u32 (2 * row)) + kOffsetIncr)
  let conflictRow ← udiv (groupBankNums * tileCoreNums) P
  let jOffset ← udiv (u32 (2 * row)) conflictRow
  let kOffset ← roundRobin kOffset N
  let windowInP := width / 4
  let jOffset ← roundRobin jOffset windowInP
  let outerLoopTime ← udiv M (u32 (4 * numThreads))
  let outerLoopTime := if outerLoopTime < 1 then 1 else outerLoopTime
  let mPartition := M / outerLoopTime
  let rows ← udiv numThreads c
  let s ← forLoop (fun iOri => iOri < M) (fun iOri => u32 (iOri + u32 (4 * rows)))
    (fun iOri s => s.bind
      (conflictOptBody A B N P fuel iOffset kOffset mPartition cStart cEnd jOffset iOri)) fuel
    (u32 (4 * row)) (some (0, {}))
  s.map (·.2)

end MatmulTiled

/-- What a tiled kernel does on all threads: every thread returns, without a division by zero,
together they write every index of `C` once and no other, every value is one that
`mat_mul_parallel` writes there, run by a single thread, and nothing outside of `A` and `B` is
loaded. -/
def TiledExact (A B : Nat → Int32) (M N P numThreads : Nat)
    (kernel : Nat → Nat → Option TileTrace) : Prop :=
  ∃ t : Nat → TileTrace, (∀ id < numThreads, Ends (kernel id) (t id)) ∧
    (∀ ij, ((List.range numThreads).flatMap fun id => (t id).writes.map Prod.fst).count ij =
      if ij < M * P then 1 else 0) ∧
    (∃ c, Ends (matMulParallel A B M N P 0 1) c ∧ ∀ id < numThreads, ∀ w ∈ (t id).writes, w ∈ c) ∧
    ∀ id < numThreads, (∀ a ∈ (t id).loadsA, a < M * N) ∧ ∀ b ∈ (t id).loadsB, b < N * P

end TeraNoC.Kernels
