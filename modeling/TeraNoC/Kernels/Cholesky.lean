import TeraNoC.Kernels.FixedPoint
import TeraNoC.Lib.Triangular

/-!
# Cholesky decomposition (`kernels/baremetal/mempool_cholesky_q32s.h`)

The arrays are pointers: functions from an index to a location. A block of assembly is the
lanes that it multiplies and adds up; the loads of the lanes that a `switch` leaves out are
not modelled.
-/

namespace TeraNoC.Kernels

open TeraNoC.Lib TeraNoC.Runtime

/-- The locations of the single-core kernels. -/
inductive SolverLoc where
  | src (i : Nat)
  | l (i : Nat)
  | input (i : Nat)
  deriving DecidableEq

/-- The element in row `i` and column `j`. -/
def matIdx (n i j : Nat) : Nat := u32 (u32 (i * n) + j)

section Blocks

variable {A : Type} (op : Int32 → Int32 → Int32) (term : Nat → Prog A Int32 Int32)

/-- A block of `lanes` lanes from index `k` on. -/
def accumulate : Nat → Nat → Int32 → Prog A Int32 Int32
  | 0, _, sum => pure sum
  | lanes + 1, k, sum => do
    let t ← term k
    accumulate lanes (u32 (k + 1)) (op sum t)

/-- `for (k = 0; k < 4 * (bound >> 2); k += step)` over blocks of four lanes, and the block
that `switch (rest)` picks for the remainder. -/
def unrolledSum (step bound rest fuel : Nat) (sum : Int32) : Prog A Int32 Int32 := do
  let s ← Prog.forLoop (fun k => k < u32 (4 * (bound >>> 2))) (fun k => u32 (k + step))
    (accumulate op term 4) fuel 0 sum
  accumulate op term rest s.1 s.2

end Blocks

section Cholesky

variable {A : Type} (fixedPoint : Nat) (half : Int32) (pSrc pL : Nat → A) (n fuel : Nat)

/-- The call of `mempool_sqrt_q32s`. -/
def sqrtCall (number : Int32) : Prog A Int32 Int32 :=
  match mempoolSqrtQ32s fixedPoint number fuel with
  | some res => pure res
  | none => Prog.spin

/-- A lane: an element of one row times the one of another in the same column. -/
def rowLane (mul : Int32 → Int32 → Int32) (row row' : Nat → A) (k : Nat) : Prog A Int32 Int32 := do
  let a ← Prog.get (row k)
  let b ← Prog.get (row' k)
  pure (mul a b)

/-- A lane that is squared. -/
def squareLane (mul : Int32 → Int32 → Int32) (row : Nat → A) (k : Nat) : Prog A Int32 Int32 := do
  let a ← Prog.get (row k)
  pure (mul a a)

/-! ## Banachiewicz -/

/-- The three loops over `k`. -/
def banachiewiczSum (i j l : Nat) : Prog A Int32 (Nat × Int32) := do
  let lane := rowLane (mulTrunc fixedPoint) (fun k => pL (matIdx n i k))
    (fun k => pL (matIdx n j k))
  let s ← Prog.forLoop (fun k => k < u32 (4 * (l >>> 2))) (fun k => u32 (k + 4))
    (accumulate (· + ·) lane 4) fuel 0 0
  let s ← Prog.forLoop (fun k => k < u32 (2 * (l >>> 1))) (fun k => u32 (k + 2))
    (accumulate (· + ·) lane 2) fuel s.1 s.2
  Prog.forLoop (fun k => k < l) (fun k => u32 (k + 1)) (accumulate (· + ·) lane 1) fuel s.1 s.2

/-- The body of the loop over the columns. It returns `result`. -/
def banachiewiczElement (i j : Nat) (result : Int32) : Prog A Int32 Int32 := do
  let pivot ← Prog.get (pSrc (matIdx n i j))
  let diag ← Prog.get (pL (matIdx n j j))
  let l := sub32 j 1
  let sum ←
    if 0 < j then do
      let s ← banachiewiczSum fixedPoint pL n fuel i j l
      let b0 ← Prog.get (pL (matIdx n j s.1))
      Prog.set (pL (matIdx n i l)) result
      pure (s.2 + mulTrunc fixedPoint result b0)
    else pure 0
  if j = i then do
    let root ← sqrtCall fixedPoint fuel (pivot - sum)
    Prog.set (pL (matIdx n i j)) root
    pure result
  else pure (fixDiv fixedPoint (pivot - sum) diag)

/-- The body of the loop over the rows. -/
def banachiewiczRow (i : Nat) (result : Int32) : Prog A Int32 Int32 := do
  let s ← Prog.forLoop (fun j => j ≤ i) (fun j => u32 (j + 1))
    (banachiewiczElement fixedPoint pSrc pL n fuel i) fuel 0 result
  pure s.2

/-- `mempool_cholesky_banachiewicz_q32s`. -/
def mempoolCholeskyBanachiewiczQ32s : Prog A Int32 Unit := do
  let pivot ← Prog.get (pSrc 0)
  let root ← sqrtCall fixedPoint fuel pivot
  Prog.set (pL 0) root
  let _ ← Prog.forLoop (fun i => i < n) (fun i => u32 (i + 1))
    (banachiewiczRow fixedPoint pSrc pL n fuel) fuel 1 0

/-! ## Crout -/

/-- The element on the diagonal of column `j`. The loop counts by one. -/
def croutDiagonal (j : Nat) : Prog A Int32 Unit := do
  let pivot ← Prog.get (pSrc (matIdx n j j))
  let sum ← unrolledSum (· + ·)
    (squareLane (mulRound fixedPoint half) fun k => pL (matIdx n j k)) 1 j (j % 4) fuel 0
  let root ← sqrtCall fixedPoint fuel (pivot - sum)
  Prog.set (pL (matIdx n j j)) root

/-- The body of the loop over the rows below the diagonal. It returns `result`. -/
def croutElement (j i : Nat) (result : Int32) : Prog A Int32 Int32 := do
  let pivot ← Prog.get (pSrc (matIdx n i j))
  let diag ← Prog.get (pL (matIdx n j j))
  let sum ← unrolledSum (· + ·)
    (rowLane (mulRound fixedPoint half) (fun k => pL (matIdx n i k)) fun k => pL (matIdx n j k))
    4 j (j % 4) fuel 0
  if u32 (j + 1) < i then Prog.set (pL (matIdx n (sub32 i 1) j)) result
  pure (fixDiv fixedPoint (pivot - sum) diag)

/-- The body of the loop over the columns. -/
def croutColumn (j : Nat) (result : Int32) : Prog A Int32 Int32 := do
  croutDiagonal fixedPoint half pSrc pL n fuel j
  let s ← Prog.forLoop (fun i => i < n) (fun i => u32 (i + 1))
    (croutElement fixedPoint half pSrc pL n fuel j) fuel (u32 (j + 1)) result
  if j < sub32 n 1 then Prog.set (pL (matIdx n (sub32 n 1) j)) s.2
  pure s.2

/-- `mempool_cholesky_crout_q32s`. -/
def mempoolCholeskyCroutQ32s : Prog A Int32 Unit := do
  let _ ← Prog.forLoop (fun j => j < n) (fun j => u32 (j + 1))
    (croutColumn fixedPoint half pSrc pL n fuel) fuel 0 0

end Cholesky

end TeraNoC.Kernels
