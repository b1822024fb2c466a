import TeraNoC.Kernels.Cholesky

/-!
# Triangular systems (`kernels/baremetal/mempool_linearsolver_q32s.h`)
-/

namespace TeraNoC.Kernels

open TeraNoC.Lib TeraNoC.Runtime

section LinearSolver

variable {A : Type} (fixedPoint : Nat) (half : Int32) (pL pIn : Nat → A)
  (numBanks n folded fuel : Nat)

/-- `OFFSET`. -/
def rowOffset : Nat := if folded = 1 then numBanks else n

/-- The body of the loop over the rows of `mempool_lowtrisolver_q32s`. -/
def lowtriRow (i : Nat) : Prog A Int32 Unit := do
  let offset := rowOffset numBanks n folded
  let sum ← Prog.get (pIn i)
  let sum ← unrolledSum (· - ·)
    (rowLane (mulRound fixedPoint half) pIn fun j => pL (matIdx offset i j)) 4 i (i % 4) fuel sum
  let diag ← Prog.get (pL (matIdx offset i i))
  Prog.set (pIn i) (fixDiv fixedPoint sum diag)

/-- `mempool_lowtrisolver_q32s`. -/
def mempoolLowtrisolverQ32s : Prog A Int32 Unit := do
  let _ ← Prog.forLoop (fun i => i < n) (fun i => u32 (i + 1))
    (fun i _ => lowtriRow fixedPoint half pL pIn numBanks n folded fuel i) fuel 0 ()

/-- `n - 1 - j`. -/
def fromEnd (j : Nat) : Nat := sub32 (sub32 n 1) j

/-- The body of the loop over the rows of `mempool_uprtrisolver_q32s`. The loop over the lanes
is bounded by `n - 1 - i`, the remainder is picked by `n - i`. -/
def uprtriRow (i : Nat) : Prog A Int32 Unit := do
  let offset := rowOffset numBanks n folded
  let sum ← Prog.get (pIn i)
  let sum ← unrolledSum (· - ·)
    (rowLane (mulRound fixedPoint half) (fun j => pIn (fromEnd n j))
      fun j => pL (matIdx offset (fromEnd n j) i))
    4 (fromEnd n i) (sub32 n i % 4) fuel sum
  let diag ← Prog.get (pL (matIdx offset i i))
  Prog.set (pIn i) (fixDiv fixedPoint sum diag)

/-- `mempool_uprtrisolver_q32s`. The counter ends the loop by wrapping around. -/
def mempoolUprtrisolverQ32s : Prog A Int32 Unit := do
  let _ ← Prog.forLoop (fun i => i < n) (fun i => sub32 i 1)
    (fun i _ => uprtriRow fixedPoint half pL pIn numBanks n folded fuel i) fuel (sub32 n 1) ()

end LinearSolver

end TeraNoC.Kernels
