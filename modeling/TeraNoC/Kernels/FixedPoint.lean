import TeraNoC.Kernels.Dotp
import TeraNoC.Lib.Program

/-!
# Fixed-point numbers (`mempool_sqrt_q32s.h`, the macros of `apps/baremetal/cholesky_q32`)
-/

namespace TeraNoC.Kernels

open TeraNoC.Lib TeraNoC.Runtime

/-- The `div` instruction. -/
def div32 (a b : Int32) : Int32 := if b = 0 then -1 else a.sdiv b

section FixedPoint

variable (fixedPoint : Nat) (half : Int32)

/-- `FIX_DIV`. -/
def fixDiv (a b : Int32) : Int32 := div32 (a <<< fixedPoint) b

/-- `mul`, `addi` and `srai` of one lane. -/
def mulRound (a b : Int32) : Int32 := (a * b + half).sshiftRight fixedPoint

/-- `mul` and `srai` of one lane. -/
def mulTrunc (a b : Int32) : Int32 := (a * b).sshiftRight fixedPoint

/-! ## The square root -/

structure SqrtState where
  start : Int32
  end_ : Int32
  mid : Int32
  mid2 : Int32
  res : Int32
  break_ : Bool := false
  deriving Inhabited

/-- What every branch of the loop does at its end. -/
def SqrtState.halve (s : SqrtState) : SqrtState :=
  let mid := (s.start + s.end_).sshiftRight 1
  { s with mid := mid, mid2 := mid * mid }

def sqrtBody (number : Int32) (s : SqrtState) : SqrtState :=
  let mid2 := s.mid2.sshiftRight fixedPoint
  if mid2 = number then { s with mid2 := mid2, res := s.mid, break_ := true }
  else if mid2.slt number then { s with start := s.mid + 1, res := s.mid }.halve
  else { s with end_ := s.mid - 1 }.halve

/-- The assembly adds up `end`. -/
def sqrtInit : SqrtState :=
  SqrtState.halve
    { start := 0, end_ := 0x200 + 0x1000 + 0x2000 + 0x8000 + 773, mid := 0, mid2 := 0, res := 1 }

/-- `mempool_sqrt_q32s`. -/
def mempoolSqrtQ32s (number : Int32) (fuel : Nat) : Option Int32 :=
  if (0 : Int32).slt number then
    (whileLoop (fun s => s.start.sle s.end_ && !s.break_) (sqrtBody fixedPoint number) fuel
      sqrtInit).map (·.res)
  else some 1

/-- What `mempool_sqrt_q32s` returns. -/
def sqrtQ32s (number : Int32) : Int32 := (mempoolSqrtQ32s fixedPoint number 46343).getD 1

end FixedPoint

end TeraNoC.Kernels
