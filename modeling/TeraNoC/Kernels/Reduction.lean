import Mathlib.Logic.Function.Basic
import TeraNoC.Kernels.Dotp

/-!
# The binary reduction (`kernels/baremetal/mempool_dotp_i32.h`)

`mempool_binary_reduction_i32` as a machine over all cores, from the store of the partial
sums in `dotp_i32p_local_unrolled4` on. A step of a core is one access to `red_barrier` or
`sum`, a wake-up, or a WFI, together with the local computation that leads to the next
one. A core calls the reduction once.
-/

namespace TeraNoC.Kernels

open TeraNoC.Runtime

/-- `NUM_CORES` and `BANKING_FACTOR`. -/
structure ReductionParams where
  numCores : Nat
  bankingFactor : Nat

/-- Where a core is, with the local variables that are still read: before the call, at one
of the accesses of the loop, at `wake_up_all` or at `mempool_wfi`, or after the call. -/
inductive ReductionPc where
  | store
  | add (numCores previousStep step : Nat)
  | load (numCores previousStep step : Nat)
  | loadNext (numCores previousStep step : Nat) (value : Int32)
  | write (numCores previousStep step : Nat) (value : Int32)
  | clear (numCores previousStep step : Nat)
  | wakeUpAll
  | wfi
  | done
  deriving DecidableEq

/-- `tokens` are the wake-ups a core has not consumed yet, `wakes` counts the calls of
`wake_up_all`. -/
structure ReductionState where
  pc : Nat → ReductionPc
  tokens : Nat → Nat
  redBarrier : Nat → Nat
  sum : Nat → Int32
  wakes : Nat

namespace ReductionParams

variable (p : ReductionParams)

def idx (step coreId : Nat) : Nat := u32 (u32 (step * (coreId / step)) * p.bankingFactor)

/-- The element of `red_barrier`. -/
def counter (previousStep step coreId : Nat) : Nat :=
  sub32 (u32 (p.idx step coreId + previousStep)) 1

/-- The element of `sum` that is added. -/
def nextIdx (previousStep step coreId : Nat) : Nat :=
  u32 (p.idx step coreId + u32 (previousStep * p.bankingFactor))

def afterLoop (numCores : Nat) : ReductionPc := if numCores = 1 then .wakeUpAll else .wfi

def loopHead (numCores previousStep step : Nat) : ReductionPc :=
  if numCores > 1 then .add numCores previousStep step else afterLoop numCores

/-- One access of a core; `partials` are the sums that the cores have computed. -/
def step (partials : Nat → Int32) (s : ReductionState) (coreId : Nat) : ReductionState :=
  match s.pc coreId with
  | .store =>
      { s with
        sum := Function.update s.sum (u32 (coreId * p.bankingFactor)) (partials coreId)
        pc := Function.update s.pc coreId (loopHead p.numCores 1 2) }
  | .add numCores previousStep step =>
      let a := p.counter previousStep step coreId
      { s with
        redBarrier := Function.update s.redBarrier a (u32 (s.redBarrier a + 1))
        pc := Function.update s.pc coreId
          (if s.redBarrier a ≠ 0 then .load numCores previousStep step
            else afterLoop numCores) }
  | .load numCores previousStep step =>
      { s with
        pc := Function.update s.pc coreId
          (.loadNext numCores previousStep step (s.sum (p.idx step coreId))) }
  | .loadNext numCores previousStep step value =>
      { s with
        pc := Function.update s.pc coreId
          (.write numCores previousStep step
            (value + s.sum (p.nextIdx previousStep step coreId))) }
  | .write numCores previousStep step value =>
      { s with
        sum := Function.update s.sum (p.idx step coreId) value
        pc := Function.update s.pc coreId (.clear numCores previousStep step) }
  | .clear numCores previousStep step =>
      { s with
        redBarrier := Function.update s.redBarrier (p.counter previousStep step coreId) 0
        pc := Function.update s.pc coreId (loopHead (numCores / 2) step (u32 (step * 2))) }
  | .wakeUpAll =>
      { s with
        tokens := fun i => if i < p.numCores then s.tokens i + 1 else s.tokens i
        pc := Function.update s.pc coreId .wfi
        wakes := s.wakes + 1 }
  | .wfi =>
      if 0 < s.tokens coreId then
        { s with
          tokens := Function.update s.tokens coreId (s.tokens coreId - 1)
          pc := Function.update s.pc coreId .done }
      else s
  | .done => s

/-- The element of `red_barrier` a core accesses next, and the step it is for. -/
def counterAccess (s : ReductionState) (coreId : Nat) : Option (Nat × Nat) :=
  match s.pc coreId with
  | .add _ previousStep step | .clear _ previousStep step =>
      some (step, p.counter previousStep step coreId)
  | _ => none

/-- The partial sums that a core adds: from the first read up to the store of the sum. -/
def adding (s : ReductionState) (coreId : Nat) : Option (Nat × List Nat) :=
  match s.pc coreId with
  | .load _ previousStep step | .loadNext _ previousStep step _ | .write _ previousStep step _ =>
      some (step, [p.idx step coreId, p.nextIdx previousStep step coreId])
  | _ => none

/-- The element of `sum` that a core reads next. -/
def read (s : ReductionState) (coreId : Nat) : Option Nat :=
  match s.pc coreId with
  | .load _ _ step => some (p.idx step coreId)
  | .loadNext _ previousStep step _ => some (p.nextIdx previousStep step coreId)
  | _ => none

def start (redBarrier : Nat → Nat) (sum : Nat → Int32) : ReductionState where
  pc := fun _ => .store
  tokens := fun _ => 0
  redBarrier := redBarrier
  sum := sum
  wakes := 0

def after (partials : Nat → Int32) (redBarrier : Nat → Nat) (sum : Nat → Int32)
    (sched : Nat → Nat) : Nat → ReductionState
  | 0 => start redBarrier sum
  | t + 1 => p.step partials (after partials redBarrier sum sched t) (sched t)

end ReductionParams

end TeraNoC.Kernels
