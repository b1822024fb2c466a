import Mathlib.Logic.Function.Basic
import TeraNoC.Runtime.Word

/-!
# The log barriers (`synchronization.c`)

`mempool_anyradixlog_barrier`, `mempool_log_barrier` and `mempool_linlog_barrier`
as machines over all cores: a step of a core is one access to the shared array
`log_barrier`, a wake-up, or a WFI, together with the local computation that leads
to the next one.
-/

namespace TeraNoC.Runtime

/-- `NUM_CORES`, and the argument of the barrier. -/
structure BarrierParams where
  numCores : Nat
  radix : Nat

/-- Where a core is, with the local variables that are still read: before the
call, at one of the atomic accesses, at `wake_up_all` or at `mempool_wfi`. -/
inductive Pc where
  | idle
  | firstAdd
  | firstStore
  | loopAdd (numCores previousStep step : Nat)
  | loopStore (numCores previousStep step : Nat)
  | wakeUpAll
  | wfi
  deriving DecidableEq, Repr

/-- `entered` and `wakes` count the calls of the barrier and of `wake_up_all`;
`tokens` are the wake-ups a core has not consumed yet. -/
structure BarrierState where
  pc : Nat → Pc
  tokens : Nat → Nat
  logBarrier : Nat → Nat
  entered : Nat → Nat
  wakes : Nat

namespace BarrierParams

variable (p : BarrierParams)

/-- `31 - __builtin_clz(NUM_CORES)`. -/
def log2NumCores : Nat := Nat.log2 p.numCores

/-- At first step you take care of the remainder. -/
def firstStep : Nat :=
  if p.log2NumCores % p.radix = 0 then u32 (1 <<< p.radix)
  else u32 (1 <<< (p.log2NumCores % p.radix))

def idx (step coreId : Nat) : Nat := u32 (u32 (step * (coreId / step)) * 4)

/-- The element of `log_barrier` used above the first level. -/
def loopIdx (previousStep step coreId : Nat) : Nat :=
  sub32 (u32 (idx step coreId + previousStep)) 1

def afterLoop (numCores : Nat) : Pc := if numCores = 1 then .wakeUpAll else .wfi

def loopHead (numCores previousStep step : Nat) : Pc :=
  if numCores > 1 then .loopAdd numCores previousStep step else afterLoop numCores

def step (s : BarrierState) (coreId : Nat) : BarrierState :=
  match s.pc coreId with
  | .idle =>
      { s with
        pc := Function.update s.pc coreId .firstAdd
        entered := Function.update s.entered coreId (s.entered coreId + 1) }
  | .firstAdd =>
      let a := idx p.firstStep coreId
      { s with
        logBarrier := Function.update s.logBarrier a (u32 (s.logBarrier a + 1))
        pc := Function.update s.pc coreId
          (if sub32 p.firstStep 1 = s.logBarrier a then .firstStore else .wfi) }
  | .firstStore =>
      { s with
        logBarrier := Function.update s.logBarrier (idx p.firstStep coreId) 0
        -- the shift is undefined for a radix of 32 or more; `step` is not read then
        pc := Function.update s.pc coreId
          (loopHead (p.numCores / p.firstStep) p.firstStep (u32 (p.firstStep <<< p.radix))) }
  | .loopAdd numCores previousStep step =>
      let a := loopIdx previousStep step coreId
      { s with
        logBarrier := Function.update s.logBarrier a (u32 (s.logBarrier a + previousStep))
        pc := Function.update s.pc coreId
          (if sub32 step previousStep = s.logBarrier a then
            .loopStore numCores previousStep step else afterLoop numCores) }
  | .loopStore numCores previousStep step =>
      { s with
        logBarrier := Function.update s.logBarrier (loopIdx previousStep step coreId) 0
        pc := Function.update s.pc coreId
          (loopHead (numCores >>> p.radix) step (u32 (step <<< p.radix))) }
  | .wakeUpAll =>
      { s with
        tokens := fun i => if i < p.numCores then s.tokens i + 1 else s.tokens i
        pc := Function.update s.pc coreId .wfi
        wakes := s.wakes + 1 }
  | .wfi =>
      if 0 < s.tokens coreId then
        { s with
          tokens := Function.update s.tokens coreId (s.tokens coreId - 1)
          pc := Function.update s.pc coreId .idle }
      else s

/-- The element of `log_barrier` a core accesses next, and the step it is for. -/
def access (s : BarrierState) (coreId : Nat) : Option (Nat × Nat) :=
  match s.pc coreId with
  | .firstAdd | .firstStore => some (p.firstStep, idx p.firstStep coreId)
  | .loopAdd _ previousStep step | .loopStore _ previousStep step =>
      some (step, loopIdx previousStep step coreId)
  | .idle | .wakeUpAll | .wfi => none

/-- The loop of `mempool_barrier_init`: a core clears every `NUM_CORES`-th element. -/
def initLogBarrier (mem : Nat → Nat) (i : Nat) : Nat → Nat :=
  if i < p.numCores * 4 ∧ 0 < p.numCores then
    initLogBarrier (Function.update mem i 0) (i + p.numCores)
  else mem
termination_by p.numCores * 4 - i

/-- After `mempool_barrier_init`: the cores have cleared the array, in the order
`order`, and are about to call the barrier for the first time. -/
def start (mem : Nat → Nat) (order : List Nat) : BarrierState where
  pc := fun _ => .idle
  tokens := fun _ => 0
  logBarrier := order.foldl p.initLogBarrier mem
  entered := fun _ => 0
  wakes := 0

def after (mem : Nat → Nat) (order : List Nat) (sched : Nat → Nat) : Nat → BarrierState
  | 0 => p.start mem order
  | t + 1 => p.step (after mem order sched t) (sched t)

end BarrierParams

/-! ## The recursive barriers -/

/-- `NUM_CORES`, and the call of the barrier: `mempool_linlog_barrier(firstStep, id)`
if `linear`, else `mempool_log_barrier(firstStep, id)`. -/
structure LogBarrierParams where
  numCores : Nat
  linear : Bool
  firstStep : Nat

/-- Where a core is in the two recursive barriers, with the argument `step` of the
call it is in. -/
inductive LogPc where
  | idle
  | linlogAdd (step : Nat)
  | linlogStore (step : Nat)
  | logAdd (step : Nat)
  | logStore (step : Nat)
  | wakeUpAll
  | wfi
  deriving DecidableEq, Repr

structure LogBarrierState where
  pc : Nat → LogPc
  tokens : Nat → Nat
  logBarrier : Nat → Nat
  entered : Nat → Nat
  wakes : Nat

namespace LogBarrierParams

variable (p : LogBarrierParams)

/-- `idx + previous_step - 1`. -/
def counter (step coreId : Nat) : Nat := BarrierParams.loopIdx (step >>> 1) step coreId

def entry : LogPc := if p.linear then .linlogAdd p.firstStep else .logAdd p.firstStep

/-- After the counter was cleared: the last core of all wakes everybody, the last
of a block recurses with `next_step`. -/
def afterStore (step : Nat) : LogPc :=
  if p.numCores = step then .wakeUpAll else .logAdd (u32 (step <<< 1))

def step (s : LogBarrierState) (coreId : Nat) : LogBarrierState :=
  match s.pc coreId with
  | .idle =>
      { s with
        pc := Function.update s.pc coreId p.entry
        entered := Function.update s.entered coreId (s.entered coreId + 1) }
  | .linlogAdd step =>
      let a := counter step coreId
      { s with
        logBarrier := Function.update s.logBarrier a (u32 (s.logBarrier a + 1))
        pc := Function.update s.pc coreId
          (if sub32 step 1 = s.logBarrier a then .linlogStore step else .wfi) }
  | .logAdd step =>
      let a := counter step coreId
      let previousStep := step >>> 1
      { s with
        logBarrier := Function.update s.logBarrier a (u32 (s.logBarrier a + previousStep))
        pc := Function.update s.pc coreId
          (if sub32 step previousStep = s.logBarrier a then .logStore step else .wfi) }
  | .linlogStore step | .logStore step =>
      { s with
        logBarrier := Function.update s.logBarrier (counter step coreId) 0
        pc := Function.update s.pc coreId (p.afterStore step) }
  | .wakeUpAll =>
      { s with
        tokens := fun i => if i < p.numCores then s.tokens i + 1 else s.tokens i
        pc := Function.update s.pc coreId .wfi
        wakes := s.wakes + 1 }
  | .wfi =>
      if 0 < s.tokens coreId then
        { s with
          tokens := Function.update s.tokens coreId (s.tokens coreId - 1)
          pc := Function.update s.pc coreId .idle }
      else s

def access (s : LogBarrierState) (coreId : Nat) : Option (Nat × Nat) :=
  match s.pc coreId with
  | .linlogAdd step | .linlogStore step | .logAdd step | .logStore step =>
      some (step, counter step coreId)
  | .idle | .wakeUpAll | .wfi => none

/-- After `mempool_barrier_init`, whose loop reads `NUM_CORES` only. -/
def start (mem : Nat → Nat) (order : List Nat) : LogBarrierState where
  pc := fun _ => .idle
  tokens := fun _ => 0
  logBarrier := order.foldl (BarrierParams.mk p.numCores 1).initLogBarrier mem
  entered := fun _ => 0
  wakes := 0

def after (mem : Nat → Nat) (order : List Nat) (sched : Nat → Nat) : Nat → LogBarrierState
  | 0 => p.start mem order
  | t + 1 => p.step (after mem order sched t) (sched t)

end LogBarrierParams

end TeraNoC.Runtime
