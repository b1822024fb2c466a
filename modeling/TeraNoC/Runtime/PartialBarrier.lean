import Mathlib.Logic.Function.Basic
import TeraNoC.Runtime.Barrier
import TeraNoC.Runtime.Synchronization

/-!
# The partial barriers (`synchronization.c`)

`mempool_partial_barrier` and `mempool_log_partial_barrier` synchronize a range of
cores and wake it with writes to the control registers: single cores, tiles of a
group, and groups. The wake-up functions of `runtime.h` are the writes they make.
-/

namespace TeraNoC.Runtime

open TeraNoC.Hw

/-- `a << n` of a `uint32_t`. The machine shifts by the low five bits of the amount;
C leaves an amount of 32 or more undefined. -/
def shl32 (a n : Nat) : Nat := u32 (a <<< (n % 32))

/-- `((1U << count) - 1) << from`. -/
def bitMask (count start : Nat) : Nat := shl32 (sub32 (shl32 1 count) 1) start

/-- The `switch` of `wake_up_tile` knows the groups up to 7. -/
def wakeUpTile (groupId tileMask : Nat) : CtrlWrite :=
  if groupId < 8 then .wakeUpTile groupId tileMask else .wakeUpTile 0 tileMask

/-! ## `mempool_partial_barrier` -/

section Partial

variable (w : WakeParams)

/-- `while (core_init % num_cores_per_tile != 0)`: at most a tile's number of rounds. -/
def wakeToTile : Nat → Nat → List CtrlWrite × Nat
  | 0, coreInit => ([], coreInit)
  | rounds + 1, coreInit =>
      if coreInit % w.numCoresPerTile ≠ 0 then
        let (writes, coreInit') := wakeToTile rounds (coreInit + 1)
        (.wakeUp coreInit :: writes, coreInit')
      else ([], coreInit)

/-- `while (core_end % num_cores_per_tile != 0)`. -/
def wakeFromTile : Nat → List CtrlWrite × Nat
  | 0 => ([], 0)
  | coreEnd + 1 =>
      if (coreEnd + 1) % w.numCoresPerTile ≠ 0 then
        let (writes, coreEnd') := wakeFromTile coreEnd
        (.wakeUp coreEnd :: writes, coreEnd')
      else ([], coreEnd + 1)

/-- `while (core_init < core_end)`. -/
def wakeCores (coreInit : Nat) : Nat → List CtrlWrite
  | 0 => []
  | rounds + 1 => .wakeUp coreInit :: wakeCores (coreInit + 1) rounds

/-- The core remainder: the writes, and `core_init` and `core_end` after them. -/
def coreRemainder (coreInit coreEnd : Nat) : List CtrlWrite × Nat × Nat :=
  if sub32 coreEnd coreInit > w.numCoresPerTile then
    let up := wakeToTile w w.numCoresPerTile coreInit
    let down := wakeFromTile w coreEnd
    (up.1 ++ down.1, up.2, down.2)
  else if sub32 coreEnd coreInit < w.numCoresPerTile then
    (wakeCores coreInit (coreEnd - coreInit), coreEnd, coreEnd)
  else ([], coreInit, coreEnd)

/-- The tile remainder. -/
def tileRemainder (coreInit coreEnd : Nat) : List CtrlWrite × Nat × Nat :=
  let tileInit := coreInit / w.numCoresPerTile
  let tileEnd := coreEnd / w.numCoresPerTile
  if sub32 tileEnd tileInit > w.numTilesPerGroup then
    ([wakeUpTile (tileInit / w.numTilesPerGroup)
        (bitMask (sub32 16 (tileInit % w.numTilesPerGroup)) (tileInit % w.numTilesPerGroup)),
      wakeUpTile (tileEnd / w.numTilesPerGroup)
        (sub32 (shl32 1 (tileEnd % w.numTilesPerGroup)) 1)],
     u32 (coreInit + u32 (w.numCoresPerTile * sub32 16 tileInit)),
     -- the product is taken before the remainder
     sub32 coreEnd (u32 (w.numCoresPerTile * tileEnd) % w.numTilesPerGroup))
  else if sub32 tileEnd tileInit < w.numTilesPerGroup then
    ([wakeUpTile (tileInit / w.numTilesPerGroup)
        (bitMask (sub32 tileEnd tileInit) (tileInit % w.numTilesPerGroup))],
     u32 (coreInit + u32 (w.numCoresPerTile * sub32 tileEnd tileInit)),
     coreEnd)
  else ([], coreInit, coreEnd)

/-- The group remainder. -/
def groupRemainder (coreInit coreEnd : Nat) : List CtrlWrite :=
  let groupInit := coreInit / w.numCoresPerGroup
  let groupEnd := coreEnd / w.numCoresPerGroup
  if sub32 groupEnd groupInit > 0 then
    [.wakeUpGroup (bitMask (sub32 groupEnd groupInit) groupInit)]
  else []

/-- All writes of the last core that arrives. -/
def partialWakes (coreInit numSleepingCores : Nat) : List CtrlWrite :=
  let cores := coreRemainder w coreInit (u32 (coreInit + numSleepingCores))
  let tiles := tileRemainder w cores.2.1 cores.2.2
  cores.1 ++ tiles.1 ++ groupRemainder w tiles.2.1 tiles.2.2

/-- The counter of a call, and what its callers have written so far. -/
structure PartialState where
  counter : Nat
  writes : List CtrlWrite

/-- A core calls the barrier for the range from `coreInit` on, and gets to its WFI. -/
def arrive (coreInit numSleepingCores : Nat) (s : PartialState) (coreId : Nat) : PartialState :=
  if coreId ≥ coreInit ∧ coreId < u32 (coreInit + numSleepingCores) then
    if sub32 numSleepingCores 1 = s.counter then
      { counter := 0, writes := s.writes ++ partialWakes w coreInit numSleepingCores }
    else { s with counter := u32 (s.counter + 1) }
  else s

end Partial

/-! ## `mempool_log_partial_barrier` -/

/-- Where a core is in `mempool_log_partial_barrier`, with the argument `step` of the
call it is in, or with `core_init` of the loop over single cores. -/
inductive LogPartialPc where
  | idle
  | add (step : Nat)
  | store (step : Nat)
  | wakeUpAll
  | wakeUpGroup
  | wakeUpTile
  | wakeUp (coreInit : Nat)
  | wfi
  deriving DecidableEq, Repr

/-- `entered` counts the calls of a core, `wakes` the wake-ups that cores of a block
have begun. `woken` lists the wake-ups a core was sent, by the block and the episode of
their sender. -/
structure LogPartialState where
  pc : Nat → LogPartialPc
  tokens : Nat → Nat
  logBarrier : Nat → Nat
  entered : Nat → Nat
  wakes : Nat → Nat
  woken : Nat → List (Nat × Nat)

namespace LogPartialState

variable (w : WakeParams) (numCoresBarrier : Nat)

def coreInit (coreId : Nat) : Nat := u32 (numCoresBarrier * (coreId / numCoresBarrier))

def coreEnd (coreId : Nat) : Nat := u32 (coreInit numCoresBarrier coreId + numCoresBarrier)

/-- A call with `step`. -/
def call (coreId step : Nat) : LogPartialPc :=
  if coreId ≥ coreInit numCoresBarrier coreId ∧ coreId < coreEnd numCoresBarrier coreId then
    .add step
  else .idle

/-- `while (core_init < core_end)`. -/
def wakeLoop (coreInit coreEnd : Nat) : LogPartialPc :=
  if coreInit < coreEnd then .wakeUp coreInit else .wfi

/-- How the last core of the block wakes it. -/
def wakeEntry (coreId : Nat) : LogPartialPc :=
  if numCoresBarrier ≥ w.numCores then .wakeUpAll
  else if numCoresBarrier ≥ w.numCoresPerGroup then .wakeUpGroup
  else if numCoresBarrier ≥ w.numCoresPerTile then .wakeUpTile
  else wakeLoop (coreInit numCoresBarrier coreId) (coreEnd numCoresBarrier coreId)

def groupWrite (coreId : Nat) : CtrlWrite :=
  let groupInit := coreInit numCoresBarrier coreId / w.numCoresPerGroup
  let groupEnd := coreEnd numCoresBarrier coreId / w.numCoresPerGroup
  .wakeUpGroup (bitMask (sub32 groupEnd groupInit) groupInit)

def tileWrite (coreId : Nat) : CtrlWrite :=
  let tileInit := coreInit numCoresBarrier coreId / w.numCoresPerTile
  let tileEnd := coreEnd numCoresBarrier coreId / w.numCoresPerTile
  Runtime.wakeUpTile (tileInit / w.numTilesPerGroup)
    (bitMask (sub32 tileEnd tileInit) (tileInit % w.numTilesPerGroup))

/-- A write to a control register. -/
def write (s : LogPartialState) (coreId : Nat) (x : CtrlWrite) (pc : LogPartialPc) :
    LogPartialState :=
  { s with
    tokens := fun j => if j < w.numCores ∧ w.wakes x j = true then s.tokens j + 1 else s.tokens j
    woken := fun j => if j < w.numCores ∧ w.wakes x j = true then
      s.woken j ++ [(coreId / numCoresBarrier, s.entered coreId - 1)] else s.woken j
    pc := Function.update s.pc coreId pc }

/-- The first write of a wake-up. -/
def begin (s : LogPartialState) (coreId : Nat) : LogPartialState :=
  { s with
    wakes := Function.update s.wakes (coreId / numCoresBarrier)
      (s.wakes (coreId / numCoresBarrier) + 1) }

def step (s : LogPartialState) (coreId : Nat) : LogPartialState :=
  match s.pc coreId with
  | .idle =>
      { s with
        pc := Function.update s.pc coreId (call numCoresBarrier coreId 2)
        entered := Function.update s.entered coreId (s.entered coreId + 1) }
  | .add step =>
      let a := LogBarrierParams.counter step coreId
      let previousStep := step >>> 1
      { s with
        logBarrier := Function.update s.logBarrier a (u32 (s.logBarrier a + previousStep))
        pc := Function.update s.pc coreId
          (if sub32 step previousStep = s.logBarrier a then .store step else .wfi) }
  | .store step =>
      { s with
        logBarrier := Function.update s.logBarrier (LogBarrierParams.counter step coreId) 0
        pc := Function.update s.pc coreId
          (if numCoresBarrier = step then wakeEntry w numCoresBarrier coreId
          else call numCoresBarrier coreId (u32 (step <<< 1))) }
  | .wakeUpAll =>
      (s.begin numCoresBarrier coreId).write w numCoresBarrier coreId (.wakeUp allCores) .wfi
  | .wakeUpGroup =>
      (s.begin numCoresBarrier coreId).write w numCoresBarrier coreId
        (groupWrite w numCoresBarrier coreId) .wfi
  | .wakeUpTile =>
      (s.begin numCoresBarrier coreId).write w numCoresBarrier coreId
        (tileWrite w numCoresBarrier coreId) .wfi
  | .wakeUp core =>
      (if core = coreInit numCoresBarrier coreId then s.begin numCoresBarrier coreId else s).write
        w numCoresBarrier coreId (.wakeUp core)
        (wakeLoop (u32 (core + 1)) (coreEnd numCoresBarrier coreId))
  | .wfi =>
      if 0 < s.tokens coreId then
        { s with
          tokens := Function.update s.tokens coreId (s.tokens coreId - 1)
          pc := Function.update s.pc coreId .idle }
      else s

/-- After `mempool_barrier_init`. -/
def start (mem : Nat → Nat) (order : List Nat) : LogPartialState where
  pc := fun _ => .idle
  tokens := fun _ => 0
  logBarrier := order.foldl (BarrierParams.mk w.numCores 1).initLogBarrier mem
  entered := fun _ => 0
  wakes := fun _ => 0
  woken := fun _ => []

def after (mem : Nat → Nat) (order : List Nat) (sched : Nat → Nat) : Nat → LogPartialState
  | 0 => start w mem order
  | t + 1 => step w numCoresBarrier (after mem order sched t) (sched t)

/-- A core that is about to begin its block's wake-up. -/
def begins (s : LogPartialState) (coreId : Nat) : Bool :=
  match s.pc coreId with
  | .wakeUpAll | .wakeUpGroup | .wakeUpTile => true
  | .wakeUp core => core == coreInit numCoresBarrier coreId
  | _ => false

/-- A core that has begun it and is not through. -/
def waking (s : LogPartialState) (coreId : Nat) : Bool :=
  match s.pc coreId with
  | .wakeUp core => core != coreInit numCoresBarrier coreId
  | _ => false

end LogPartialState

end TeraNoC.Runtime
