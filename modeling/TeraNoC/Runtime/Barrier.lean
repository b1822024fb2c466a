import Mathlib.Data.Finset.Card
import Mathlib.Data.Finset.Range
import Mathlib.Logic.Function.Basic
import TeraNoC.Hw.CtrlRegisters
import TeraNoC.Runtime.Word

/-!
# The plain and the strided barrier (`synchronization.c`)

`mempool_barrier_init`, `mempool_barrier` and `mempool_strided_barrier` as machines
over all cores. A step of a core is one access to memory, one write to a control
register, or a WFI, together with the local computation that leads to the next.
Every wake-up of a core is a token it can take with a WFI. Tokens are numbered by
the episode of the barrier whose closing sent them; the cores do not see that.
-/

namespace TeraNoC.Runtime

open TeraNoC.Hw

/-- The argument of `wake_up_all`. -/
def allCores : Nat := 2 ^ 32 - 1

/-! ## The plain barrier -/

/-- Where a core is: in `mempool_barrier_init`, in `mempool_barrier`, or between two
calls of the latter. -/
inductive PlainPc where
  | initStore
  | initWakeUpAll
  | initWfi
  | initLogBarrier (i : Nat)
  | initPartialBarrier (i : Nat)
  | fetchAdd
  | store
  | wakeUpAll
  | wfi
  | idle
  deriving DecidableEq, Repr

/-- `entered` counts the barriers a core has counted itself into, the first of them
called by `mempool_barrier_init`. -/
structure PlainState where
  pc : Nat → PlainPc
  tokens : Nat → List Nat
  taken : Nat → List Nat
  barrier : Nat
  logBarrier : Nat → Nat
  partialBarrier : Nat → Nat
  entered : Nat → Nat
  wakes : Nat

namespace PlainState

variable (w : WakeParams)

/-- The loop head of `mempool_barrier_init`; after the loop the barrier is called. -/
def initLoop (i : Nat) : PlainPc :=
  if i < u32 (w.numCores * 4) then .initLogBarrier i else .fetchAdd

/-- `wake_up_all()`. -/
def wakeAll (s : PlainState) : PlainState :=
  { s with
    tokens := fun j => if j < w.numCores ∧ w.wakes (.wakeUp allCores) j = true then
      s.tokens j ++ [s.wakes] else s.tokens j
    wakes := s.wakes + 1 }

/-- `mempool_wfi()`, going on at `pc`. -/
def takeToken (s : PlainState) (coreId : Nat) (pc : PlainPc) : PlainState :=
  match s.tokens coreId with
  | [] => s
  | t :: ts =>
      { s with
        tokens := Function.update s.tokens coreId ts
        taken := Function.update s.taken coreId (s.taken coreId ++ [t])
        pc := Function.update s.pc coreId pc }

def step (s : PlainState) (coreId : Nat) : PlainState :=
  match s.pc coreId with
  | .initStore => { s with barrier := 0, pc := Function.update s.pc coreId .initWakeUpAll }
  | .initWakeUpAll => { s.wakeAll w with pc := Function.update s.pc coreId .initWfi }
  | .initWfi => s.takeToken coreId (initLoop w coreId)
  | .initLogBarrier i =>
      { s with
        logBarrier := Function.update s.logBarrier i 0
        pc := Function.update s.pc coreId (.initPartialBarrier i) }
  | .initPartialBarrier i =>
      { s with
        partialBarrier := Function.update s.partialBarrier i 0
        pc := Function.update s.pc coreId (initLoop w (u32 (i + w.numCores))) }
  | .fetchAdd =>
      { s with
        barrier := u32 (s.barrier + 1)
        entered := Function.update s.entered coreId (s.entered coreId + 1)
        pc := Function.update s.pc coreId
          (if sub32 w.numCores 1 = s.barrier then .store else .wfi) }
  | .store => { s with barrier := 0, pc := Function.update s.pc coreId .wakeUpAll }
  | .wakeUpAll => { s.wakeAll w with pc := Function.update s.pc coreId .wfi }
  | .wfi => s.takeToken coreId .idle
  | .idle => { s with pc := Function.update s.pc coreId .fetchAdd }

/-- All cores at the call of `mempool_barrier_init`, with anything in memory. -/
def start (barrier : Nat) (logBarrier partialBarrier : Nat → Nat) : PlainState where
  pc coreId := if coreId = 0 then .initStore else .initWfi
  tokens _ := []
  taken _ := []
  barrier := barrier
  logBarrier := logBarrier
  partialBarrier := partialBarrier
  entered _ := 0
  wakes := 0

def after (s : PlainState) (sched : Nat → Nat) : Nat → PlainState
  | 0 => s
  | t + 1 => step w (after s sched t) (sched t)

end PlainState

/-! ## The strided barrier

Every core calls `mempool_strided_barrier` for its residue class modulo the stride,
with a counter of that class and the number of cores in it.
-/

inductive StridedPc where
  | idle
  | fetchAdd
  | store
  | setWakeUpStride
  | setWakeUpOffset
  | wakeUpAll
  | resetWakeUpStride
  | resetWakeUpOffset
  | wfi
  deriving DecidableEq, Repr

/-- A token is numbered by the class and the episode whose closing sent it. -/
structure StridedState where
  pc : Nat → StridedPc
  tokens : Nat → List (Nat × Nat)
  taken : Nat → List (Nat × Nat)
  barrier : Nat → Nat
  ctrl : CtrlState
  entered : Nat → Nat
  wakes : Nat → Nat

namespace StridedState

variable (w : WakeParams) (stride : Nat)

/-- The cores of a class. -/
def classOf (offset : Nat) : Finset Nat :=
  (Finset.range w.numCores).filter fun c => c % stride = offset

/-- A write to a control register by a core of class `offset`. -/
def write (s : StridedState) (offset : Nat) (x : CtrlWrite) : StridedState :=
  { s with
    ctrl := s.ctrl.next (some x)
    tokens := fun j => if j < w.numCores ∧ w.wakeUpO (s.ctrl.next (some x)) j = true then
      s.tokens j ++ [(offset, s.wakes offset)] else s.tokens j }

def step (s : StridedState) (coreId : Nat) : StridedState :=
  let offset := coreId % stride
  match s.pc coreId with
  | .idle => { s with pc := Function.update s.pc coreId .fetchAdd }
  | .fetchAdd =>
      { s with
        barrier := Function.update s.barrier offset (u32 (s.barrier offset + 1))
        entered := Function.update s.entered coreId (s.entered coreId + 1)
        pc := Function.update s.pc coreId
          (if sub32 (classOf w stride offset).card 1 = s.barrier offset then .store else .wfi) }
  | .store =>
      { s with
        barrier := Function.update s.barrier offset 0
        pc := Function.update s.pc coreId .setWakeUpStride }
  | .setWakeUpStride =>
      { s.write w offset (.wakeUpStrd stride) with
        pc := Function.update s.pc coreId .setWakeUpOffset }
  | .setWakeUpOffset =>
      { s.write w offset (.wakeUpOffst offset) with
        pc := Function.update s.pc coreId .wakeUpAll }
  | .wakeUpAll =>
      { s.write w offset (.wakeUp allCores) with
        wakes := Function.update s.wakes offset (s.wakes offset + 1)
        pc := Function.update s.pc coreId .resetWakeUpStride }
  | .resetWakeUpStride =>
      { s.write w offset (.wakeUpStrd 1) with
        pc := Function.update s.pc coreId .resetWakeUpOffset }
  | .resetWakeUpOffset =>
      { s.write w offset (.wakeUpOffst 0) with
        pc := Function.update s.pc coreId .wfi }
  | .wfi =>
      match s.tokens coreId with
      | [] => s
      | t :: ts =>
          { s with
            tokens := Function.update s.tokens coreId ts
            taken := Function.update s.taken coreId (s.taken coreId ++ [t])
            pc := Function.update s.pc coreId .idle }

def start : StridedState where
  pc _ := .idle
  tokens _ := []
  taken _ := []
  barrier _ := 0
  ctrl := .reset
  entered _ := 0
  wakes _ := 0

def after (sched : Nat → Nat) : Nat → StridedState
  | 0 => start
  | t + 1 => step w stride (after sched t) (sched t)

end StridedState

end TeraNoC.Runtime
