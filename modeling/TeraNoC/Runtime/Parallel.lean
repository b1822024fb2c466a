import Mathlib.Logic.Function.Basic
import TeraNoC.Runtime.Word

/-!
# Parallel regions (`omp/parallel.c`, `omp/barrier.c`)

Core 0 calls `GOMP_parallel` once for each region of a list; the other cores run
`while (1) { mempool_wfi(); run_task(core_id); }`. The function of a region is as many
calls of `GOMP_barrier` as the region says, with local work between them.

A step of a core is one access to shared memory, a store to the wake-up register or a
WFI. A wake-up travels to each core on its own; at the core it ends the core's sleep,
or is counted in `wake_up_q` if the core is awake.
-/

namespace TeraNoC.Runtime

/-- `event_t`. The function and its argument are named by the region they are from. -/
structure TaskEvent where
  fn : Nat
  data : Nat
  nthreads : Nat
  barrier : Nat
  threadPool : Nat → Nat

/-- A call of `GOMP_parallel`: `num_threads`, and how often its function calls
`GOMP_barrier`. -/
structure ParallelCall where
  numThreads : Nat
  barriers : Nat

/-- A call of `event.fn(event.data)` with its calls of `GOMP_barrier` still to come. -/
structure TaskFrame where
  fn : Nat
  data : Nat
  barriers : Nat
  deriving DecidableEq

inductive TaskPc where
  /-- The stores of `set_event`, in order. -/
  | setFn
  | setData
  | setNthreads
  | setBarrier
  | setPool (i : Nat)
  | wakeUpAll (next : TaskPc)
  | wfi (next : TaskPc)
  /-- The loads of `run_task`. -/
  | test
  | loadFn
  | loadData (fn : Nat)
  | body (f : TaskFrame)
  /-- In `mempool_barrier_gomp`: core 0 is about to clear the counter. -/
  | gompStore (numCores : Nat) (f : TaskFrame)
  | fetchAdd (numCores : Nat) (f : TaskFrame)
  | clear (f : TaskFrame)
  | dec
  /-- `GOMP_parallel_end`. -/
  | spin
  | done
  deriving DecidableEq

/-- A core: where it is, `wfi_q` and `wake_up_q` of `snitch.sv`, and the wake-ups on
their way to it. -/
structure TaskCore where
  pc : TaskPc
  asleep : Bool
  wakeUp : Nat
  inFlight : Nat

/-- `region` is the call of `GOMP_parallel` in progress; `begun` and `ended` are the
calls of `event.fn(event.data)` and the returns from them. -/
structure TeamState where
  region : Nat
  event : TaskEvent
  barrier : Nat
  core : Nat → TaskCore
  begun : List (Nat × Nat × Nat)
  ended : List (Nat × Nat × Nat)

/-- A core makes a step, or a wake-up reaches it. -/
inductive TeamEvent where
  | core (i : Nat)
  | pulse (i : Nat)

/-- `NUM_CORES`, and the calls core 0 makes. -/
structure TeamProgram where
  numCores : Nat
  calls : List ParallelCall

def TeamState.setCore (s : TeamState) (i : Nat) (c : TaskCore) : TeamState :=
  { s with core := Function.update s.core i c }

def TeamState.goto (s : TeamState) (i : Nat) (pc : TaskPc) : TeamState :=
  s.setCore i { s.core i with pc := pc }

/-- `OutstandingWfi` of `snitch.sv`. -/
def outstandingWfi : Nat := 8

/-- Nothing ever stores to `barrier_init_gomp`. -/
def barrierInitGomp : Nat := 0

namespace TeamProgram

variable (p : TeamProgram)

/-- The team of region `k`, as `set_event` computes it. -/
def team (k : Nat) : Nat :=
  match p.calls[k]? with
  | some c => if c.numThreads = 0 then p.numCores else c.numThreads
  | none => 0

def barriersOf (fn : Nat) : Nat := (p.calls[fn]?.map ParallelCall.barriers).getD 0

/-- After `run_task`: core 0 is in `GOMP_parallel`, the others are in their loop. -/
def afterTask (i : Nat) : TaskPc := if i = 0 then .spin else .wfi .test

/-- The head of the list of calls: the next one, or the end of the program. -/
def nextCall (k : Nat) : TaskPc := if k < p.calls.length then .setFn else .done

/-- `GOMP_barrier`, which reads `event.nthreads`. -/
def gompBarrier (i numCores : Nat) (f : TaskFrame) : TaskPc :=
  if barrierInitGomp = 0 then
    if i = 0 then .gompStore numCores f else .wfi (.fetchAdd numCores f)
  else .fetchAdd numCores f

def stepCore (s : TeamState) (i : Nat) : TeamState :=
  match (s.core i).pc with
  | .setFn => { s.goto i .setData with event.fn := s.region }
  | .setData => { s.goto i .setNthreads with event.data := s.region }
  | .setNthreads => { s.goto i .setBarrier with event.nthreads := p.team s.region }
  | .setBarrier => { s.goto i (.setPool 0) with event.barrier := p.team s.region }
  | .setPool j =>
      if j < p.numCores then
        { s.goto i (.setPool (j + 1)) with
          event.threadPool :=
            Function.update s.event.threadPool j (if j < s.event.nthreads then 1 else 0) }
      else s.goto i (.wakeUpAll (.wfi .test))
  | .wakeUpAll next =>
      { s with
        core := fun j =>
          let c := Function.update s.core i { s.core i with pc := next } j
          if j < p.numCores then { c with inFlight := c.inFlight + 1 } else c }
  | .wfi next =>
      if 0 < (s.core i).wakeUp then
        s.setCore i { s.core i with pc := next, wakeUp := (s.core i).wakeUp - 1 }
      else s.setCore i { s.core i with asleep := true }
  | .test => s.goto i (if s.event.threadPool i ≠ 0 then .loadFn else afterTask i)
  | .loadFn => s.goto i (.loadData s.event.fn)
  | .loadData fn =>
      { s.goto i (.body ⟨fn, s.event.data, p.barriersOf fn⟩) with
        begun := s.begun ++ [(i, fn, s.event.data)] }
  | .body f =>
      match f.barriers with
      | 0 => { s.goto i .dec with ended := s.ended ++ [(i, f.fn, f.data)] }
      | b + 1 => s.goto i (gompBarrier i s.event.nthreads { f with barriers := b })
  | .gompStore numCores f =>
      { s.goto i (.wakeUpAll (.wfi (.fetchAdd numCores f))) with barrier := 0 }
  | .fetchAdd numCores f =>
      { s.goto i (if sub32 numCores 1 = s.barrier then .clear f else .wfi (.body f)) with
        barrier := u32 (s.barrier + 1) }
  | .clear f => { s.goto i (.wakeUpAll (.wfi (.body f))) with barrier := 0 }
  | .dec => { s.goto i (afterTask i) with event.barrier := sub32 s.event.barrier 1 }
  | .spin =>
      if s.event.barrier > 0 then s
      else { s.goto i (p.nextCall (s.region + 1)) with region := s.region + 1 }
  | .done => s

/-- A core that sleeps is behind its WFI when it wakes up. -/
def woken : TaskPc → TaskPc
  | .wfi next => next
  | pc => pc

/-- A wake-up arrives. -/
def pulse (c : TaskCore) : TaskCore :=
  if c.inFlight = 0 then c
  else if c.asleep then
    { c with pc := woken c.pc, asleep := false, inFlight := c.inFlight - 1 }
  else
    { c with
      inFlight := c.inFlight - 1
      wakeUp := (c.wakeUp + 1) % outstandingWfi }

def step (s : TeamState) : TeamEvent → TeamState
  | .core i => if i < p.numCores ∧ (s.core i).asleep = false then p.stepCore s i else s
  | .pulse i => if i < p.numCores then s.setCore i (pulse (s.core i)) else s

/-- Core 0 is about to make its first call, the others have reached their loop. -/
def start (event : TaskEvent) (barrier : Nat) : TeamState where
  region := 0
  event := event
  barrier := barrier
  core := fun i => ⟨if i = 0 then p.nextCall 0 else .wfi .test, false, 0, 0⟩
  begun := []
  ended := []

def run (s : TeamState) (events : List TeamEvent) : TeamState := events.foldl p.step s

end TeamProgram

end TeraNoC.Runtime
