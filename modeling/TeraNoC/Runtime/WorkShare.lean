import Mathlib.Logic.Function.Basic
import TeraNoC.Runtime.Word

/-!
# Work-sharing constructs (`omp/work.c`, `loop.c`, `sections.c`, `single.c`)

The threads of one parallel region run through the same sequence of constructs, each
closed by a barrier of the team. All constructs share the record `works`. A step of a
thread is one access to it, or the execution of the iterations it was handed; what the
code holds `works.lock` for is as many steps as it makes accesses. The barrier itself is
ideal: it lets the team go when everybody has arrived.
-/

namespace TeraNoC.Runtime

def wsInited : Nat := 0xfeeddead
def wsNotInited : Nat := 0

/-- `work_t`; an `omp_lock_t` is only ever 0 or 1. -/
structure Works where
  end_ : Int
  next : Int
  chunkSize : Int
  incr : Int
  lock : Bool
  checkfirst : Nat
  completed : Nat
  deriving DecidableEq

def gompNewWorkShare (works : Works) : Works :=
  { works with lock := false, checkfirst := wsNotInited, completed := 0 }

/-- The arguments of `GOMP_loop_dynamic_start`. -/
structure LoopArgs where
  start : Int
  end_ : Int
  incr : Int
  chunkSize : Int
  deriving DecidableEq

def LoopArgs.chunk (a : LoopArgs) : Int := i32 (a.chunkSize * a.incr)

/-- A construct with the arguments of its start call: `GOMP_loop_dynamic_start`,
`GOMP_sections_start` or `GOMP_single_start`. -/
inductive Construct where
  | loop (a : LoopArgs)
  | sections (count : Int)
  | single
  deriving DecidableEq

/-- A store to `works` while a construct is initialised. -/
inductive WorkStore where
  | checkfirst (v : Nat)
  | completed (v : Nat)
  | chunkSize (v : Int)
  | end_ (v : Int)
  | incr (v : Int)
  | next (v : Int)
  deriving DecidableEq

def WorkStore.apply (works : Works) : WorkStore → Works
  | checkfirst v => { works with checkfirst := v }
  | completed v => { works with completed := v }
  | chunkSize v => { works with chunkSize := v }
  | end_ v => { works with end_ := v }
  | incr v => { works with incr := v }
  | next v => { works with next := v }

namespace Construct

/-- What the first thread stores: in `gomp_work_share_start`, then in `gomp_loop_init`
or `gomp_sections_init`. -/
def stores (c : Construct) : List WorkStore :=
  [.checkfirst wsInited, .completed 0] ++
    match c with
    | loop a => [.chunkSize a.chunkSize, .end_ a.end_, .incr a.incr, .next a.start]
    | sections count => [.end_ (i32 (count + 1)), .next 1, .chunkSize 1, .incr 1]
    | single => []

/-- The step from one iteration to the next; sections are numbered, and the body of a
single is one iteration. -/
def stride : Construct → Int
  | loop a => a.incr
  | sections _ | single => 1

def bounds : Construct → Int × Int
  | loop a => (a.start, a.end_)
  | sections count => (1, count + 1)
  | single => (0, 1)

/-- `x` is one of the iterations from `lo` to `hi`. -/
def Iterates (c : Construct) (lo hi x : Int) : Prop :=
  c.stride ∣ x - lo ∧ if 0 < c.stride then lo ≤ x ∧ x < hi else hi < x ∧ x ≤ lo

instance (c : Construct) (lo hi x : Int) : Decidable (c.Iterates lo hi x) :=
  inferInstanceAs (Decidable (_ ∧ _))

/-- `x` is an iteration, or the number of a section, of the construct. -/
def Has (c : Construct) (x : Int) : Prop := c.Iterates c.bounds.1 c.bounds.2 x

instance (c : Construct) (x : Int) : Decidable (c.Has x) :=
  inferInstanceAs (Decidable (c.Iterates _ _ x))

end Construct

/-- Where a thread is in the current construct, with the local variables still read. -/
inductive WorkPc where
  /-- At `gomp_hal_lock` of the start call. -/
  | start
  | enter
  | init (stores : List WorkStore)
  /-- `gomp_work_share_start` has returned. -/
  | started (ret : Bool)
  /-- Sections: about to write `works.next`. -/
  | storeNext (start end_ : Int)
  /-- Single: `works.completed` has been incremented. -/
  | added (ret : Bool)
  | reset (ret : Bool)
  | unlock (after : WorkPc)
  | fetch (chunk : Int)
  | fetched (start chunk : Int)
  | body (lo hi : Int)
  | loopNext
  /-- At `gomp_hal_lock` of `GOMP_sections_next`. -/
  | sectionsNext
  | sectionsLocked
  | barrier
  deriving DecidableEq

/-- What happened in a construct: the threads in the order in which they took the lock
of the start call, who initialised the record and what it held then, and who executed
which iterations. -/
structure ConstructLog where
  entered : List Nat
  inits : List (Nat × Works)
  ran : List (Nat × Int × Int)

def ConstructLog.empty : ConstructLog := ⟨[], [], []⟩

/-- The current construct is the one after those whose logs are in `past`. -/
structure WorkState where
  works : Works
  pc : Nat → WorkPc
  log : ConstructLog
  past : List ConstructLog

/-- `event.nthreads`, and the constructs of the region. -/
structure WorkRegion where
  nthreads : Nat
  prog : List Construct

namespace WorkState

variable (s : WorkState)

def goto (i : Nat) (pc : WorkPc) : WorkState := { s with pc := Function.update s.pc i pc }

/-- What is known of construct `k`. -/
def logOf (k : Nat) : ConstructLog := (s.past ++ [s.log]).getD k .empty

/-- Thread `i` has called the barrier that closes construct `k`. -/
def Finished (i k : Nat) : Prop :=
  k < s.past.length ∨ k = s.past.length ∧ s.pc i = .barrier

instance (i k : Nat) : Decidable (s.Finished i k) := inferInstanceAs (Decidable (_ ∨ _))

end WorkState

namespace WorkRegion

variable (r : WorkRegion)

/-- After `GOMP_sections_start` or `GOMP_sections_next` returned `ret`. -/
def sectionPc (ret : Int) : WorkPc := if ret = 0 then .barrier else .body ret (ret + 1)

def singlePc (ret : Bool) : WorkPc := if ret then .body 0 1 else .barrier

def afterBody : Construct → WorkPc
  | .loop _ => .loopNext
  | .sections _ => .sectionsNext
  | .single => .barrier

/-- A step of thread `i` in construct `c`. -/
def stepIn (c : Construct) (s : WorkState) (i : Nat) : WorkState :=
  match s.pc i with
  | .start =>
      if s.works.lock then s
      else
        { s.goto i .enter with
          works.lock := true
          log.entered := s.log.entered ++ [i] }
  | .enter =>
      if s.works.checkfirst ≠ wsInited then s.goto i (.init c.stores)
      else s.goto i (.started false)
  | .init [] =>
      { s.goto i (.started true) with log.inits := s.log.inits ++ [(i, s.works)] }
  | .init (w :: stores) => { s.goto i (.init stores) with works := w.apply s.works }
  | .started ret =>
      match c with
      | .loop a => s.goto i (.unlock (.fetch a.chunk))
      | .sections _ =>
          if s.works.next ≠ s.works.end_ then
            s.goto i (.storeNext s.works.next (i32 (s.works.next + 1)))
          else s.goto i (.unlock .barrier)
      | .single =>
          { s.goto i (.added ret) with works.completed := u32 (s.works.completed + 1) }
  | .storeNext start end_ =>
      { s.goto i (.unlock (sectionPc start)) with works.next := end_ }
  | .added ret =>
      if s.works.completed = r.nthreads then s.goto i (.reset ret)
      else s.goto i (.unlock (singlePc ret))
  | .reset ret =>
      { s.goto i (.unlock (singlePc ret)) with works.checkfirst := wsNotInited }
  | .unlock after => { s.goto i after with works.lock := false }
  | .fetch chunk =>
      { s.goto i (.fetched s.works.next chunk) with works.next := i32 (s.works.next + chunk) }
  | .fetched start chunk =>
      if start ≥ s.works.end_ then s.goto i .barrier
      else
        let left := i32 (s.works.end_ - start)
        s.goto i (.body start (if chunk > left then s.works.end_ else i32 (start + chunk)))
  | .body lo hi =>
      { s.goto i (afterBody c) with log.ran := s.log.ran ++ [(i, lo, hi)] }
  | .loopNext => s.goto i (.fetch (i32 (s.works.chunkSize * s.works.incr)))
  | .sectionsNext =>
      if s.works.lock then s else { s.goto i .sectionsLocked with works.lock := true }
  | .sectionsLocked =>
      if s.works.next = s.works.end_ then s.goto i (.unlock .barrier)
      else
        let chunk := i32 (s.works.chunkSize * s.works.incr)
        let left := i32 (s.works.end_ - s.works.next)
        s.goto i (.storeNext s.works.next
          (i32 (s.works.next + if chunk > left then left else chunk)))
  | .barrier =>
      if ∀ j < r.nthreads, s.pc j = .barrier then
        { s with pc := fun _ => .start, log := .empty, past := s.past ++ [s.log] }
      else s

def step (s : WorkState) (i : Nat) : WorkState :=
  match r.prog[s.past.length]? with
  | some c => if i < r.nthreads then r.stepIn c s i else s
  | none => s

/-- `GOMP_parallel` calls `gomp_new_work_share` before it starts the team. -/
def start (works : Works) : WorkState where
  works := gompNewWorkShare works
  pc := fun _ => .start
  log := .empty
  past := []

def after (works : Works) (sched : Nat → Nat) : Nat → WorkState
  | 0 => start works
  | t + 1 => r.step (after works sched t) (sched t)

end WorkRegion

end TeraNoC.Runtime
