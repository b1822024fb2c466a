import Mathlib.Logic.Function.Basic
import TeraNoC.Runtime.Word

/-!
# The systolic queues (`kernels/systolic/queue.h`, `queue_multi.h`)

Two queues between one producer and one consumer. The first has a head and a tail
and keeps one slot open; the second counts its entries, which are of several words.
A step is one load, store or atomic of one of the cores. A core that is between two
calls begins the one its next move names.

`pushed` and `popped` list the entries of the calls that have returned 0, in their
order, and `stores` counts the stores to the queue of the call a core is in. The
`counting_` calls are the blocking ones with a count of their rounds, which stays with
the caller.
-/

namespace TeraNoC.Systolic

open TeraNoC.Runtime

/-- The next step is the producer's or the consumer's. `blocking` and `data` are of the
call it begins if it is between two. -/
inductive Move (ε : Type) where
  | producer (blocking : Bool) (data : ε)
  | consumer (blocking : Bool)

/-! ## `queue.h` -/

inductive PushPc (α : Type) where
  | idle
  | loadTail (blocking : Bool) (data : α)
  | loadHead (blocking : Bool) (data : α) (currentTail nextTail : Nat)
  | storeData (data : α) (currentTail nextTail : Nat)
  | storeTail (data : α) (nextTail : Nat)

inductive PopPc (α : Type) where
  | idle
  | loadHead (blocking : Bool)
  | loadTail (blocking : Bool) (currentHead : Nat)
  | loadData (currentHead : Nat)
  | storeHead (data : α) (currentHead : Nat)

structure Queue (α : Type) where
  array : Nat → α
  head : Nat
  tail : Nat
  producer : PushPc α
  consumer : PopPc α
  pushed : List α
  popped : List α
  pushStores : Nat
  popStores : Nat

namespace Queue

variable {α : Type} (size : Nat)

/-- `queue_create`, with anything in the array. -/
def create (array : Nat → α) : Queue α where
  array := array
  head := 0
  tail := 0
  producer := .idle
  consumer := .idle
  pushed := []
  popped := []
  pushStores := 0
  popStores := 0

/-- A step of `queue_push`, or of `blocking_queue_push` that calls it until it returns 0. -/
def stepPush (s : Queue α) (blocking : Bool) (data : α) : Queue α :=
  match s.producer with
  | .idle => { s with producer := .loadTail blocking data, pushStores := 0 }
  | .loadTail blocking data =>
      { s with producer := .loadHead blocking data s.tail (u32 (s.tail + 1) % size) }
  | .loadHead blocking data currentTail nextTail =>
      if nextTail = s.head then
        { s with producer := if blocking then .loadTail blocking data else .idle }
      else { s with producer := .storeData data currentTail nextTail }
  | .storeData data currentTail nextTail =>
      { s with
        array := Function.update s.array currentTail data
        producer := .storeTail data nextTail
        pushStores := s.pushStores + 1 }
  | .storeTail data nextTail =>
      { s with
        tail := nextTail
        producer := .idle
        pushed := s.pushed ++ [data]
        pushStores := s.pushStores + 1 }

/-- A step of `queue_pop` or `blocking_queue_pop`. -/
def stepPop (s : Queue α) (blocking : Bool) : Queue α :=
  match s.consumer with
  | .idle => { s with consumer := .loadHead blocking, popStores := 0 }
  | .loadHead blocking => { s with consumer := .loadTail blocking s.head }
  | .loadTail blocking currentHead =>
      if currentHead = s.tail then
        { s with consumer := if blocking then .loadHead blocking else .idle }
      else { s with consumer := .loadData currentHead }
  | .loadData currentHead => { s with consumer := .storeHead (s.array currentHead) currentHead }
  | .storeHead data currentHead =>
      { s with
        head := u32 (currentHead + 1) % size
        consumer := .idle
        popped := s.popped ++ [data]
        popStores := s.popStores + 1 }

def step (s : Queue α) : Move α → Queue α
  | .producer blocking data => s.stepPush size blocking data
  | .consumer blocking => s.stepPop size blocking

/-- The next step of the producer returns 1. -/
def pushFails (s : Queue α) : Bool :=
  match s.producer with
  | .loadHead false _ _ nextTail => nextTail == s.head
  | _ => false

/-- The next step of the consumer returns 1. -/
def popFails (s : Queue α) : Bool :=
  match s.consumer with
  | .loadTail false currentHead => currentHead == s.tail
  | _ => false

/-- What is stored, from the head to the tail. -/
def contents (s : Queue α) : List α :=
  (List.range ((s.tail + size - s.head) % size)).map fun k => s.array ((s.head + k) % size)

end Queue

/-! ## `queue_multi.h` -/

/-- The number of words in a queue entry. -/
def dataSize : Nat := 4

abbrev Entry (α : Type) : Type := Fin dataSize → α

inductive MultiPushPc (α : Type) where
  | idle
  | loadTail (blocking : Bool) (data : Entry α)
  | loadCounter (blocking : Bool) (data : Entry α) (currentTail : Nat)
  | storeData (data : Entry α) (currentTail : Nat) (i : Fin dataSize)
  | storeTail (data : Entry α) (currentTail : Nat)
  | fetchAdd (data : Entry α)

/-- `data` is what the caller's array holds. -/
inductive MultiPopPc (α : Type) where
  | idle
  | loadHead (blocking : Bool)
  | loadCounter (blocking : Bool) (currentHead : Nat)
  | loadData (data : Entry α) (currentHead : Nat) (i : Fin dataSize)
  | storeHead (data : Entry α) (currentHead : Nat)
  | fetchSub (data : Entry α)

structure MultiQueue (α : Type) where
  buffer : Nat → α
  head : Nat
  tail : Nat
  counter : Nat
  producer : MultiPushPc α
  consumer : MultiPopPc α
  /-- The consumer's array, between two calls. -/
  data : Entry α
  pushed : List (Entry α)
  popped : List (Entry α)
  pushStores : Nat
  popStores : Nat

namespace MultiQueue

variable {α : Type} (xqueueSize : Nat)

def create (buffer : Nat → α) (data : Entry α) : MultiQueue α where
  buffer := buffer
  head := 0
  tail := 0
  counter := 0
  producer := .idle
  consumer := .idle
  data := data
  pushed := []
  popped := []
  pushStores := 0
  popStores := 0

/-- The head of the copying loop of a push. -/
def pushLoop (data : Entry α) (currentTail i : Nat) : MultiPushPc α :=
  if h : i < dataSize then .storeData data currentTail ⟨i, h⟩ else .storeTail data currentTail

def popLoop (data : Entry α) (currentHead i : Nat) : MultiPopPc α :=
  if h : i < dataSize then .loadData data currentHead ⟨i, h⟩ else .storeHead data currentHead

/-- A step of `queue_push` or `blocking_queue_push`. -/
def stepPush (s : MultiQueue α) (blocking : Bool) (data : Entry α) : MultiQueue α :=
  match s.producer with
  | .idle => { s with producer := .loadTail blocking data, pushStores := 0 }
  | .loadTail blocking data => { s with producer := .loadCounter blocking data s.tail }
  | .loadCounter blocking data currentTail =>
      if s.counter = xqueueSize then
        { s with producer := if blocking then .loadCounter blocking data currentTail else .idle }
      else { s with producer := pushLoop data currentTail 0 }
  | .storeData data currentTail i =>
      { s with
        buffer := Function.update s.buffer (currentTail + i) (data i)
        producer := pushLoop data currentTail (i + 1)
        pushStores := s.pushStores + 1 }
  | .storeTail data currentTail =>
      { s with
        tail := u32 (currentTail + dataSize) % (xqueueSize * dataSize)
        producer := .fetchAdd data
        pushStores := s.pushStores + 1 }
  | .fetchAdd data =>
      { s with
        counter := u32 (s.counter + 1)
        producer := .idle
        pushed := s.pushed ++ [data]
        pushStores := s.pushStores + 1 }

/-- A step of `queue_pop` or `blocking_queue_pop`. -/
def stepPop (s : MultiQueue α) (blocking : Bool) : MultiQueue α :=
  match s.consumer with
  | .idle => { s with consumer := .loadHead blocking, popStores := 0 }
  | .loadHead blocking => { s with consumer := .loadCounter blocking s.head }
  | .loadCounter blocking currentHead =>
      if s.counter = 0 then
        { s with consumer := if blocking then .loadCounter blocking currentHead else .idle }
      else { s with consumer := popLoop s.data currentHead 0 }
  | .loadData data currentHead i =>
      { s with
        consumer := popLoop (Function.update data i (s.buffer (currentHead + i))) currentHead
          (i + 1) }
  | .storeHead data currentHead =>
      { s with
        head := u32 (currentHead + dataSize) % (xqueueSize * dataSize)
        consumer := .fetchSub data
        popStores := s.popStores + 1 }
  | .fetchSub data =>
      { s with
        counter := sub32 s.counter 1
        consumer := .idle
        data := data
        popped := s.popped ++ [data]
        popStores := s.popStores + 1 }

def step (s : MultiQueue α) : Move (Entry α) → MultiQueue α
  | .producer blocking data => s.stepPush xqueueSize blocking data
  | .consumer blocking => s.stepPop xqueueSize blocking

def pushFails (s : MultiQueue α) : Bool :=
  match s.producer with
  | .loadCounter false _ _ => s.counter == xqueueSize
  | _ => false

def popFails (s : MultiQueue α) : Bool :=
  match s.consumer with
  | .loadCounter false _ => s.counter == 0
  | _ => false

/-- What is stored: as many entries as the counter says, from the first that was not
popped on. -/
def contents (s : MultiQueue α) : List (Entry α) :=
  (List.range s.counter).map fun k i =>
    s.buffer (dataSize * ((s.popped.length + k) % xqueueSize) + i)

end MultiQueue

end TeraNoC.Systolic
