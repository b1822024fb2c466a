import TeraNoC.Lib.LinkedList
import TeraNoC.Runtime.Word

/-!
# The heap allocator (`alloc.c`)

First fit on an address-ordered list of free blocks, which is threaded through the
heap itself: a free block starts with its size and the address of the next one. An
allocated block starts with a word that packs its size with a canary, and the
pointer handed out is behind it.

Memory is a function from word addresses to words. The two searches follow pointers
found in memory, so they take fuel; `none` is a search that did not end.
-/

namespace TeraNoC.Runtime

open TeraNoC.Lib

/-- `alloc_t`, and the memory it manages. -/
structure Alloc where
  firstBlock : Nat
  mem : Nat → Nat

/-- `MIN_BLOCK_SIZE`, and where the `next` of an `alloc_block_t` is. -/
def minBlockSize : Nat := 8
def nextField : Nat := 4

def alignUp (addr size : Nat) : Nat := sub32 (u32 (addr + size)) 1 &&& not32 (sub32 size 1)

def alignDown (addr size : Nat) : Nat := addr &&& not32 (sub32 size 1)

def canary (ptr : Nat) : Nat := ptr &&& 0xff

def canaryEncode (ptr size : Nat) : Nat := u32 (size <<< 8) ||| canary ptr

structure CanaryAndSize where
  size : Nat
  canary : Nat

def canaryDecode (value : Nat) : CanaryAndSize where
  size := value >>> 8
  canary := value &&& 0xff

def allocInit (mem : Nat → Nat) (base size : Nat) : Alloc :=
  let alignedBase := alignUp base minBlockSize
  let blockSize := alignDown (sub32 size (sub32 alignedBase base)) minBlockSize
  { firstBlock := alignedBase
    mem := Function.update (Function.update mem alignedBase blockSize)
      (alignedBase + nextField) 0 }

namespace Alloc

variable (a : Alloc)

def write (addr v : Nat) : Alloc := { a with mem := Function.update a.mem addr v }

/-- The pointer to a block: `prev->next`, or the allocator's first block. -/
def setNext (prev block : Nat) : Alloc :=
  if prev ≠ 0 then a.write (prev + nextField) block else { a with firstBlock := block }

/-- The allocator after, and the block pointer. -/
def allocateMemory (fuel size : Nat) : Option (Alloc × Nat) :=
  (walk a.mem nextField (fun curr => a.mem curr < size) fuel a.firstBlock 0).map fun (curr, prev) =>
    if curr ≠ 0 then
      if a.mem curr = size then (a.setNext prev (a.mem (curr + nextField)), curr)
      else
        let newBlock := u32 (curr + size)
        let a₁ := a.write newBlock (sub32 (a.mem curr) size)
        let a₂ := a₁.write (newBlock + nextField) (a₁.mem (curr + nextField))
        (a₂.setNext prev newBlock, curr)
    else (a, 0)

/-- The allocator after, and the data pointer. -/
def domainMalloc (fuel size : Nat) : Option (Alloc × Nat) :=
  let dataSize := u32 (size + 4)
  let blockSize := alignUp dataSize minBlockSize
  if blockSize ≥ 2 ^ 24 then some (a, 0)
  else
    (a.allocateMemory fuel blockSize).map fun (a', blockPtr) =>
      if blockPtr = 0 then (a', 0)
      else (a'.write blockPtr (canaryEncode blockPtr blockSize), u32 (blockPtr + 4))

/-- The block with the one behind it, if they touch. -/
def connectNext (blockPtr size next : Nat) : Alloc :=
  if u32 (blockPtr + size) = next then
    let a₁ := a.write blockPtr (u32 (size + a.mem next))
    a₁.write (blockPtr + nextField) (a₁.mem (next + nextField))
  else (a.write blockPtr size).write (blockPtr + nextField) next

/-- The block with the one before it, if they touch. -/
def connectPrev (blockPtr prev : Nat) : Alloc :=
  if prev ≠ 0 then
    if u32 (prev + a.mem prev) = blockPtr then
      let a₁ := a.write prev (u32 (a.mem prev + a.mem blockPtr))
      a₁.write (prev + nextField) (a₁.mem (blockPtr + nextField))
    else a.write (prev + nextField) blockPtr
  else { a with firstBlock := blockPtr }

def freeMemory (fuel ptr size : Nat) : Option Alloc :=
  (walk a.mem nextField (fun next => next < ptr) fuel a.firstBlock 0).map fun (next, prev) =>
    (a.connectNext ptr size next).connectPrev ptr prev

def domainFree (fuel ptr : Nat) : Option Alloc :=
  let blockPtr := sub32 ptr 4
  let cs := canaryDecode (a.mem blockPtr)
  if cs.canary ≠ canary blockPtr then some a
  else a.freeMemory fuel blockPtr cs.size

end Alloc

/-! ## A program that uses the allocator -/

/-- A pointer that `domain_malloc` returned for a request of `size` bytes. -/
structure Live where
  ptr : Nat
  size : Nat

structure Heap where
  alloc : Alloc
  live : List Live

/-- A call of `domain_malloc`, of `domain_free` on the `i`-th live pointer, or a
store to word `k` of its payload. -/
inductive HeapOp where
  | malloc (size : Nat)
  | free (i : Nat)
  | store (i k v : Nat)

def Heap.step (fuel : Nat) (s : Heap) : HeapOp → Option Heap
  | .malloc size =>
      (s.alloc.domainMalloc fuel size).map fun (a, ptr) =>
        { alloc := a, live := if ptr = 0 then s.live else ⟨ptr, size⟩ :: s.live }
  | .free i =>
      match s.live[i]? with
      | none => some s
      | some l => (s.alloc.domainFree fuel l.ptr).map fun a =>
          { alloc := a, live := s.live.eraseIdx i }
  | .store i k v =>
      match s.live[i]? with
      | none => some s
      | some l =>
          if 4 * k < l.size then some { s with alloc := s.alloc.write (l.ptr + 4 * k) (u32 v) }
          else some s

def Heap.run (fuel : Nat) (s : Heap) : List HeapOp → Option Heap
  | [] => some s
  | op :: ops => (s.step fuel op).bind fun s' => s'.run fuel ops

def Heap.start (mem : Nat → Nat) (base size : Nat) : Heap where
  alloc := allocInit mem base size
  live := []

/-! ## A program that follows its pointers

Neither a call nor an access checks that a pointer is not NULL. An access outside of the
payloads of the live blocks, such as one through NULL, is undefined, and `none` here.
-/

namespace Heap

variable (h : Heap)

/-- The heap after, and the pointer. -/
def simpleMalloc (fuel size : Nat) : Option (Heap × Nat) :=
  (h.alloc.domainMalloc fuel size).map fun (a, ptr) =>
    ({ alloc := a, live := if ptr = 0 then h.live else ⟨ptr, size⟩ :: h.live }, ptr)

/-- The pointers that calls of `simple_malloc` return, one after the other. -/
def mallocs (fuel : Nat) : Heap → List Nat → Option (List Nat)
  | _, [] => some []
  | h, size :: sizes =>
      (h.simpleMalloc fuel size).bind fun (h', ptr) => (h'.mallocs fuel sizes).map (ptr :: ·)

/-- `addr` is a word of a live block. -/
def valid (addr : Nat) : Bool :=
  h.live.any fun l => decide (l.ptr ≤ addr ∧ addr + 4 ≤ l.ptr + l.size ∧ 4 ∣ addr - l.ptr)

def write (addr v : Nat) : Heap := { h with alloc := h.alloc.write addr v }

def load (addr : Nat) : Option Nat := if h.valid addr then some (h.alloc.mem addr) else none

def store (addr v : Nat) : Option Heap := if h.valid addr then some (h.write addr v) else none

end Heap

end TeraNoC.Runtime
