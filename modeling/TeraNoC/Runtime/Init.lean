import TeraNoC.Runtime.Alloc

/-!
# The heaps at start-up (`runtime.h`, `arch.ld.c`, `link.ld`)

Core 0 sets up one allocator for the interleaved heap and one for each tile, which
gets what the stacks and the queues leave of the tile's sequential memory.
-/

namespace TeraNoC.Runtime

/-- The constants and linker symbols that `mempool_init` reads. The stacks and queues
of a tile fit its sequential memory, an address has 32 bits, and `link.ld` puts the heap
behind `__seq_end`. -/
structure HeapConfig where
  numCores : Nat
  numCoresPerTile : Nat
  numBanksPerTile : Nat
  stackSize : Nat
  seqMemSize : Nat
  /-- In words. -/
  xqueueSize : Nat
  heapStart : Nat
  heapEnd : Nat
  fits : numCoresPerTile * stackSize + numBanksPerTile * xqueueSize * 4 ≤
    numCoresPerTile * seqMemSize
  seq_lt : numCores * seqMemSize < 2 ^ 32
  seq_le : numCores * seqMemSize ≤ heapStart
  heap_aligned : 4 ∣ heapStart ∧ 4 ∣ heapEnd
  heap_le : heapStart ≤ heapEnd
  heap_lt : heapEnd < 2 ^ 32

/-- `alloc_l1`, and `alloc_tile[tile_id]`. -/
inductive AllocId where
  | l1
  | tile (tileId : Nat)
deriving DecidableEq

/-- A call of `alloc_init`. -/
structure InitCall where
  id : AllocId
  base : Nat
  size : Nat

/-- Memory, the `first_block` of each allocator, and the calls made so far. -/
structure Heaps where
  mem : Nat → Nat
  firstBlock : AllocId → Nat
  calls : List InitCall

def Heaps.allocInit (s : Heaps) (id : AllocId) (base size : Nat) : Heaps :=
  let a := Runtime.allocInit s.mem base size
  { mem := a.mem
    firstBlock := Function.update s.firstBlock id a.firstBlock
    calls := s.calls ++ [⟨id, base, size⟩] }

namespace HeapConfig

variable (c : HeapConfig)

/-- `__seq_start`, which is where L1 starts. -/
def seqStart : Nat := 0

def seqEnd : Nat := seqStart + c.numCores * c.seqMemSize

def heapSize : Nat := sub32 c.heapEnd c.heapStart

/-- The stacks, and behind them the queues. -/
def seqHeapOffset : Nat :=
  u32 (u32 (c.numCoresPerTile * c.stackSize) + u32 (u32 (c.numBanksPerTile * c.xqueueSize) * 4))

def seqTotalSize : Nat := u32 (c.numCoresPerTile * c.seqMemSize)

def seqHeapSize : Nat := sub32 c.seqTotalSize c.seqHeapOffset

/-- `mempool_get_tile_count`. -/
def tileCount : Nat := c.numCores / c.numCoresPerTile

/-- One turn of the loop over the tiles, on the heaps and `seq_heap_base`. -/
def initTile (s : Heaps × Nat) (tileId : Nat) : Heaps × Nat :=
  (s.1.allocInit (.tile tileId) s.2 c.seqHeapSize, u32 (s.2 + c.seqTotalSize))

end HeapConfig

def mempoolInit (c : HeapConfig) (coreId : Nat) (s : Heaps) : Heaps :=
  if coreId = 0 then
    let s₁ := s.allocInit .l1 c.heapStart c.heapSize
    let seqHeapBase := u32 (HeapConfig.seqStart + c.seqHeapOffset)
    ((List.range c.tileCount).foldl c.initTile (s₁, seqHeapBase)).1
  else s

/-- Before `main`: no allocator has been set up. -/
def Heaps.start (mem : Nat → Nat) (firstBlock : AllocId → Nat) : Heaps where
  mem := mem
  firstBlock := firstBlock
  calls := []

end TeraNoC.Runtime
