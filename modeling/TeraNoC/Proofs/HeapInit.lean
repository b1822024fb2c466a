import TeraNoC.Proofs.Alloc
import TeraNoC.Runtime.Init

/-!
# Which configurations initialise their heaps safely

`alloc_init` stores the header of its first block before anything has checked that
there is room for it. If the region has an aligned block the header is inside and the
list is that block; if it has none, the header is behind the region. In the default
configuration the stacks take a tile's whole sequential memory, so the region of every
tile is empty and its header lands at the start of the next tile's.

The null pointer ends a list, so a region that starts at address zero has a block
that its list does not show.
-/

namespace TeraNoC.Runtime

open TeraNoC.Lib

/-! ## What is asked of the initialisation -/

/-- The free list of `a` holds every byte of the aligned part of the region once, and
no other byte: it is empty if no aligned block fits. -/
def FreeListIs (a : Alloc) (base size : Nat) : Prop :=
  ∃ free, Seg a.mem nextField a.firstBlock free 0 ∧
    ∀ x, (free.map (freeBlock a.mem)).countP (·.has x)
      = if (base + 7) / 8 * 8 ≤ x ∧ x < (base + size) / 8 * 8 then 1 else 0

/-- No byte of the region that a call hands over is in the sequential memory of the tile. -/
def HeapConfig.Avoids (c : HeapConfig) (call : InitCall) (tileId : Nat) : Prop :=
  ∀ x, call.base ≤ x → x < call.base + call.size →
    ¬ (HeapConfig.seqStart + tileId * (c.numCoresPerTile * c.seqMemSize) ≤ x ∧
      x < HeapConfig.seqStart + (tileId + 1) * (c.numCoresPerTile * c.seqMemSize))

/-- What `mempool_init` does from memory `mem`. A word that `alloc_init` writes is one
that some memory has changed by it. The lists are looked at when their call returns,
and again in the end. -/
structure InitSafe (c : HeapConfig) (s : Heaps) : Prop where
  writes : ∀ call ∈ s.calls, ∀ mem addr, (allocInit mem call.base call.size).mem addr ≠ mem addr →
    call.base ≤ addr ∧ addr + 4 ≤ call.base + call.size
  list : ∀ call ∈ s.calls, ∀ mem,
    FreeListIs (allocInit mem call.base call.size) call.base call.size
  list_end : ∀ call ∈ s.calls, FreeListIs ⟨s.firstBlock call.id, s.mem⟩ call.base call.size
  heap_apart : ∀ call ∈ s.calls, call.id = .l1 → ∀ t < c.tileCount, c.Avoids call t
  tile_apart : ∀ call ∈ s.calls, ∀ i, call.id = .tile i → ∀ t < c.tileCount, t ≠ i →
    c.Avoids call t

/-- The region does not start at the null pointer and has room for an aligned block. -/
def HasBlock (base size : Nat) : Prop := 0 < base ∧ (base + 7) / 8 * 8 + 8 ≤ base + size

/-- The heap and what is left of each tile's sequential memory have a block. -/
def HeapConfig.Roomy (c : HeapConfig) : Prop :=
  HasBlock c.heapStart (c.heapEnd - c.heapStart) ∧
    ∀ t < c.tileCount,
      let total := c.numCoresPerTile * c.seqMemSize
      let offset := c.numCoresPerTile * c.stackSize + c.numBanksPerTile * c.xqueueSize * 4
      HasBlock (t * total + offset) (total - offset)

/-! ## One call -/

/-- The region of a call that has a block. -/
def HasBlock.region {base size : Nat} (h : HasBlock base size) (hend : base + size < 2 ^ 32) :
    Region where
  base := base
  size := size
  base_pos := h.1
  end_lt := hend
  holds := h.2

/-- Memory in which the list that starts at `first` is the one block of `R`. -/
structure OneBlock (R : Region) (first : Nat) (mem : Nat → Nat) : Prop where
  first : first = R.lo
  size : mem R.lo = R.hi - R.lo
  last : mem (R.lo + nextField) = 0

theorem OneBlock.freeListIs {R : Region} {first : Nat} {mem : Nat → Nat}
    (h : OneBlock R first mem) : FreeListIs ⟨first, mem⟩ R.base R.size := by
  have hpos := R.lo_pos
  have hlt := R.lo_lt_hi
  refine ⟨[R.lo], ⟨h.first, by omega, h.last⟩, fun x => ?_⟩
  have hblock := has_iff (a := R.lo) (n := R.hi - R.lo) (x := x)
  rw [Nat.add_sub_cancel' (by omega)] at hblock
  show List.countP _ [Block.mk R.lo (mem R.lo)] = _
  rw [h.size, List.countP_singleton]
  simp only [hblock]
  rfl

theorem allocInit_oneBlock (R : Region) (mem : Nat → Nat) :
    OneBlock R (allocInit mem R.base R.size).firstBlock (allocInit mem R.base R.size).mem := by
  have hne : R.lo ≠ R.lo + nextField := by simp [nextField]
  rw [allocInit_eq]
  exact ⟨rfl, (Function.update_of_ne hne ..).trans (Function.update_self ..),
    Function.update_self ..⟩

theorem allocInit_of_ne (R : Region) (mem : Nat → Nat) {addr : Nat} (h : addr ≠ R.lo)
    (h' : addr ≠ R.lo + nextField) : (allocInit mem R.base R.size).mem addr = mem addr := by
  rw [allocInit_eq]
  exact (Function.update_of_ne h' ..).trans (Function.update_of_ne h ..)

theorem Region.header_inside (R : Region) :
    R.base ≤ R.lo ∧ R.lo + nextField + 4 ≤ R.base + R.size := by
  have hholds := R.holds
  rw [Region.lo, nextField]
  omega

theorem allocInit_writes (R : Region) (mem : Nat → Nat) {addr : Nat}
    (h : (allocInit mem R.base R.size).mem addr ≠ mem addr) :
    R.base ≤ addr ∧ addr + 4 ≤ R.base + R.size := by
  have hin := R.header_inside
  have hcases : addr = R.lo ∨ addr = R.lo + nextField := by
    by_contra hne
    rw [not_or] at hne
    exact h (allocInit_of_ne R mem hne.1 hne.2)
  rw [nextField] at hin hcases
  omega

/-- A call whose writes are inside its region, and whose list is the region, has a block. -/
theorem hasBlock_of_safe {base size : Nat}
    (hwrites : ∀ mem addr, (allocInit mem base size).mem addr ≠ mem addr →
      base ≤ addr ∧ addr + 4 ≤ base + size)
    (hlist : ∀ mem, FreeListIs (allocInit mem base size) base size) : HasBlock base size := by
  -- Whatever the two words of the header are, some memory does not hold them already.
  have hup := alignUp_mod base
  generalize hfirst : alignUp base minBlockSize = first at hup
  have hhead : base ≤ first := by
    refine (hwrites (fun _ => (allocInit (fun _ => 0) base size).mem first + 1) first ?_).1
    have hne : first ≠ first + nextField := by simp [nextField]
    simp only [allocInit, hfirst, Function.update_of_ne hne, Function.update_self]
    omega
  have hlast : first + nextField + 4 ≤ base + size := by
    refine (hwrites (fun _ => 1) (first + nextField) ?_).2
    simp only [allocInit, hfirst, Function.update_self]
    omega
  rw [nextField] at hlast
  refine ⟨Nat.pos_of_ne_zero fun hbase => ?_, by omega⟩
  obtain ⟨free, hseg, hcover⟩ := hlist (fun _ => 0)
  have hnull : (allocInit (fun _ => 0) base size).firstBlock = 0 := by
    show alignUp base minBlockSize = 0
    omega
  cases free with
  | nil =>
      have hzero := hcover 0
      rw [if_pos (by omega)] at hzero
      exact absurd hzero Nat.zero_ne_one
  | cons a free =>
      obtain ⟨ha, hne, -⟩ := hseg
      exact hne (ha.symm.trans hnull)

/-! ## The calls -/

def InitCall.Usable (k : InitCall) : Prop := HasBlock k.base k.size ∧ k.base + k.size < 2 ^ 32

def InitCall.Usable.region {k : InitCall} (h : k.Usable) : Region := h.1.region h.2

/-- Calls for different allocators, with disjoint regions. -/
structure InitCall.Apart (k k' : InitCall) : Prop where
  ids : k.id ≠ k'.id
  regions : k.base + k.size ≤ k'.base ∨ k'.base + k'.size ≤ k.base

namespace Heaps

variable {s : Heaps} {k k' : InitCall} {l : List InitCall}

def runCalls (s : Heaps) (l : List InitCall) : Heaps :=
  l.foldl (fun s k => s.allocInit k.id k.base k.size) s

theorem runCalls_calls (s : Heaps) (l : List InitCall) : (s.runCalls l).calls = s.calls ++ l := by
  induction l generalizing s with
  | nil => exact (List.append_nil _).symm
  | cons k l ih =>
      have hrest := ih (s.allocInit k.id k.base k.size)
      rw [runCalls, List.foldl_cons, ← runCalls, hrest]
      exact List.append_assoc s.calls [k] l

theorem allocInit_keeps (hk : k.Usable) (hk' : k'.Usable) (happ : k.Apart k')
    (h : OneBlock hk.region (s.firstBlock k.id) s.mem) :
    OneBlock hk.region ((s.allocInit k'.id k'.base k'.size).firstBlock k.id)
      (s.allocInit k'.id k'.base k'.size).mem := by
  have hin : k.base ≤ hk.region.lo ∧ hk.region.lo + nextField + 4 ≤ k.base + k.size :=
    hk.region.header_inside
  have hin' : k'.base ≤ hk'.region.lo ∧ hk'.region.lo + nextField + 4 ≤ k'.base + k'.size :=
    hk'.region.header_inside
  have hsame : ∀ addr, k.base ≤ addr → addr + 4 ≤ k.base + k.size →
      (s.allocInit k'.id k'.base k'.size).mem addr = s.mem addr := by
    intro addr hlo hhi
    rw [nextField] at hin'
    have hregions := happ.regions
    exact allocInit_of_ne hk'.region s.mem (by omega) (by rw [nextField]; omega)
  rw [nextField] at hin
  refine ⟨?_, ?_, ?_⟩
  · exact (Function.update_of_ne happ.ids ..).trans h.first
  · rw [hsame _ hin.1 (by omega), h.size]
  · rw [nextField, hsame _ (by omega) hin.2]
    exact h.last

theorem runCalls_keeps (hk : k.Usable) (hl : ∀ k' ∈ l, k'.Usable ∧ k.Apart k')
    (h : OneBlock hk.region (s.firstBlock k.id) s.mem) :
    OneBlock hk.region ((s.runCalls l).firstBlock k.id) (s.runCalls l).mem := by
  induction l generalizing s with
  | nil => exact h
  | cons k' l ih =>
      obtain ⟨hk', happ⟩ := hl k' List.mem_cons_self
      exact ih (fun k'' hk'' => hl k'' (List.mem_cons_of_mem _ hk''))
        (allocInit_keeps hk hk' happ h)

/-- In the end every list is still as its call left it. -/
theorem runCalls_oneBlock (husable : ∀ k ∈ l, k.Usable) (hpair : l.Pairwise InitCall.Apart)
    (hk : k ∈ l) : OneBlock (husable k hk).region ((s.runCalls l).firstBlock k.id)
      (s.runCalls l).mem := by
  obtain ⟨l₁, l₂, rfl⟩ := List.append_of_mem hk
  have hafter : ∀ k' ∈ l₂, k'.Usable ∧ k.Apart k' := fun k' hk' =>
    ⟨husable k' (by simp [hk']),
      (List.pairwise_cons.mp (List.pairwise_append.mp hpair).2.1).1 k' hk'⟩
  have hown := allocInit_oneBlock (husable k hk).region (s.runCalls l₁).mem
  have hsplit : s.runCalls (l₁ ++ k :: l₂) =
      ((s.runCalls l₁).allocInit k.id k.base k.size).runCalls l₂ := by
    rw [runCalls, List.foldl_append]
    rfl
  rw [hsplit]
  have hfirst : ((s.runCalls l₁).allocInit k.id k.base k.size).firstBlock k.id =
      (Runtime.allocInit (s.runCalls l₁).mem k.base k.size).firstBlock :=
    Function.update_self ..
  refine runCalls_keeps (husable k hk) hafter ?_
  rw [hfirst]
  exact hown

end Heaps

namespace HeapConfig

variable (c : HeapConfig)

/-- The sequential memory of a tile, and what the stacks and queues take of it. -/
def tileBytes : Nat := c.numCoresPerTile * c.seqMemSize

def tileOffset : Nat := c.numCoresPerTile * c.stackSize + c.numBanksPerTile * c.xqueueSize * 4

def l1Call : InitCall := ⟨.l1, c.heapStart, c.heapEnd - c.heapStart⟩

def tileCall (t : Nat) : InitCall :=
  ⟨.tile t, t * c.tileBytes + c.tileOffset, c.tileBytes - c.tileOffset⟩

def initCalls : List InitCall := c.l1Call :: (List.range c.tileCount).map c.tileCall

variable {c} {t t' : Nat}

theorem tileOffset_le : c.tileOffset ≤ c.tileBytes := c.fits

theorem tile_end (ht : t < c.tileCount) : t * c.tileBytes + c.tileBytes ≤ c.seqEnd := by
  have hcores : c.tileCount * c.numCoresPerTile ≤ c.numCores := Nat.div_mul_le_self ..
  calc t * c.tileBytes + c.tileBytes = (t + 1) * c.tileBytes := (Nat.succ_mul ..).symm
    _ ≤ c.tileCount * c.tileBytes := Nat.mul_le_mul_right _ ht
    _ = c.tileCount * c.numCoresPerTile * c.seqMemSize := (Nat.mul_assoc ..).symm
    _ ≤ c.numCores * c.seqMemSize := Nat.mul_le_mul_right _ hcores
    _ = c.seqEnd := (Nat.zero_add _).symm

theorem seqEnd_lt : c.seqEnd < 2 ^ 32 := (Nat.zero_add _).trans_lt c.seq_lt

theorem tileBytes_lt (ht : t < c.tileCount) : c.tileBytes < 2 ^ 32 := by
  have hend := tile_end ht
  have hlt := c.seqEnd_lt
  omega

theorem seqTotalSize_eq (ht : t < c.tileCount) : c.seqTotalSize = c.tileBytes :=
  u32_eq (tileBytes_lt ht)

theorem seqHeapOffset_eq (ht : t < c.tileCount) : c.seqHeapOffset = c.tileOffset := by
  have hlt := tileBytes_lt ht
  have hle := c.tileOffset_le
  rw [tileOffset] at hle
  rw [seqHeapOffset, u32_eq (a := c.numBanksPerTile * c.xqueueSize) (by omega),
    u32_eq (a := c.numCoresPerTile * c.stackSize) (by omega),
    u32_eq (a := c.numBanksPerTile * c.xqueueSize * 4) (by omega), u32_eq (by omega), tileOffset]

theorem seqHeapSize_eq (ht : t < c.tileCount) :
    c.seqHeapSize = c.tileBytes - c.tileOffset := by
  rw [seqHeapSize, seqTotalSize_eq ht, seqHeapOffset_eq ht,
    sub32_eq c.tileOffset_le (tileBytes_lt ht)]

theorem tileBase_lt (ht : t < c.tileCount) : t * c.tileBytes + c.tileOffset < 2 ^ 32 := by
  have hend := tile_end ht
  have hlt := c.seqEnd_lt
  have hle := c.tileOffset_le
  omega

/-- The first `n` turns of the loop make the calls of the first `n` tiles, and leave
the base of the next. -/
theorem foldl_initTile (s : Heaps) {n : Nat} (hn : n ≤ c.tileCount) :
    (List.range n).foldl c.initTile (s, u32 (seqStart + c.seqHeapOffset)) =
      (s.runCalls ((List.range n).map c.tileCall),
        u32 (n * c.seqTotalSize + c.seqHeapOffset)) := by
  induction n with
  | zero => simp [Heaps.runCalls, seqStart]
  | succ n ih =>
      have hbase : u32 (n * c.seqTotalSize + c.seqHeapOffset) = n * c.tileBytes + c.tileOffset := by
        rw [seqTotalSize_eq hn, seqHeapOffset_eq hn, u32_eq (tileBase_lt hn)]
      have hnext : u32 (u32 (n * c.seqTotalSize + c.seqHeapOffset) + c.seqTotalSize) =
          u32 ((n + 1) * c.seqTotalSize + c.seqHeapOffset) := by
        rw [u32, u32, u32, Nat.mod_add_mod, Nat.succ_mul]
        congr 1
        omega
      rw [List.range_succ, List.foldl_append, ih (by omega), List.map_append]
      show (Heaps.allocInit _ _ _ _, _) = _
      rw [hnext, hbase, seqHeapSize_eq hn]
      congr 1
      rw [Heaps.runCalls, Heaps.runCalls, List.foldl_append]
      rfl

end HeapConfig

theorem mempoolInit_eq (c : HeapConfig) (s : Heaps) :
    mempoolInit c 0 s = s.runCalls c.initCalls := by
  have hheap : c.heapSize = c.heapEnd - c.heapStart := sub32_eq c.heap_le c.heap_lt
  rw [mempoolInit, if_pos rfl]
  dsimp only
  rw [HeapConfig.foldl_initTile _ (Nat.le_refl _), hheap]
  rfl

theorem HeapConfig.initCalls_lt {c : HeapConfig} {k : InitCall} (hk : k ∈ c.initCalls) :
    k.base + k.size < 2 ^ 32 := by
  rcases List.mem_cons.mp hk with rfl | hk
  · show c.heapStart + (c.heapEnd - c.heapStart) < 2 ^ 32
    rw [Nat.add_sub_cancel' c.heap_le]
    exact c.heap_lt
  · obtain ⟨t, ht, rfl⟩ := List.mem_map.mp hk
    have hend := tile_end (List.mem_range.mp ht)
    have hlt := c.seqEnd_lt
    have hle := c.tileOffset_le
    simp only [tileCall]
    omega

theorem HeapConfig.roomy_iff {c : HeapConfig} : c.Roomy ↔ ∀ k ∈ c.initCalls, k.Usable := by
  constructor
  · rintro ⟨hl1, htiles⟩ k hk
    refine ⟨?_, c.initCalls_lt hk⟩
    rcases List.mem_cons.mp hk with rfl | hk
    · exact hl1
    · obtain ⟨t, ht, rfl⟩ := List.mem_map.mp hk
      exact htiles t (List.mem_range.mp ht)
  · intro h
    refine ⟨(h c.l1Call List.mem_cons_self).1, fun t ht => ?_⟩
    exact (h (c.tileCall t)
      (List.mem_cons_of_mem _ (List.mem_map_of_mem (List.mem_range.mpr ht)))).1

/-- Tiles keep apart, whatever is in them. -/
theorem HeapConfig.tileCall_avoids {c : HeapConfig} {t t' : Nat} (hne : t' ≠ t) :
    c.Avoids (c.tileCall t) t' := by
  intro x hlo hhi htile
  have hle := c.tileOffset_le
  have hmul : ∀ i j, i < j → i * c.tileBytes + c.tileBytes ≤ j * c.tileBytes := fun i j hij => by
    rw [← Nat.succ_mul]
    exact Nat.mul_le_mul_right _ hij
  have hsucc : (t' + 1) * c.tileBytes = t' * c.tileBytes + c.tileBytes := Nat.succ_mul ..
  change seqStart + t' * c.tileBytes ≤ x ∧ x < seqStart + (t' + 1) * c.tileBytes at htile
  simp only [tileCall] at hlo hhi
  rw [seqStart] at htile
  rcases Nat.lt_or_gt_of_ne hne with hlt | hgt
  · have := hmul t' t hlt
    omega
  · have := hmul t t' hgt
    omega

theorem HeapConfig.seqEnd_le (c : HeapConfig) : c.seqEnd ≤ c.heapStart := by
  rw [seqEnd, seqStart, Nat.zero_add]
  exact c.seq_le

theorem HeapConfig.l1Call_avoids {c : HeapConfig} {t : Nat} (ht : t < c.tileCount) :
    c.Avoids c.l1Call t := by
  intro x hlo _ htile
  have hend := tile_end ht
  have hseq := c.seqEnd_le
  have hsucc : (t + 1) * c.tileBytes = t * c.tileBytes + c.tileBytes := Nat.succ_mul ..
  change seqStart + t * c.tileBytes ≤ x ∧ x < seqStart + (t + 1) * c.tileBytes at htile
  change c.heapStart ≤ x at hlo
  rw [seqStart] at htile
  omega

theorem HeapConfig.initCalls_apart (c : HeapConfig) : c.initCalls.Pairwise InitCall.Apart := by
  have hend : ∀ t < c.tileCount,
      (c.tileCall t).base + (c.tileCall t).size = t * c.tileBytes + c.tileBytes := by
    intro t ht
    have hle := c.tileOffset_le
    simp only [tileCall]
    omega
  refine List.pairwise_cons.mpr ⟨?_, List.pairwise_map.mpr ?_⟩
  · rintro k hk
    obtain ⟨t, ht, rfl⟩ := List.mem_map.mp hk
    have ht := List.mem_range.mp ht
    exact ⟨nofun, .inr ((hend t ht).trans_le ((tile_end ht).trans c.seqEnd_le))⟩
  · refine List.pairwise_lt_range.imp_of_mem fun {t t'} ht _ hlt => ?_
    have hnext : t * c.tileBytes + c.tileBytes ≤ t' * c.tileBytes := by
      rw [← Nat.succ_mul]
      exact Nat.mul_le_mul_right _ hlt
    refine ⟨fun heq => ?_, .inl ?_⟩
    · cases heq
      exact Nat.lt_irrefl _ hlt
    · rw [hend t (List.mem_range.mp ht)]
      exact hnext.trans (Nat.le_add_right ..)

/-- `mempool_init` writes inside the regions it hands over, makes each list its region and
keeps the tiles apart exactly if every region has room for a block and none starts at
the null pointer. -/
theorem mempool_init_safe_iff (c : HeapConfig) (mem : Nat → Nat) (firstBlock : AllocId → Nat) :
    InitSafe c (mempoolInit c 0 (.start mem firstBlock)) ↔ c.Roomy := by
  have hcalls : (mempoolInit c 0 (.start mem firstBlock)).calls = c.initCalls := by
    rw [mempoolInit_eq, Heaps.runCalls_calls]
    rfl
  constructor
  · intro h
    refine HeapConfig.roomy_iff.mpr fun k hk => ⟨?_, c.initCalls_lt hk⟩
    rw [← hcalls] at hk
    exact hasBlock_of_safe (h.writes k hk) (h.list k hk)
  · intro hroomy
    have husable := HeapConfig.roomy_iff.mp hroomy
    refine ⟨?_, ?_, ?_, ?_, ?_⟩
    · intro k hk m addr hchanged
      rw [hcalls] at hk
      exact allocInit_writes (husable k hk).region m hchanged
    · intro k hk m
      rw [hcalls] at hk
      exact (allocInit_oneBlock (husable k hk).region m).freeListIs
    · intro k hk
      rw [hcalls] at hk
      rw [mempoolInit_eq]
      exact (Heaps.runCalls_oneBlock husable c.initCalls_apart hk).freeListIs
    · intro k hk hid t ht
      rw [hcalls] at hk
      rcases List.mem_cons.mp hk with rfl | hk
      · exact HeapConfig.l1Call_avoids ht
      · obtain ⟨i, -, rfl⟩ := List.mem_map.mp hk
        cases hid
    · intro k hk i hid t _ hne
      rw [hcalls] at hk
      rcases List.mem_cons.mp hk with rfl | hk
      · cases hid
      · obtain ⟨j, -, rfl⟩ := List.mem_map.mp hk
        cases hid
        exact HeapConfig.tileCall_avoids hne

/-- The configuration of `config.mk` and `mempool.mk`: the stacks are all of the
sequential memory. -/
def mempoolConfig : HeapConfig where
  numCores := 256
  numCoresPerTile := 4
  numBanksPerTile := 16
  stackSize := 512
  seqMemSize := 512
  xqueueSize := 0
  heapStart := 0x20000
  heapEnd := 0x100000
  fits := by decide
  seq_lt := by decide
  seq_le := by decide
  heap_aligned := by decide
  heap_le := by decide
  heap_lt := by decide

/-- The region of tile 0 is empty, and starts where tile 1 does. -/
theorem mempoolConfig_unsafe :
    ¬ InitSafe mempoolConfig (mempoolInit mempoolConfig 0 (.start (fun _ => 1) (fun _ => 0))) := by
  intro h
  have hcall : mempoolConfig.tileCall 0 ∈
      (mempoolInit mempoolConfig 0 (.start (fun _ => 1) (fun _ => 0))).calls := by
    rw [mempoolInit_eq, Heaps.runCalls_calls]
    exact List.mem_append_right _ (List.mem_cons_of_mem _
      (List.mem_map_of_mem (List.mem_range.mpr (by decide))))
  exact absurd (h.writes _ hcall (fun _ => 1) 2048 (by decide)).2 (by decide)

end TeraNoC.Runtime
