import Mathlib.Data.List.Pairwise
import TeraNoC.Lib.Bits
import TeraNoC.Runtime.Alloc

/-!
# The heap stays a heap

The free list is sorted and coalesced, and the free and the live blocks tile the
region. Tiling is stated byte by byte: every byte of the region is in exactly one
block, so taking, splitting and merging blocks are sums of indicator functions
(`has_add`), and that two blocks do not overlap is that no byte is counted twice.

The invariant falls into two halves that the code writes separately. Sizes and
headers are at multiples of eight, the links four above: a write to a link leaves
the tiling alone (`Tiled`), a write to a size leaves the list alone (`Seg`).
-/

namespace TeraNoC.Runtime

open TeraNoC.Lib

/-! ## Numbers -/

theorem alignDown_eq {x : Nat} (hx : x < 2 ^ 32) : alignDown x minBlockSize = x / 8 * 8 := by
  have hmask : not32 (sub32 minBlockSize 1) = 2 ^ 32 - 2 ^ 3 := rfl
  rw [alignDown, hmask]
  refine Nat.eq_of_testBit_eq fun i => ?_
  have hval : x / 8 * 8 = (x >>> 3) <<< 3 := by
    rw [Nat.shiftLeft_eq, Nat.shiftRight_eq_div_pow]
  rw [hval, Nat.testBit_and, testBit_highMask (by omega), Nat.testBit_shiftLeft,
    Nat.testBit_shiftRight]
  by_cases hi : 3 ≤ i
  · rw [show 3 + (i - 3) = i by omega]
    by_cases hi32 : i < 32
    · simp [hi, hi32]
    · have hbit : x.testBit i = false :=
        Nat.testBit_lt_two_pow (Nat.lt_of_lt_of_le hx (Nat.pow_le_pow_right (by omega) (by omega)))
      simp [hi, hbit]
  · simp [hi]

theorem alignUp_mod (x : Nat) : alignUp x minBlockSize = (x + 7) % 2 ^ 32 / 8 * 8 := by
  have hsum : sub32 (u32 (x + minBlockSize)) 1 = (x + 7) % 2 ^ 32 := by
    rw [minBlockSize, u32, sub32, u32]
    omega
  rw [← alignDown_eq (Nat.mod_lt _ (by omega)), alignDown, alignUp, hsum]

theorem alignUp_eq {x : Nat} (hx : x + 7 < 2 ^ 32) : alignUp x minBlockSize = (x + 7) / 8 * 8 := by
  rw [alignUp_mod, Nat.mod_eq_of_lt hx]

theorem decode_encode {ptr size : Nat} (hsize : size < 2 ^ 24) :
    (canaryDecode (canaryEncode ptr size)).size = size ∧
    (canaryDecode (canaryEncode ptr size)).canary = canary ptr := by
  have hcanary : canary ptr < 2 ^ 8 := by
    rw [canary, show 0xff = 2 ^ 8 - 1 by rfl, Nat.and_two_pow_sub_one_eq_mod]
    exact Nat.mod_lt _ (by omega)
  have henc : canaryEncode ptr size = size <<< 8 + canary ptr := by
    rw [canaryEncode, u32_eq (by rw [Nat.shiftLeft_eq]; omega),
      Nat.shiftLeft_add_eq_or_of_lt hcanary]
  rw [canaryDecode, henc]
  constructor
  · show (size <<< 8 + canary ptr) >>> 8 = size
    rw [Nat.shiftLeft_eq, Nat.shiftRight_eq_div_pow]
    omega
  · show (size <<< 8 + canary ptr) &&& 0xff = canary ptr
    rw [show 0xff = 2 ^ 8 - 1 by rfl, Nat.and_two_pow_sub_one_eq_mod, Nat.shiftLeft_eq]
    omega

/-! ## Blocks -/

structure Block where
  addr : Nat
  size : Nat

/-- The byte `x` is in the block. -/
def Block.has (b : Block) (x : Nat) : Bool := decide (b.addr ≤ x ∧ x < b.addr + b.size)

theorem has_iff {a n x : Nat} : Block.has ⟨a, n⟩ x = true ↔ a ≤ x ∧ x < a + n := by
  simp [Block.has]

theorem has_add (a n m x : Nat) : (if Block.has ⟨a, n + m⟩ x then 1 else 0)
    = (if Block.has ⟨a, n⟩ x then 1 else 0) + if Block.has ⟨a + n, m⟩ x then 1 else 0 := by
  simp only [has_iff]
  split <;> split <;> split <;> omega

def freeBlock (mem : Nat → Nat) (a : Nat) : Block := ⟨a, mem a⟩

/-- The block of a live pointer, with the size its first word says. -/
def liveBlock (mem : Nat → Nat) (l : Live) : Block :=
  ⟨l.ptr - 4, (canaryDecode (mem (l.ptr - 4))).size⟩

def blocks (mem : Nat → Nat) (free : List Nat) (live : List Live) : List Block :=
  free.map (freeBlock mem) ++ live.map (liveBlock mem)

/-- A region to be managed: neither its first byte nor the byte behind it is at
address zero, and it has room for an aligned block. -/
structure Region where
  base : Nat
  size : Nat
  base_pos : 0 < base
  end_lt : base + size < 2 ^ 32
  holds : (base + 7) / 8 * 8 + 8 ≤ base + size

/-- The aligned part of a region. -/
def Region.lo (R : Region) : Nat := (R.base + 7) / 8 * 8
def Region.hi (R : Region) : Nat := (R.base + R.size) / 8 * 8

structure FreeOk (mem : Nat → Nat) (a : Nat) : Prop where
  aligned : 8 ∣ a
  pos : 0 < mem a
  size : 8 ∣ mem a

/-- The first word of a live block decodes to its size, and the payload behind it
has room for the request. -/
structure LiveOk (mem : Nat → Nat) (l : Live) : Prop where
  ptr : 4 ≤ l.ptr
  aligned : 8 ∣ l.ptr - 4
  header : mem (l.ptr - 4) = canaryEncode (l.ptr - 4) (liveBlock mem l).size
  size : 8 ∣ (liveBlock mem l).size
  room : l.size + 4 ≤ (liveBlock mem l).size
  small : (liveBlock mem l).size < 2 ^ 24

/-- The free and the live blocks tile the region. -/
structure Tiled (R : Region) (mem : Nat → Nat) (free : List Nat) (live : List Live) : Prop where
  freeOk : ∀ a ∈ free, FreeOk mem a
  liveOk : ∀ l ∈ live, LiveOk mem l
  cover : ∀ x, (blocks mem free live).countP (·.has x)
    = if R.lo ≤ x ∧ x < R.hi then 1 else 0

structure HeapInv (R : Region) (s : Heap) (free : List Nat) : Prop where
  list : Seg s.alloc.mem nextField s.alloc.firstBlock free 0
  apart : free.Pairwise fun a b => a + s.alloc.mem a < b
  tiled : Tiled R s.alloc.mem free s.live

theorem Region.lo_pos (R : Region) : 0 < R.lo := by
  have := R.base_pos
  rw [Region.lo]
  omega

theorem Region.lo_lt_hi (R : Region) : R.lo + 8 ≤ R.hi := by
  have := R.holds
  rw [Region.lo, Region.hi]
  omega

theorem Region.hi_lt (R : Region) : R.hi < 2 ^ 32 := by
  have := R.end_lt
  rw [Region.hi]
  omega

section Tiled

variable {R : Region} {mem mem' : Nat → Nat} {free l₁ l₂ : List Nat} {live k₁ k₂ : List Live}
  {a b c : Nat} {l l' : Live}

theorem freeBlock_map (h : ∀ a ∈ free, mem' a = mem a) :
    free.map (freeBlock mem') = free.map (freeBlock mem) :=
  List.map_congr_left fun a ha => by rw [freeBlock, freeBlock, h a ha]

theorem liveBlock_map (h : ∀ l ∈ live, mem' (l.ptr - 4) = mem (l.ptr - 4)) :
    live.map (liveBlock mem') = live.map (liveBlock mem) :=
  List.map_congr_left fun l hl => by rw [liveBlock, liveBlock, h l hl]

theorem FreeOk.congr (h : FreeOk mem a) (hmem : mem' a = mem a) : FreeOk mem' a :=
  ⟨h.aligned, by rw [hmem]; exact h.pos, by rw [hmem]; exact h.size⟩

theorem LiveOk.congr (h : LiveOk mem l) (hmem : mem' (l.ptr - 4) = mem (l.ptr - 4)) :
    LiveOk mem' l := by
  have hblock : liveBlock mem' l = liveBlock mem l := by rw [liveBlock, liveBlock, hmem]
  exact ⟨h.ptr, h.aligned, by rw [hmem, hblock]; exact h.header, by rw [hblock]; exact h.size,
    by rw [hblock]; exact h.room, by rw [hblock]; exact h.small⟩

theorem Tiled.congr (h : Tiled R mem free live) (hfree : ∀ a ∈ free, mem' a = mem a)
    (hlive : ∀ l ∈ live, mem' (l.ptr - 4) = mem (l.ptr - 4)) : Tiled R mem' free live where
  freeOk a ha := (h.freeOk a ha).congr (hfree a ha)
  liveOk l hl := (h.liveOk l hl).congr (hlive l hl)
  cover x := by
    rw [blocks, freeBlock_map hfree, liveBlock_map hlive]
    exact h.cover x

theorem Tiled.le_one (h : Tiled R mem free live) (x : Nat) :
    (blocks mem free live).countP (·.has x) ≤ 1 := by
  rw [h.cover]
  split <;> omega

theorem Tiled.inside (h : Tiled R mem free live) {B : Block} (hB : B ∈ blocks mem free live)
    {x : Nat} (hx : B.has x = true) : R.lo ≤ x ∧ x < R.hi := by
  have hpos : 0 < (blocks mem free live).countP (·.has x) :=
    List.countP_pos_iff.mpr ⟨B, hB, hx⟩
  rw [h.cover] at hpos
  by_contra hno
  rw [if_neg hno] at hpos
  exact Nat.lt_irrefl 0 hpos

theorem mem_blocks_free (ha : a ∈ free) : freeBlock mem a ∈ blocks mem free live :=
  List.mem_append_left _ (List.mem_map_of_mem ha)

theorem mem_blocks_live (hl : l ∈ live) : liveBlock mem l ∈ blocks mem free live :=
  List.mem_append_right _ (List.mem_map_of_mem hl)

theorem Tiled.free_inside (h : Tiled R mem free live) (ha : a ∈ free) :
    R.lo ≤ a ∧ a + mem a ≤ R.hi := by
  have hpos := (h.freeOk a ha).pos
  have hfirst := h.inside (mem_blocks_free ha) (has_iff.mpr (show a ≤ a ∧ a < a + mem a by omega))
  have hlast := h.inside (mem_blocks_free ha)
    (has_iff.mpr (show a ≤ a + mem a - 1 ∧ a + mem a - 1 < a + mem a by omega))
  omega

theorem Tiled.live_inside (h : Tiled R mem free live) (hl : l ∈ live) :
    R.lo ≤ l.ptr - 4 ∧ l.ptr - 4 + (liveBlock mem l).size ≤ R.hi := by
  have hroom := (h.liveOk l hl).room
  generalize hn : (liveBlock mem l).size = n at *
  have hB : liveBlock mem l = ⟨l.ptr - 4, n⟩ := by rw [← hn]; rfl
  have hmem : Block.mk (l.ptr - 4) n ∈ blocks mem free live := hB ▸ mem_blocks_live hl
  have hfirst := h.inside hmem (has_iff.mpr (show l.ptr - 4 ≤ l.ptr - 4 ∧ _ by omega))
  have hlast := h.inside hmem
    (has_iff.mpr (show l.ptr - 4 ≤ l.ptr - 4 + n - 1 ∧ l.ptr - 4 + n - 1 < l.ptr - 4 + n by omega))
  omega

/-- Blocks at two places of the tiling have no byte in common. -/
theorem Tiled.apart (h : Tiled R mem free live) {B B' : Block} {Bs Bs' : List Block}
    (hblocks : blocks mem free live = Bs ++ Bs') (hB : B ∈ Bs) (hB' : B' ∈ Bs') {x : Nat}
    (hx : B.has x = true) (hx' : B'.has x = true) : False := by
  have hone := h.le_one x
  have h₁ : 0 < Bs.countP (·.has x) := List.countP_pos_iff.mpr ⟨B, hB, hx⟩
  have h₂ : 0 < Bs'.countP (·.has x) := List.countP_pos_iff.mpr ⟨B', hB', hx'⟩
  rw [hblocks, List.countP_append] at hone
  omega

theorem Tiled.free_live (h : Tiled R mem free live) (ha : a ∈ free) (hl : l ∈ live) {x : Nat}
    (hx : a ≤ x ∧ x < a + mem a)
    (hx' : l.ptr - 4 ≤ x ∧ x < l.ptr - 4 + (liveBlock mem l).size) : False :=
  h.apart rfl (List.mem_map_of_mem ha) (List.mem_map_of_mem hl) (has_iff.mpr hx) (has_iff.mpr hx')

theorem Tiled.live_live (h : Tiled R mem free (k₁ ++ l :: k₂)) (hl' : l' ∈ k₁ ++ k₂) {x : Nat}
    (hx : l.ptr - 4 ≤ x ∧ x < l.ptr - 4 + (liveBlock mem l).size)
    (hx' : l'.ptr - 4 ≤ x ∧ x < l'.ptr - 4 + (liveBlock mem l').size) : False := by
  have hhas := has_iff.mpr hx
  have hhas' := has_iff.mpr hx'
  rcases List.mem_append.mp hl' with hl' | hl'
  · refine @Tiled.apart R mem free (k₁ ++ l :: k₂) h (liveBlock mem l') (liveBlock mem l)
      (free.map (freeBlock mem) ++ k₁.map (liveBlock mem)) ((l :: k₂).map (liveBlock mem))
      (by rw [blocks, List.map_append, List.append_assoc]) ?_ ?_ x hhas' hhas
    · exact List.mem_append_right _ (List.mem_map_of_mem hl')
    · exact List.mem_map_of_mem List.mem_cons_self
  · refine @Tiled.apart R mem free (k₁ ++ l :: k₂) h (liveBlock mem l) (liveBlock mem l')
      (free.map (freeBlock mem) ++ (k₁ ++ [l]).map (liveBlock mem)) (k₂.map (liveBlock mem))
      (by rw [blocks, List.append_assoc, ← List.map_append, List.append_assoc]; rfl) ?_ ?_ x
      hhas hhas'
    · exact List.mem_append_right _ (List.mem_map_of_mem (by simp))
    · exact List.mem_map_of_mem hl'

/-- Frame: the size words of free blocks and the headers of live ones. -/
def SameHeaders (mem mem' : Nat → Nat) (free : List Nat) (live : List Live) : Prop :=
  (∀ a ∈ free, mem' a = mem a) ∧ ∀ l ∈ live, mem' (l.ptr - 4) = mem (l.ptr - 4)

theorem countP_blocks (mem : Nat → Nat) (l₁ l₂ : List Nat) (live : List Live) (b x : Nat) :
    (blocks mem (l₁ ++ b :: l₂) live).countP (·.has x)
      = (blocks mem (l₁ ++ l₂) live).countP (·.has x)
        + if Block.has ⟨b, mem b⟩ x then 1 else 0 := by
  simp only [blocks, List.map_append, List.map_cons, List.countP_append, List.countP_cons,
    freeBlock]
  omega

theorem countP_blocks_live (mem : Nat → Nat) (free : List Nat) (k₁ k₂ : List Live) (l : Live)
    (x : Nat) :
    (blocks mem free (k₁ ++ l :: k₂)).countP (·.has x)
      = (blocks mem free (k₁ ++ k₂)).countP (·.has x)
        + if (liveBlock mem l).has x then 1 else 0 := by
  simp only [blocks, List.map_append, List.map_cons, List.countP_append, List.countP_cons]
  omega

theorem SameHeaders.blocks_eq (h : SameHeaders mem mem' free live) :
    blocks mem' free live = blocks mem free live := by
  rw [blocks, freeBlock_map h.1, liveBlock_map h.2, blocks]

theorem Tiled.sameHeaders (h : Tiled R mem free live) (hs : SameHeaders mem mem' free live) :
    Tiled R mem' free live :=
  h.congr hs.1 hs.2

/-- The block of a pointer just handed out. -/
theorem liveBlock_new {n size : Nat} (hheader : mem c = canaryEncode c n) (hn : n < 2 ^ 24) :
    liveBlock mem ⟨c + 4, size⟩ = ⟨c, n⟩ := by
  rw [liveBlock]
  show Block.mk (c + 4 - 4) (canaryDecode (mem (c + 4 - 4))).size = ⟨c, n⟩
  rw [Nat.add_sub_cancel, hheader, (decode_encode hn).1]

theorem liveOk_new {n size : Nat} (hc : 8 ∣ c) (hheader : mem c = canaryEncode c n)
    (hn : n < 2 ^ 24) (h8 : 8 ∣ n) (hroom : size + 4 ≤ n) : LiveOk mem ⟨c + 4, size⟩ := by
  have hblock : liveBlock mem ⟨c + 4, size⟩ = ⟨c, n⟩ := liveBlock_new hheader hn
  have haddr : (Live.mk (c + 4) size).ptr - 4 = c := Nat.add_sub_cancel c 4
  exact ⟨Nat.le_add_left _ _, by rw [haddr]; exact hc, by rw [haddr, hblock]; exact hheader,
    by rw [hblock]; exact h8, by rw [hblock]; exact hroom, by rw [hblock]; exact hn⟩

/-- A free block is taken whole. -/
theorem Tiled.take {n size : Nat} (h : Tiled R mem (l₁ ++ c :: l₂) live) (hc : mem c = n)
    (hs : SameHeaders mem mem' (l₁ ++ l₂) live) (hheader : mem' c = canaryEncode c n)
    (hn : n < 2 ^ 24) (hroom : size + 4 ≤ n) :
    Tiled R mem' (l₁ ++ l₂) (⟨c + 4, size⟩ :: live) where
  freeOk a ha := (h.freeOk a (by
    rcases List.mem_append.mp ha with ha | ha <;> simp [ha])).congr (hs.1 a ha)
  liveOk l hl := by
    have hok := h.freeOk c (by simp)
    rcases List.mem_cons.mp hl with rfl | hl
    · exact liveOk_new hok.aligned hheader hn (hc ▸ hok.size) hroom
    · exact (h.liveOk l hl).congr (hs.2 l hl)
  cover x := by
    have hcount := countP_blocks_live mem' (l₁ ++ l₂) [] live ⟨c + 4, size⟩ x
    rw [List.nil_append, List.nil_append, liveBlock_new hheader hn, hs.blocks_eq] at hcount
    rw [hcount, ← h.cover x, countP_blocks, hc]

/-- A free block is split, and its lower part taken. -/
theorem Tiled.split {n size : Nat} (h : Tiled R mem (l₁ ++ c :: l₂) live) (hlt : n < mem c)
    (hs : SameHeaders mem mem' (l₁ ++ l₂) live) (hnew : mem' (c + n) = mem c - n)
    (hheader : mem' c = canaryEncode c n) (h8 : 8 ∣ n) (hn : n < 2 ^ 24) (hroom : size + 4 ≤ n) :
    Tiled R mem' (l₁ ++ (c + n) :: l₂) (⟨c + 4, size⟩ :: live) where
  freeOk a ha := by
    have hok := h.freeOk c (by simp)
    rcases List.mem_append.mp ha with ha | ha
    · exact (h.freeOk a (by simp [ha])).congr (hs.1 a (by simp [ha]))
    · rcases List.mem_cons.mp ha with rfl | ha
      · exact ⟨Nat.dvd_add hok.aligned h8, by omega, by rw [hnew]; exact Nat.dvd_sub hok.size h8⟩
      · exact (h.freeOk a (by simp [ha])).congr (hs.1 a (by simp [ha]))
  liveOk l hl := by
    rcases List.mem_cons.mp hl with rfl | hl
    · exact liveOk_new (h.freeOk c (by simp)).aligned hheader hn h8 hroom
    · exact (h.liveOk l hl).congr (hs.2 l hl)
  cover x := by
    have hcount := countP_blocks_live mem' (l₁ ++ (c + n) :: l₂) [] live ⟨c + 4, size⟩ x
    rw [List.nil_append, List.nil_append, liveBlock_new hheader hn,
      countP_blocks mem' l₁ l₂ live (c + n), hs.blocks_eq, hnew] at hcount
    have hold := h.cover x
    rw [countP_blocks] at hold
    have hadd := has_add c n (mem c - n) x
    rw [Nat.add_sub_cancel' (Nat.le_of_lt hlt)] at hadd
    omega

/-- A live block becomes a free one. -/
theorem Tiled.release (h : Tiled R mem (l₁ ++ l₂) (k₁ ++ l :: k₂))
    (hs : SameHeaders mem mem' (l₁ ++ l₂) (k₁ ++ k₂))
    (hsize : mem' (l.ptr - 4) = (liveBlock mem l).size) :
    Tiled R mem' (l₁ ++ (l.ptr - 4) :: l₂) (k₁ ++ k₂) where
  freeOk a ha := by
    have hok := h.liveOk l (by simp)
    rcases List.mem_append.mp ha with ha | ha
    · exact (h.freeOk a (by simp [ha])).congr (hs.1 a (by simp [ha]))
    · rcases List.mem_cons.mp ha with rfl | ha
      · have := hok.room
        exact ⟨hok.aligned, by omega, by rw [hsize]; exact hok.size⟩
      · exact (h.freeOk a (by simp [ha])).congr (hs.1 a (by simp [ha]))
  liveOk l' hl := (h.liveOk l' (by
    rcases List.mem_append.mp hl with hl | hl <;> simp [hl])).congr (hs.2 l' hl)
  cover x := by
    rw [← h.cover x, countP_blocks, countP_blocks_live, hs.blocks_eq, hsize]
    rfl

/-- Two free blocks that touch become one. -/
theorem Tiled.merge (h : Tiled R mem (l₁ ++ a :: b :: l₂) live) (htouch : a + mem a = b)
    (hs : SameHeaders mem mem' (l₁ ++ l₂) live) (hsize : mem' a = mem a + mem b) :
    Tiled R mem' (l₁ ++ a :: l₂) live where
  freeOk c hc := by
    have ha := h.freeOk a (by simp)
    have hb := h.freeOk b (by simp)
    rcases List.mem_append.mp hc with hc | hc
    · exact (h.freeOk c (by simp [hc])).congr (hs.1 c (by simp [hc]))
    · rcases List.mem_cons.mp hc with rfl | hc
      · have := ha.pos
        exact ⟨ha.aligned, by omega, by rw [hsize]; exact Nat.dvd_add ha.size hb.size⟩
      · exact (h.freeOk c (by simp [hc])).congr (hs.1 c (by simp [hc]))
  liveOk l hl := (h.liveOk l hl).congr (hs.2 l hl)
  cover x := by
    have hold := h.cover x
    rw [countP_blocks, countP_blocks] at hold
    rw [countP_blocks, hs.blocks_eq, hsize, has_add, htouch]
    omega

end Tiled

/-! ## The list -/

namespace Alloc

variable {a : Alloc} {prev q r v w w' : Nat} {l₁ l₂ : List Nat}

theorem write_same : (a.write w v).mem w = v := Function.update_self _ _ _

theorem write_of_ne (h : w' ≠ w) : (a.write w v).mem w' = a.mem w' := Function.update_of_ne h _ _

theorem setNext_of_ne (h : w ≠ prev + nextField) : (a.setNext prev q).mem w = a.mem w := by
  rw [setNext]
  split
  · exact write_of_ne h
  · rfl

/-- Links are above the headers. -/
theorem setNext_header (hprev : 8 ∣ prev) (hw : 8 ∣ w) : (a.setNext prev q).mem w = a.mem w := by
  refine setNext_of_ne ?_
  rw [nextField]
  omega

/-- What taking a block whole leaves of the headers. -/
theorem take_header (hprev : 8 ∣ prev) (hw : 8 ∣ w) (hne : w ≠ w') :
    ((a.setNext prev q).write w' v).mem w = a.mem w := by
  rw [write_of_ne hne, setNext_header hprev hw]

/-- What splitting a block leaves of the headers. -/
theorem split_header {n x y : Nat} (hprev : 8 ∣ prev) (hw : 8 ∣ w) (hw' : 8 ∣ w') (hn : 8 ∣ n)
    (hne : w ≠ w') (hnew : w ≠ w' + n) :
    ((((a.write (w' + n) x).write (w' + n + nextField) y).setNext prev (w' + n)).write w' v).mem w
      = a.mem w := by
  rw [take_header hprev hw hne, write_of_ne (by rw [nextField]; omega), write_of_ne hnew]

theorem split_new {n x y : Nat} (hprev : 8 ∣ prev) (hw' : 8 ∣ w') (hn : 8 ∣ n) (hpos : 0 < n) :
    ((((a.write (w' + n) x).write (w' + n + nextField) y).setNext prev (w' + n)).write w' v).mem
      (w' + n) = x := by
  rw [take_header hprev (by omega) (by omega), write_of_ne (by rw [nextField]; omega), write_same]

theorem setNext_seg (h₁ : Seg a.mem nextField a.firstBlock l₁ r) (h₂ : Seg a.mem nextField q l₂ 0)
    (hnd : (l₁ ++ l₂).Nodup) :
    Seg (a.setNext (lastOr 0 l₁) q).mem nextField (a.setNext (lastOr 0 l₁) q).firstBlock
      (l₁ ++ l₂) 0 := by
  rcases List.eq_nil_or_concat l₁ with rfl | ⟨l, z, rfl⟩
  · rw [lastOr_nil, setNext, if_neg (by simp)]
    exact h₂
  · rw [List.concat_eq_append] at h₁ hnd ⊢
    have hz : z ≠ 0 := by
      obtain ⟨_, _, hz⟩ := seg_append.mp h₁
      exact hz.2.1
    have hzl : z ∉ l := by
      have := (List.nodup_append.mp hnd).1
      rw [List.nodup_append] at this
      exact fun hmem => this.2.2 z hmem z (by simp) rfl
    rw [lastOr_append, setNext, if_pos hz]
    refine seg_append.mpr ⟨q, h₁.relink hzl q, h₂.congr fun y hy => write_of_ne ?_⟩
    have hyz : y ≠ z := fun hyz =>
      (List.nodup_append.mp hnd).2.2 z (by simp) y hy hyz.symm
    omega

theorem lastOr_aligned {l : List Nat} (h : ∀ x ∈ l, 8 ∣ x) : 8 ∣ lastOr 0 l := by
  rcases List.eq_nil_or_concat l with rfl | ⟨l, z, rfl⟩
  · exact Nat.dvd_zero 8
  · rw [List.concat_eq_append, lastOr_append]
    exact h z (by simp)

/-- First fit: no block is large enough, or the first that is gets taken. -/
theorem allocateMemory_eq {fuel size : Nat} {free : List Nat}
    (hlist : Seg a.mem nextField a.firstBlock free 0) (hfuel : free.length < fuel) :
    ((∀ x ∈ free, a.mem x < size) ∧ a.allocateMemory fuel size = some (a, 0)) ∨
    ∃ l₁ c l₂, free = l₁ ++ c :: l₂ ∧ (∀ x ∈ l₁, a.mem x < size) ∧ size ≤ a.mem c ∧ c ≠ 0 ∧
      Seg a.mem nextField a.firstBlock l₁ c ∧ Seg a.mem nextField (a.mem (c + nextField)) l₂ 0 ∧
      a.allocateMemory fuel size = some (
        if a.mem c = size then (a.setNext (lastOr 0 l₁) (a.mem (c + nextField)), c)
        else
          ((((a.write (u32 (c + size)) (sub32 (a.mem c) size)).write
              (u32 (c + size) + nextField)
              ((a.write (u32 (c + size)) (sub32 (a.mem c) size)).mem (c + nextField)))).setNext
            (lastOr 0 l₁) (u32 (c + size)), c)) := by
  obtain ⟨l₁, l₂, rfl, hpassed, hstop, hs₁, hs₂, hw⟩ := @walk_eq a.mem nextField
    a.firstBlock free (fun curr => a.mem curr < size) fuel 0 hlist hfuel
  have hsmall : ∀ x ∈ l₁, a.mem x < size := fun x hx => of_decide_eq_true (hpassed x hx)
  rw [allocateMemory, hw]
  cases l₂ with
  | nil =>
      refine .inl ⟨?_, rfl⟩
      rw [List.append_nil]
      exact hsmall
  | cons c l₂ =>
      refine .inr ⟨l₁, c, l₂, rfl, hsmall, ?_, hs₂.2.1, hs₁, hs₂.2.2, ?_⟩
      · have := hstop c rfl
        simpa using this
      · simp only [Option.map_some, List.headD_cons, if_pos hs₂.2.1]

end Alloc

/-! ## Allocation -/

section Malloc

variable {R : Region} {s : Heap} {free l₁ l₂ : List Nat} {c : Nat}

theorem HeapInv.nodup (h : HeapInv R s free) : free.Nodup := by
  refine h.apart.imp_of_mem fun ha _ hlt => ?_
  have := (h.tiled.freeOk _ ha).pos
  omega

theorem HeapInv.aligned (h : HeapInv R s free) {a : Nat} (ha : a ∈ free) : 8 ∣ a :=
  (h.tiled.freeOk a ha).aligned

/-- There are no more blocks than the search has steps. -/
theorem HeapInv.length_lt (h : HeapInv R s free) {fuel : Nat} (hfuel : R.size / 8 < fuel) :
    free.length < fuel := by
  have hle : ∀ {l : List Nat} {lo : Nat}, l.Pairwise (fun a b => a + s.alloc.mem a < b) →
      (∀ a ∈ l, lo ≤ a ∧ 8 ≤ s.alloc.mem a ∧ a + s.alloc.mem a ≤ R.hi) → lo ≤ R.hi →
      8 * l.length ≤ R.hi - lo := by
    intro l
    induction l with
    | nil =>
        intro lo _ _ hlo
        exact Nat.zero_le _
    | cons a l ih =>
        intro lo hp hb hlo
        obtain ⟨hhead, htail⟩ := List.pairwise_cons.mp hp
        obtain ⟨hlo', hsize, hend⟩ := hb a List.mem_cons_self
        have := @ih (a + s.alloc.mem a) htail (fun b hb' => by
          have := hb b (List.mem_cons_of_mem _ hb')
          have := hhead b hb'
          omega) hend
        rw [List.length_cons]
        omega
  have hlen := @hle free R.lo h.apart (fun a ha => by
    have := h.tiled.free_inside ha
    have hok := h.tiled.freeOk a ha
    have := hok.pos
    have := hok.size
    omega) (by have := R.lo_lt_hi; omega)
  have : R.hi - R.lo ≤ R.size := by
    have := R.holds
    rw [Region.hi, Region.lo]
    omega
  omega

/-- The block size of a request. -/
theorem blockSize_eq {size : Nat} (hsize : size + 11 < 2 ^ 32) :
    alignUp (u32 (size + 4)) minBlockSize = (size + 11) / 8 * 8 := by
  rw [u32_eq (by omega), alignUp_eq (by omega)]

/-- Taking a block whole. -/
theorem HeapInv.take {n size : Nat} (h : HeapInv R s (l₁ ++ c :: l₂)) (hc : s.alloc.mem c = n)
    (hn : n < 2 ^ 24) (hroom : size + 4 ≤ n)
    (hs₁ : Seg s.alloc.mem nextField s.alloc.firstBlock l₁ c)
    (hs₂ : Seg s.alloc.mem nextField (s.alloc.mem (c + nextField)) l₂ 0) :
    HeapInv R
      { alloc := (s.alloc.setNext (lastOr 0 l₁) (s.alloc.mem (c + nextField))).write c
          (canaryEncode c n)
        live := ⟨c + 4, size⟩ :: s.live } (l₁ ++ l₂) := by
  have hsub : (l₁ ++ l₂).Sublist (l₁ ++ c :: l₂) :=
    List.Sublist.append_left (List.sublist_cons_self c l₂) l₁
  have hnd := h.nodup
  have hcnot : ∀ y ∈ l₁ ++ l₂, y ≠ c := by
    intro y hy
    obtain ⟨-, hnd₂, hdis⟩ := List.nodup_append.mp hnd
    rcases List.mem_append.mp hy with hy | hy
    · exact hdis y hy c (by simp)
    · rintro rfl
      exact (List.nodup_cons.mp hnd₂).1 hy
  have hc8 := h.aligned (a := c) (by simp)
  have hprev : 8 ∣ lastOr 0 l₁ := Alloc.lastOr_aligned fun x hx => h.aligned (by simp [hx])
  generalize hmem : ((s.alloc.setNext (lastOr 0 l₁) (s.alloc.mem (c + nextField))).write c
    (canaryEncode c n)) = a'
  have hheader : ∀ w, 8 ∣ w → w ≠ c → a'.mem w = s.alloc.mem w := by
    intro w hw hwc
    rw [← hmem, Alloc.take_header hprev hw hwc]
  have hsame : SameHeaders s.alloc.mem a'.mem (l₁ ++ l₂) s.live := by
    refine ⟨fun y hy => hheader y (h.aligned (hsub.subset hy)) (hcnot y hy), fun l hl => ?_⟩
    have hok := h.tiled.liveOk l hl
    refine hheader _ hok.aligned fun heq => ?_
    have hpos := (h.tiled.freeOk c (by simp)).pos
    have := hok.room
    exact h.tiled.free_live (x := c) (show c ∈ l₁ ++ c :: l₂ by simp) hl (by omega) (by omega)
  refine ⟨?_, ?_, h.tiled.take hc hsame ?_ hn hroom⟩
  · have hseg := Alloc.setNext_seg hs₁ hs₂ (hnd.sublist hsub)
    have hfirst : a'.firstBlock
        = (s.alloc.setNext (lastOr 0 l₁) (s.alloc.mem (c + nextField))).firstBlock := by
      rw [← hmem]
      rfl
    show Seg a'.mem nextField a'.firstBlock _ 0
    rw [hfirst]
    refine hseg.congr fun y hy => ?_
    have := h.aligned (hsub.subset hy)
    rw [← hmem]
    refine Alloc.write_of_ne ?_
    rw [nextField]
    omega
  · refine (h.apart.sublist hsub).imp_of_mem fun ha _ hlt => ?_
    show _ + a'.mem _ < _
    rw [hsame.1 _ ha]
    exact hlt
  · rw [← hmem]
    exact Alloc.write_same

/-- Splitting a block off. -/
theorem HeapInv.split {n size : Nat} (h : HeapInv R s (l₁ ++ c :: l₂)) (hlt : n < s.alloc.mem c)
    (h8 : 8 ∣ n) (hn : n < 2 ^ 24) (hroom : size + 4 ≤ n)
    (hs₁ : Seg s.alloc.mem nextField s.alloc.firstBlock l₁ c)
    (hs₂ : Seg s.alloc.mem nextField (s.alloc.mem (c + nextField)) l₂ 0) :
    HeapInv R
      { alloc := (((s.alloc.write (c + n) (s.alloc.mem c - n)).write (c + n + nextField)
          (s.alloc.mem (c + nextField))).setNext (lastOr 0 l₁) (c + n)).write c (canaryEncode c n)
        live := ⟨c + 4, size⟩ :: s.live } (l₁ ++ (c + n) :: l₂) := by
  have hc8 := h.aligned (a := c) (by simp)
  have hprev : 8 ∣ lastOr 0 l₁ := Alloc.lastOr_aligned fun x hx => h.aligned (by simp [hx])
  obtain ⟨hap₁, hap₂, hap⟩ := List.pairwise_append.mp h.apart
  obtain ⟨hapc, hap₂⟩ := List.pairwise_cons.mp hap₂
  have hbefore : ∀ y ∈ l₁, y < c := fun y hy => by
    have := hap y hy c (by simp)
    omega
  have hafter : ∀ y ∈ l₂, c + n < y := fun y hy => by
    have := hapc y hy
    omega
  have h8y : ∀ y ∈ l₁ ++ l₂, 8 ∣ y := fun y hy => h.aligned (by
    rcases List.mem_append.mp hy with hy | hy <;> simp [hy])
  have hne : ∀ y ∈ l₁ ++ l₂, y ≠ c ∧ y ≠ c + n := by
    intro y hy
    rcases List.mem_append.mp hy with hy | hy
    · have := hbefore y hy
      omega
    · have := hafter y hy
      omega
  generalize ha₂ : (s.alloc.write (c + n) (s.alloc.mem c - n)).write (c + n + nextField)
    (s.alloc.mem (c + nextField)) = a₂
  have hlink : ∀ w, 8 ∣ w → w ≠ c + n → a₂.mem (w + nextField) = s.alloc.mem (w + nextField) := by
    intro w hw hwn
    rw [← ha₂, Alloc.write_of_ne (by omega), Alloc.write_of_ne (by rw [nextField]; omega)]
  have hfirst₂ : a₂.firstBlock = s.alloc.firstBlock := by
    rw [← ha₂]
    rfl
  generalize hmem : (a₂.setNext (lastOr 0 l₁) (c + n)).write c (canaryEncode c n) = a'
  have hheader : ∀ w, 8 ∣ w → w ≠ c → w ≠ c + n → a'.mem w = s.alloc.mem w := by
    intro w hw hwc hwn
    rw [← hmem, ← ha₂, Alloc.split_header hprev hw hc8 h8 hwc hwn]
  have hnew : a'.mem (c + n) = s.alloc.mem c - n := by
    rw [← hmem, ← ha₂, Alloc.split_new hprev hc8 h8 (by omega)]
  have hsame : SameHeaders s.alloc.mem a'.mem (l₁ ++ l₂) s.live := by
    refine ⟨fun y hy => hheader y (h8y y hy) (hne y hy).1 (hne y hy).2, fun l hl => ?_⟩
    have hok := h.tiled.liveOk l hl
    have := hok.room
    refine hheader _ hok.aligned (fun heq => ?_) fun heq => ?_
    · exact h.tiled.free_live (x := c) (show c ∈ l₁ ++ c :: l₂ by simp) hl (by omega) (by omega)
    · exact h.tiled.free_live (x := c + n) (show c ∈ l₁ ++ c :: l₂ by simp) hl (by omega) (by omega)
  refine ⟨?_, ?_, h.tiled.split hlt hsame hnew ?_ h8 hn hroom⟩
  · have hseg₁ : Seg a₂.mem nextField a₂.firstBlock l₁ c := by
      rw [hfirst₂]
      exact hs₁.congr fun y hy => hlink y (h8y y (by simp [hy])) (hne y (by simp [hy])).2
    have hseg₂ : Seg a₂.mem nextField (c + n) ((c + n) :: l₂) 0 := by
      refine ⟨rfl, by omega, ?_⟩
      have hval : a₂.mem (c + n + nextField) = s.alloc.mem (c + nextField) := by
        rw [← ha₂, Alloc.write_same]
      rw [hval]
      exact hs₂.congr fun y hy => hlink y (h8y y (by simp [hy])) (hne y (by simp [hy])).2
    have hnd : (l₁ ++ (c + n) :: l₂).Nodup := by
      obtain ⟨hnd₁, hnd₂, hdis⟩ := List.nodup_append.mp h.nodup
      refine List.nodup_append.mpr ⟨hnd₁, List.nodup_cons.mpr ⟨fun hmem => ?_,
        (List.nodup_cons.mp hnd₂).2⟩, fun y hy z hz => ?_⟩
      · exact (hne (c + n) (by simp [hmem])).2 rfl
      · rcases List.mem_cons.mp hz with rfl | hz
        · exact (hne y (by simp [hy])).2
        · exact hdis y hy z (by simp [hz])
    have hseg := Alloc.setNext_seg hseg₁ hseg₂ hnd
    have hfirst : a'.firstBlock = (a₂.setNext (lastOr 0 l₁) (c + n)).firstBlock := by
      rw [← hmem]
      rfl
    show Seg a'.mem nextField a'.firstBlock _ 0
    rw [hfirst]
    refine hseg.congr fun y hy => ?_
    have hy8 : 8 ∣ y := by
      rcases List.mem_append.mp hy with hy | hy
      · exact h8y y (by simp [hy])
      · rcases List.mem_cons.mp hy with rfl | hy
        · omega
        · exact h8y y (by simp [hy])
    rw [← hmem]
    refine Alloc.write_of_ne ?_
    rw [nextField]
    omega
  · show (l₁ ++ (c + n) :: l₂).Pairwise fun x y => x + a'.mem x < y
    refine List.pairwise_append.mpr ⟨?_, List.pairwise_cons.mpr ⟨?_, ?_⟩, ?_⟩
    · exact hap₁.imp_of_mem fun ha _ hlt => by rw [hsame.1 _ (by simp [ha])]; exact hlt
    · intro y hy
      have := hapc y hy
      rw [hnew]
      omega
    · exact hap₂.imp_of_mem fun ha _ hlt => by rw [hsame.1 _ (by simp [ha])]; exact hlt
    · intro y hy z hz
      rw [hsame.1 y (by simp [hy])]
      rcases List.mem_cons.mp hz with rfl | hz
      · have := hap y hy c (by simp)
        omega
      · exact hap y hy z (by simp [hz])
  · rw [← hmem]
    exact Alloc.write_same

theorem HeapInv.malloc (h : HeapInv R s free) {fuel size : Nat} (hfuel : R.size / 8 < fuel)
    (hsize : size + 11 < 2 ^ 32) :
    ∃ s', s.step fuel (.malloc size) = some s' ∧ ∃ free', HeapInv R s' free' := by
  rw [Heap.step, Alloc.domainMalloc, blockSize_eq hsize]
  generalize hn : (size + 11) / 8 * 8 = n
  by_cases hbig : n ≥ 2 ^ 24
  · exact ⟨s, by simp only [if_pos hbig]; rfl, free, h⟩
  rw [if_neg hbig]
  rcases @Alloc.allocateMemory_eq s.alloc fuel n free h.list (h.length_lt hfuel) with
    ⟨-, hnone⟩ | ⟨l₁, c, l₂, rfl, -, hfit, hc, hs₁, hs₂, heq⟩
  · exact ⟨s, by rw [hnone]; rfl, free, h⟩
  · have hin := h.tiled.free_inside (a := c) (by simp)
    have hhi := R.hi_lt
    have hc8 := h.aligned (a := c) (by simp)
    have hend : u32 (c + n) = c + n := u32_eq (by omega)
    have hdata : u32 (c + 4) = c + 4 := u32_eq (by omega)
    rw [heq]
    by_cases hwhole : s.alloc.mem c = n
    · refine ⟨_, rfl, l₁ ++ l₂, ?_⟩
      simp only [if_pos hwhole, if_neg hc, hdata, Nat.add_eq_zero_iff, OfNat.ofNat_ne_zero,
        and_false, if_false]
      exact h.take hwhole (by omega) (by omega) hs₁ hs₂
    · have hlt : n < s.alloc.mem c := by omega
      have hlink : (s.alloc.write (c + n) (s.alloc.mem c - n)).mem (c + nextField)
          = s.alloc.mem (c + nextField) := Alloc.write_of_ne (by rw [nextField]; omega)
      refine ⟨_, rfl, l₁ ++ (c + n) :: l₂, ?_⟩
      simp only [if_neg hwhole, if_neg hc, hdata, hend, hlink,
        sub32_eq hfit (by omega : _ < 2 ^ 32),
        Nat.add_eq_zero_iff, OfNat.ofNat_ne_zero, and_false, if_false]
      exact h.split hlt (by omega) (by omega) (by omega) hs₁ hs₂

end Malloc

/-! ## Freeing -/

section Free

variable {R : Region} {s : Heap} {a : Alloc} {l₁ l₂ rest : List Nat} {live k₁ k₂ : List Live}
  {l : Live} {b : Nat}

/-- Half way through `free_memory`: the freed block heads the second half of the
list and does not touch what follows it, but nothing leads to it yet. -/
structure Linked (R : Region) (a : Alloc) (live : List Live) (l₁ : List Nat) (b : Nat)
    (rest : List Nat) : Prop where
  left : ∃ r, Seg a.mem nextField a.firstBlock l₁ r
  right : Seg a.mem nextField b (b :: rest) 0
  apart₁ : l₁.Pairwise fun x y => x + a.mem x < y
  apart₂ : (b :: rest).Pairwise fun x y => x + a.mem x < y
  below : ∀ x ∈ l₁, x + a.mem x ≤ b
  tiled : Tiled R a.mem (l₁ ++ b :: rest) live

theorem Linked.aligned (h : Linked R a live l₁ b rest) {x : Nat} (hx : x ∈ l₁ ++ b :: rest) :
    8 ∣ x :=
  (h.tiled.freeOk x hx).aligned

theorem Linked.below_rest (h : Linked R a live l₁ b rest) {x y : Nat} (hx : x ∈ l₁)
    (hy : y ∈ rest) : x + a.mem x < y := by
  have := h.below x hx
  have := (List.pairwise_cons.mp h.apart₂).1 y hy
  have := (h.tiled.freeOk b (by simp)).pos
  omega

/-- The freed block does not touch its predecessor: the list is complete. -/
theorem Linked.join (h : Linked R a live l₁ b rest) (hapart : ∀ x ∈ l₁, x + a.mem x < b) :
    HeapInv R { alloc := a.setNext (lastOr 0 l₁) b, live := live } (l₁ ++ b :: rest) := by
  obtain ⟨r, hleft⟩ := h.left
  have hap : (l₁ ++ b :: rest).Pairwise fun x y => x + a.mem x < y := by
    refine List.pairwise_append.mpr ⟨h.apart₁, h.apart₂, fun x hx y hy => ?_⟩
    rcases List.mem_cons.mp hy with rfl | hy
    · exact hapart x hx
    · exact h.below_rest hx hy
  have hnd : (l₁ ++ b :: rest).Nodup := hap.imp_of_mem fun hx _ hlt => by
    have := (h.tiled.freeOk _ hx).pos
    omega
  have hprev : 8 ∣ lastOr 0 l₁ := Alloc.lastOr_aligned fun x hx => h.aligned (by simp [hx])
  have hhead : ∀ w, 8 ∣ w → (a.setNext (lastOr 0 l₁) b).mem w = a.mem w :=
    fun w hw => Alloc.setNext_header hprev hw
  refine ⟨Alloc.setNext_seg hleft h.right hnd, hap.imp_of_mem fun hx _ hlt => ?_,
    h.tiled.congr (fun x hx => hhead x (h.aligned hx))
      fun l hl => hhead _ (h.tiled.liveOk l hl).aligned⟩
  rw [hhead _ (h.aligned hx)]
  exact hlt

/-- The freed block touches its predecessor, which swallows it. -/
theorem Linked.swallow {z : Nat} (h : Linked R a live (l₁ ++ [z]) b rest)
    (htouch : z + a.mem z = b) :
    HeapInv R
      { alloc := (a.write z (a.mem z + a.mem b)).setNext z (a.mem (b + nextField)), live := live }
      (l₁ ++ z :: rest) := by
  obtain ⟨r, hleft⟩ := h.left
  have hz8 := h.aligned (x := z) (by simp)
  have hzb : z < b := by
    have := (h.tiled.freeOk z (by simp)).pos
    omega
  have hlz : ∀ x ∈ l₁, x + a.mem x < z := fun x hx =>
    (List.pairwise_append.mp h.apart₁).2.2 x hx z (by simp)
  have hbr := (List.pairwise_cons.mp h.apart₂).1
  have hne : ∀ x ∈ l₁ ++ rest, x ≠ z := by
    intro x hx
    rcases List.mem_append.mp hx with hx | hx
    · have := hlz x hx
      omega
    · have := hbr x hx
      omega
  have h8 : ∀ x ∈ l₁ ++ rest, 8 ∣ x := fun x hx => h.aligned (by
    rcases List.mem_append.mp hx with hx | hx <;> simp [hx])
  generalize ha₁ : a.write z (a.mem z + a.mem b) = a₁
  have hhead : ∀ w, 8 ∣ w → w ≠ z → (a₁.setNext z (a.mem (b + nextField))).mem w = a.mem w := by
    intro w hw hwz
    rw [Alloc.setNext_header hz8 hw, ← ha₁, Alloc.write_of_ne hwz]
  have hsize : (a₁.setNext z (a.mem (b + nextField))).mem z = a.mem z + a.mem b := by
    rw [Alloc.setNext_header hz8 hz8, ← ha₁, Alloc.write_same]
  have hlink : ∀ w, 8 ∣ w → a₁.mem (w + nextField) = a.mem (w + nextField) := by
    intro w hw
    rw [← ha₁, Alloc.write_of_ne (by rw [nextField]; omega)]
  have hsame : SameHeaders a.mem (a₁.setNext z (a.mem (b + nextField))).mem (l₁ ++ rest) live := by
    refine ⟨fun x hx => hhead x (h8 x hx) (hne x hx), fun l hl => ?_⟩
    have hok := h.tiled.liveOk l hl
    refine hhead _ hok.aligned fun heq => ?_
    have := hok.room
    have := (h.tiled.freeOk z (by simp)).pos
    exact h.tiled.free_live (x := z) (a := z) (by simp) hl (by omega) (by omega)
  have hap : (l₁ ++ z :: rest).Pairwise fun x y =>
      x + (a₁.setNext z (a.mem (b + nextField))).mem x < y := by
    refine List.pairwise_append.mpr ⟨?_, List.pairwise_cons.mpr ⟨?_, ?_⟩, ?_⟩
    · refine (List.pairwise_append.mp h.apart₁).1.imp_of_mem fun hx _ hlt => ?_
      rw [hsame.1 _ (by simp [hx])]
      exact hlt
    · intro y hy
      have := hbr y hy
      rw [hsize]
      omega
    · refine (List.pairwise_cons.mp h.apart₂).2.imp_of_mem fun hx _ hlt => ?_
      rw [hsame.1 _ (by simp [hx])]
      exact hlt
    · intro x hx y hy
      rw [hsame.1 x (by simp [hx])]
      rcases List.mem_cons.mp hy with rfl | hy
      · exact hlz x hx
      · exact h.below_rest (by simp [hx]) hy
  have htiled : Tiled R (a₁.setNext z (a.mem (b + nextField))).mem (l₁ ++ z :: rest) live := by
    have := h.tiled
    rw [List.append_assoc, List.singleton_append] at this
    exact this.merge htouch hsame hsize
  refine ⟨?_, hap, htiled⟩
  have hfirst : a₁.firstBlock = a.firstBlock := by
    rw [← ha₁]
    rfl
  have hseg₁ : Seg a₁.mem nextField a₁.firstBlock (l₁ ++ [z]) r := by
    rw [hfirst]
    exact hleft.congr fun x hx => hlink x (h.aligned (List.mem_append_left _ hx))
  have hseg₂ : Seg a₁.mem nextField (a.mem (b + nextField)) rest 0 :=
    h.right.2.2.congr fun x hx => hlink x (h8 x (by simp [hx]))
  have hnd : (l₁ ++ z :: rest).Nodup := hap.imp_of_mem fun hx _ hlt => by
    have := (htiled.freeOk _ hx).pos
    omega
  have hseg := Alloc.setNext_seg hseg₁ hseg₂ (by rw [List.append_assoc]; exact hnd)
  rw [lastOr_append, List.append_assoc] at hseg
  exact hseg

theorem Linked.connectPrev (h : Linked R a live l₁ b rest) :
    ∃ free, HeapInv R { alloc := a.connectPrev b (lastOr 0 l₁), live := live } free := by
  have hhi := R.hi_lt
  have hin := h.tiled.free_inside (a := b) (by simp)
  rcases List.eq_nil_or_concat l₁ with rfl | ⟨l, z, rfl⟩
  · refine ⟨b :: rest, ?_⟩
    have hjoin := h.join (fun x hx => by cases hx)
    rw [Alloc.connectPrev, lastOr_nil, if_neg (by simp)]
    rw [lastOr_nil, Alloc.setNext, if_neg (by simp)] at hjoin
    exact hjoin
  · rw [List.concat_eq_append] at h ⊢
    have hz : z ≠ 0 := by
      obtain ⟨r, hleft⟩ := h.left
      obtain ⟨_, _, hz⟩ := seg_append.mp hleft
      exact hz.2.1
    have hzb := h.below z (by simp)
    have hz8 := h.aligned (x := z) (by simp)
    have hb8 := h.aligned (x := b) (by simp)
    have hsum : u32 (z + a.mem z) = z + a.mem z := u32_eq (by omega)
    rw [Alloc.connectPrev, lastOr_append, if_pos hz, hsum]
    split
    · rename_i htouch
      have hboth : u32 (a.mem z + a.mem b) = a.mem z + a.mem b := u32_eq (by omega)
      have hlink : (a.write z (a.mem z + a.mem b)).mem (b + nextField) = a.mem (b + nextField) :=
        Alloc.write_of_ne (by rw [nextField]; omega)
      refine ⟨l ++ z :: rest, ?_⟩
      have hswallow := h.swallow htouch
      rw [Alloc.setNext, if_pos hz] at hswallow
      simp only [hboth, hlink]
      exact hswallow
    · rename_i hgap
      refine ⟨(l ++ [z]) ++ b :: rest, ?_⟩
      have hjoin := h.join fun x hx => by
        rcases List.mem_append.mp hx with hx | hx
        · have := (List.pairwise_append.mp h.apart₁).2.2 x hx z (by simp)
          have := h.below z (by simp)
          omega
        · rw [List.mem_singleton.mp hx]
          omega
      rw [lastOr_append, Alloc.setNext, if_pos hz] at hjoin
      exact hjoin

/-- A live block, and the free blocks around it. -/
structure Found (R : Region) (s : Heap) (l₁ l₂ : List Nat) (k₁ : List Live) (l : Live)
    (k₂ : List Live) : Prop where
  inv : HeapInv R s (l₁ ++ l₂)
  live : s.live = k₁ ++ l :: k₂
  before : ∀ x ∈ l₁, x < l.ptr - 4
  after : ∀ x ∈ l₂, l.ptr - 4 ≤ x
  left : ∃ r, Seg s.alloc.mem nextField s.alloc.firstBlock l₁ r
  right : Seg s.alloc.mem nextField (l₂.headD 0) l₂ 0

theorem Found.tiled (h : Found R s l₁ l₂ k₁ l k₂) :
    Tiled R s.alloc.mem (l₁ ++ l₂) (k₁ ++ l :: k₂) :=
  h.live ▸ h.inv.tiled

theorem Found.ok (h : Found R s l₁ l₂ k₁ l k₂) : LiveOk s.alloc.mem l :=
  h.tiled.liveOk l (by simp)

theorem Found.below (h : Found R s l₁ l₂ k₁ l k₂) {x : Nat} (hx : x ∈ l₁) :
    x + s.alloc.mem x ≤ l.ptr - 4 := by
  have hlt := h.before x hx
  have := h.ok.room
  by_contra hgt
  exact h.tiled.free_live (x := l.ptr - 4) (show x ∈ l₁ ++ l₂ by simp [hx])
    (show l ∈ k₁ ++ l :: k₂ by simp) (by omega) (by omega)

theorem Found.above (h : Found R s l₁ l₂ k₁ l k₂) {x : Nat} (hx : x ∈ l₂) :
    l.ptr - 4 + (liveBlock s.alloc.mem l).size ≤ x := by
  have hle := h.after x hx
  have := (h.tiled.freeOk x (by simp [hx])).pos
  by_contra hgt
  exact h.tiled.free_live (x := x) (show x ∈ l₁ ++ l₂ by simp [hx])
    (show l ∈ k₁ ++ l :: k₂ by simp) (by omega) (by omega)

/-- The other blocks' headers are elsewhere. -/
theorem Found.sameHeaders (h : Found R s l₁ l₂ k₁ l k₂) {mem' : Nat → Nat}
    (hmem : ∀ w, 8 ∣ w → w ≠ l.ptr - 4 → mem' w = s.alloc.mem w) :
    SameHeaders s.alloc.mem mem' (l₁ ++ l₂) (k₁ ++ k₂) := by
  have hroom := h.ok.room
  refine ⟨fun x hx => hmem x (h.inv.aligned hx) ?_, fun l' hl' => ?_⟩
  · rcases List.mem_append.mp hx with hx | hx
    · have := h.before x hx
      omega
    · have := h.above hx
      omega
  · have hok' := h.tiled.liveOk l' (by
      rcases List.mem_append.mp hl' with hl' | hl' <;> simp [hl'])
    refine hmem _ hok'.aligned fun heq => ?_
    have := hok'.room
    exact h.tiled.live_live hl' (x := l.ptr - 4) (by omega) (by omega)

theorem Found.release (h : Found R s l₁ l₂ k₁ l k₂) {mem' : Nat → Nat}
    (hmem : ∀ w, 8 ∣ w → w ≠ l.ptr - 4 → mem' w = s.alloc.mem w)
    (hsize : mem' (l.ptr - 4) = (liveBlock s.alloc.mem l).size) :
    Tiled R mem' (l₁ ++ (l.ptr - 4) :: l₂) (k₁ ++ k₂) :=
  h.tiled.release (h.sameHeaders hmem) hsize

/-- What `connect with next block` writes: a size, of which the tiling is known, and
a link to the rest of the list. -/
theorem Found.linked (h : Found R s l₁ l₂ k₁ l k₂) {n q : Nat} (hsub : rest.Sublist l₂)
    (hseg : Seg s.alloc.mem nextField q rest 0) (hgap : ∀ x ∈ rest, l.ptr - 4 + n < x)
    (htiled : ∀ mem' : Nat → Nat, (∀ w, 8 ∣ w → w ≠ l.ptr - 4 → mem' w = s.alloc.mem w) →
      mem' (l.ptr - 4) = n → Tiled R mem' (l₁ ++ (l.ptr - 4) :: rest) (k₁ ++ k₂)) :
    Linked R ((s.alloc.write (l.ptr - 4) n).write (l.ptr - 4 + nextField) q)
      (k₁ ++ k₂) l₁ (l.ptr - 4) rest := by
  have hok := h.ok
  have hin := h.tiled.live_inside (l := l) (by simp)
  have hlo := R.lo_pos
  have h8 : ∀ x ∈ l₁ ++ rest, 8 ∣ x := fun x hx => h.inv.aligned (by
    rcases List.mem_append.mp hx with hx | hx
    · simp [hx]
    · simp [hsub.subset hx])
  obtain ⟨r, hleft⟩ := h.left
  have hb8 := hok.aligned
  have hsame := @Found.sameHeaders R s l₁ l₂ k₁ k₂ l h
  have hbelow := @Found.below R s l₁ l₂ k₁ k₂ l h
  have hbefore := h.before
  generalize l.ptr - 4 = b at *
  generalize ha' : (s.alloc.write b n).write (b + nextField) q = a'
  have hhead : ∀ w, 8 ∣ w → w ≠ b → a'.mem w = s.alloc.mem w := by
    intro w hw hwb
    rw [← ha', Alloc.write_of_ne (by rw [nextField]; omega), Alloc.write_of_ne hwb]
  have hlink : ∀ w, 8 ∣ w → w ≠ b → a'.mem (w + nextField) = s.alloc.mem (w + nextField) := by
    intro w hw hwb
    rw [← ha', Alloc.write_of_ne (by omega), Alloc.write_of_ne (by rw [nextField]; omega)]
  have hsize : a'.mem b = n := by
    rw [← ha', Alloc.write_of_ne (by rw [nextField]; omega), Alloc.write_same]
  have hfirst : a'.firstBlock = s.alloc.firstBlock := by
    rw [← ha']
    rfl
  have hne : ∀ x ∈ l₁ ++ rest, x ≠ b := by
    intro x hx
    rcases List.mem_append.mp hx with hx | hx
    · have := hbefore x hx
      omega
    · have := hgap x hx
      omega
  obtain ⟨hap₁, hap₂, -⟩ := List.pairwise_append.mp h.inv.apart
  have hsizes : ∀ x ∈ l₁ ++ rest, a'.mem x = s.alloc.mem x := fun x hx =>
    hhead x (h8 x hx) (hne x hx)
  refine ⟨⟨r, ?_⟩, ⟨rfl, by omega, ?_⟩, ?_, List.pairwise_cons.mpr ⟨?_, ?_⟩, ?_,
    htiled _ hhead hsize⟩
  · rw [hfirst]
    exact hleft.congr fun x hx => hlink x (h8 x (by simp [hx])) (hne x (by simp [hx]))
  · have hval : a'.mem (b + nextField) = q := by rw [← ha', Alloc.write_same]
    rw [hval]
    exact hseg.congr fun x hx => hlink x (h8 x (by simp [hx])) (hne x (by simp [hx]))
  · refine hap₁.imp_of_mem fun hx _ hlt => ?_
    rw [hsizes _ (by simp [hx])]
    exact hlt
  · intro x hx
    rw [hsize]
    exact hgap x hx
  · refine (hap₂.sublist hsub).imp_of_mem fun hx _ hlt => ?_
    rw [hsizes _ (by simp [hx])]
    exact hlt
  · intro x hx
    have := hbelow hx
    rw [hsizes x (by simp [hx])]
    omega

/-- The block swallows the successor it touches. -/
theorem Found.release_merge {x : Nat} (h : Found R s l₁ (x :: rest) k₁ l k₂) {mem' : Nat → Nat}
    (htouch : l.ptr - 4 + (liveBlock s.alloc.mem l).size = x)
    (hmem : ∀ w, 8 ∣ w → w ≠ l.ptr - 4 → mem' w = s.alloc.mem w)
    (hsize : mem' (l.ptr - 4) = (liveBlock s.alloc.mem l).size + s.alloc.mem x) :
    Tiled R mem' (l₁ ++ (l.ptr - 4) :: rest) (k₁ ++ k₂) := by
  have hroom := h.ok.room
  generalize hmem₁ : Function.update s.alloc.mem (l.ptr - 4)
    (liveBlock s.alloc.mem l).size = mem₁
  have hw : ∀ w, w ≠ l.ptr - 4 → mem₁ w = s.alloc.mem w := fun w hwb => by
    rw [← hmem₁, Function.update_of_ne hwb]
  have hself : mem₁ (l.ptr - 4) = (liveBlock s.alloc.mem l).size := by
    rw [← hmem₁, Function.update_self]
  have htiled := h.release (fun w _ hwb => hw w hwb) hself
  have hsame : SameHeaders mem₁ mem' (l₁ ++ rest) (k₁ ++ k₂) := by
    have h₁ := h.sameHeaders (fun w _ hwb => hw w hwb)
    have h₂ := h.sameHeaders hmem
    refine ⟨fun y hy => ?_, fun l' hl' => by rw [h₁.2 l' hl', h₂.2 l' hl']⟩
    have hy' : y ∈ l₁ ++ x :: rest := by
      rcases List.mem_append.mp hy with hy | hy <;> simp [hy]
    rw [h₁.1 y hy', h₂.1 y hy']
  refine htiled.merge (by rw [hself, htouch]) hsame ?_
  rw [hsize, hself, hw x (by omega)]

theorem Found.connectNext (h : Found R s l₁ l₂ k₁ l k₂) :
    ∃ rest, Linked R
      (s.alloc.connectNext (l.ptr - 4) (liveBlock s.alloc.mem l).size (l₂.headD 0)) (k₁ ++ k₂)
      l₁ (l.ptr - 4) rest := by
  have hok := h.ok
  have hroom := hok.room
  have hin := h.tiled.live_inside (l := l) (by simp)
  have hhi := R.hi_lt
  have hsum : u32 (l.ptr - 4 + (liveBlock s.alloc.mem l).size)
      = l.ptr - 4 + (liveBlock s.alloc.mem l).size := u32_eq (by omega)
  rw [Alloc.connectNext, hsum]
  cases l₂ with
  | nil =>
      refine ⟨[], ?_⟩
      rw [List.headD_nil, if_neg (by omega)]
      exact h.linked (List.Sublist.refl _) rfl (fun x hx => by cases hx)
        fun mem' hmem hsize => h.release hmem hsize
  | cons x rest =>
      have habove := h.above (x := x) (by simp)
      have hxin := h.tiled.free_inside (a := x) (by simp)
      have hx8 := h.inv.aligned (a := x) (by simp)
      have hb8 := hok.aligned
      have hrest : ∀ y ∈ rest, x + s.alloc.mem x < y :=
        (List.pairwise_cons.mp (List.pairwise_append.mp h.inv.apart).2.1).1
      rw [List.headD_cons]
      split
      · rename_i htouch
        have hboth : u32 ((liveBlock s.alloc.mem l).size + s.alloc.mem x)
            = (liveBlock s.alloc.mem l).size + s.alloc.mem x := u32_eq (by omega)
        refine ⟨rest, ?_⟩
        simp only [hboth]
        rw [Alloc.write_of_ne (by rw [nextField]; omega)]
        refine h.linked (List.sublist_cons_self x rest) h.right.2.2 (fun y hy => ?_)
          fun mem' hmem hsize => h.release_merge htouch hmem hsize
        have := hrest y hy
        omega
      · rename_i hgap
        refine ⟨x :: rest, ?_⟩
        refine h.linked (List.Sublist.refl _) h.right (fun y hy => ?_)
          fun mem' hmem hsize => h.release hmem hsize
        rcases List.mem_cons.mp hy with rfl | hy
        · omega
        · have := hrest y hy
          omega

theorem HeapInv.free {free : List Nat} (h : HeapInv R s free) {fuel : Nat}
    (hfuel : R.size / 8 < fuel) (i : Nat) :
    ∃ s', s.step fuel (.free i) = some s' ∧ ∃ free', HeapInv R s' free' := by
  rw [Heap.step]
  cases hl : s.live[i]? with
  | none => exact ⟨s, rfl, free, h⟩
  | some l =>
      obtain ⟨hi, hget⟩ := List.getElem?_eq_some_iff.mp hl
      have hsplit : s.live = s.live.take i ++ l :: s.live.drop (i + 1) := by
        rw [← hget, ← List.drop_eq_getElem_cons hi, List.take_append_drop]
      have hok := h.tiled.liveOk l (List.mem_of_getElem? hl)
      obtain ⟨l₁, l₂, rfl, hbefore, hafter, hs₁, hs₂, hw⟩ := @walk_eq s.alloc.mem nextField
        s.alloc.firstBlock free (fun next => next < l.ptr - 4) fuel 0 h.list (h.length_lt hfuel)
      have hfound : Found R s l₁ l₂ (s.live.take i) l (s.live.drop (i + 1)) := by
        refine ⟨h, hsplit, fun x hx => by simpa using hbefore x hx, ?_, ⟨_, hs₁⟩, hs₂⟩
        cases l₂ with
        | nil => exact fun x hx => by cases hx
        | cons y l₂ =>
            have hy : l.ptr - 4 ≤ y := by simpa using hafter y rfl
            have hrest := (List.pairwise_cons.mp (List.pairwise_append.mp h.apart).2.1).1
            intro x hx
            rcases List.mem_cons.mp hx with rfl | hx
            · exact hy
            · have := hrest x hx
              omega
      obtain ⟨rest, hlinked⟩ := hfound.connectNext
      obtain ⟨free', hinv⟩ := hlinked.connectPrev
      have hin := h.tiled.live_inside (List.mem_of_getElem? hl)
      have hroom := hok.room
      have hhi := R.hi_lt
      have hptr := hok.ptr
      have hblock : sub32 l.ptr 4 = l.ptr - 4 := sub32_eq hptr (by omega)
      have hcanary : (canaryDecode (s.alloc.mem (l.ptr - 4))).canary = canary (l.ptr - 4) := by
        rw [hok.header]
        exact (decode_encode hok.small).2
      have hfree : s.alloc.domainFree fuel l.ptr = some
          ((s.alloc.connectNext (l.ptr - 4) (liveBlock s.alloc.mem l).size
            (l₂.headD 0)).connectPrev (l.ptr - 4) (lastOr 0 l₁)) := by
        simp only [Alloc.domainFree, hblock, hcanary, ne_eq, not_true_eq_false, if_false,
          Alloc.freeMemory, hw]
        rfl
      refine ⟨_, ?_, free', hinv⟩
      show Option.map _ (s.alloc.domainFree fuel l.ptr) = _
      rw [hfree, List.eraseIdx_eq_take_drop_succ]
      rfl

end Free

/-! ## Runs -/

section Run

variable {R : Region} {s : Heap} {free : List Nat}

/-- The blocks of two pointers have no byte in common. -/
def Live.Apart (l l' : Live) : Prop :=
  ∀ x, l.ptr - 4 ≤ x → x < l.ptr + l.size → l'.ptr - 4 ≤ x → ¬ x < l'.ptr + l'.size

instance : Std.Symm Live.Apart where
  symm _ _ h x hlo hhi hlo' hhi' := h x hlo' hhi' hlo hhi

theorem HeapInv.live_apart (h : HeapInv R s free) : s.live.Pairwise Live.Apart := by
  refine List.pairwise_iff_getElem.mpr fun i j hi hj hij x hlo hhi hlo' hhi' => ?_
  have hsplit : s.live = s.live.take i ++ s.live[i] :: s.live.drop (i + 1) := by
    rw [← List.drop_eq_getElem_cons hi, List.take_append_drop]
  have hmem : s.live[j] ∈ s.live.take i ++ s.live.drop (i + 1) :=
    List.mem_append_right _ (List.mem_drop_iff_getElem.mpr
      ⟨j - (i + 1), by omega, by simp only [show i + 1 + (j - (i + 1)) = j by omega]⟩)
  have hok := h.tiled.liveOk _ (List.getElem_mem hi)
  have hok' := h.tiled.liveOk _ (List.getElem_mem hj)
  have hptr := hok.ptr
  have hroom := hok.room
  have hptr' := hok'.ptr
  have hroom' := hok'.room
  have htiled := h.tiled
  rw [hsplit] at htiled
  exact htiled.live_live hmem (x := x) ⟨hlo, by omega⟩ ⟨hlo', by omega⟩

/-- A store to a payload. -/
theorem HeapInv.write (h : HeapInv R s free) {l : Live} (hl : l ∈ s.live) {w : Nat}
    (hlo : l.ptr ≤ w) (hhi : w < l.ptr + l.size) (v : Nat) :
    HeapInv R { s with alloc := s.alloc.write w v } free := by
  have hok := h.tiled.liveOk l hl
  have hptr := hok.ptr
  have hroom := hok.room
  have hfree : ∀ a ∈ free, w ≠ a ∧ w ≠ a + nextField := by
    intro a ha
    have hpos := (h.tiled.freeOk a ha).pos
    have hsize := (h.tiled.freeOk a ha).size
    rw [nextField]
    constructor <;> intro heq
    · exact h.tiled.free_live (x := a) ha hl (by omega) (by omega)
    · exact h.tiled.free_live (x := a + 4) ha hl (by omega) (by omega)
  have hlive : ∀ l' ∈ s.live, l'.ptr - 4 ≠ w := by
    intro l' hl' heq
    by_cases hsame : l = l'
    · subst hsame
      omega
    · have hroom' := (h.tiled.liveOk l' hl').ptr
      exact h.live_apart.forall hl hl' hsame w (by omega) hhi (by omega) (by omega)
  refine ⟨h.list.congr fun a ha => Alloc.write_of_ne (hfree a ha).2.symm, ?_,
    h.tiled.congr (fun a ha => Alloc.write_of_ne (hfree a ha).1.symm)
      fun l' hl' => Alloc.write_of_ne (hlive l' hl')⟩
  refine h.apart.imp_of_mem fun ha _ hlt => ?_
  show _ + (s.alloc.write _ _).mem _ < _
  rw [Alloc.write_of_ne (hfree _ ha).1.symm]
  exact hlt

theorem HeapInv.store (h : HeapInv R s free) (fuel i k v : Nat) :
    ∃ s', s.step fuel (.store i k v) = some s' ∧ ∃ free', HeapInv R s' free' := by
  rw [Heap.step]
  cases hl : s.live[i]? with
  | none => exact ⟨s, rfl, free, h⟩
  | some l =>
      by_cases hk : 4 * k < l.size
      · exact ⟨_, if_pos hk, free, h.write (List.mem_of_getElem? hl) (by omega) (by omega) _⟩
      · exact ⟨s, if_neg hk, free, h⟩

/-- The rounded block size of a request does not wrap. -/
def HeapOp.Fits : HeapOp → Prop
  | .malloc size => size + 11 < 2 ^ 32
  | .free _ => True
  | .store _ _ _ => True

instance : DecidablePred HeapOp.Fits
  | .malloc size => inferInstanceAs (Decidable (size + 11 < 2 ^ 32))
  | .free _ => inferInstanceAs (Decidable True)
  | .store _ _ _ => inferInstanceAs (Decidable True)

theorem HeapInv.step (h : HeapInv R s free) {fuel : Nat} (hfuel : R.size / 8 < fuel) {op : HeapOp}
    (hop : op.Fits) : ∃ s', s.step fuel op = some s' ∧ ∃ free', HeapInv R s' free' := by
  cases op with
  | malloc size => exact h.malloc hfuel hop
  | free i => exact h.free hfuel i
  | store i k v => exact h.store fuel i k v

theorem HeapInv.run (h : HeapInv R s free) {fuel : Nat} (hfuel : R.size / 8 < fuel)
    {ops : List HeapOp} (hops : ∀ op ∈ ops, op.Fits) :
    ∃ s', s.run fuel ops = some s' ∧ ∃ free', HeapInv R s' free' := by
  induction ops generalizing s free with
  | nil => exact ⟨s, rfl, free, h⟩
  | cons op ops ih =>
      obtain ⟨s₁, hs₁, free₁, h₁⟩ := h.step hfuel (hops op List.mem_cons_self)
      obtain ⟨s₂, hs₂, free₂, h₂⟩ := ih h₁ fun op hop => hops op (List.mem_cons_of_mem _ hop)
      exact ⟨s₂, by rw [Heap.run, hs₁]; exact hs₂, free₂, h₂⟩

/-- The initial block is the aligned part of the region. -/
theorem allocInit_eq (R : Region) (mem : Nat → Nat) : allocInit mem R.base R.size = ⟨R.lo,
    Function.update (Function.update mem R.lo (R.hi - R.lo)) (R.lo + nextField) 0⟩ := by
  have hend := R.end_lt
  have hholds := R.holds
  have hbase : alignUp R.base minBlockSize = R.lo := by
    rw [alignUp_eq (by omega)]
    rfl
  have hlo : R.base ≤ R.lo ∧ 8 ∣ R.lo := by
    rw [Region.lo]
    omega
  have hhi : R.hi ≤ R.base + R.size ∧ R.lo + 8 ≤ R.hi := by
    rw [Region.lo, Region.hi]
    omega
  have hsize : alignDown (sub32 R.size (sub32 (alignUp R.base minBlockSize) R.base)) minBlockSize
      = R.hi - R.lo := by
    rw [hbase, sub32_eq hlo.1 (by omega), sub32_eq (by omega) (by omega), alignDown_eq (by omega)]
    rw [Region.hi]
    omega
  rw [allocInit, hsize, hbase]

theorem start_inv (R : Region) (mem : Nat → Nat) :
    HeapInv R (.start mem R.base R.size) [R.lo] ∧
      (Heap.start mem R.base R.size).alloc.mem R.lo = R.hi - R.lo := by
  have hpos := R.lo_pos
  have hlt := R.lo_lt_hi
  have hlo : 8 ∣ R.lo := by
    rw [Region.lo]
    omega
  have hhi : 8 ∣ R.hi := by
    rw [Region.hi]
    omega
  have halloc : (Heap.start mem R.base R.size).alloc = (Alloc.mk R.lo
      (Function.update (Function.update mem R.lo (R.hi - R.lo)) (R.lo + nextField) 0)) :=
    allocInit_eq R mem
  have hmem : (Heap.start mem R.base R.size).alloc.mem R.lo = R.hi - R.lo := by
    rw [halloc]
    show Function.update (Function.update mem R.lo (R.hi - R.lo)) (R.lo + nextField) 0 R.lo = _
    rw [Function.update_of_ne (by rw [nextField]; omega), Function.update_self]
  refine ⟨⟨?_, List.pairwise_singleton _ _, ⟨?_, fun l hl => (by cases hl), fun x => ?_⟩⟩, hmem⟩
  · rw [halloc]
    exact ⟨rfl, by omega, Function.update_self _ _ _⟩
  · intro a ha
    rw [List.mem_singleton.mp ha]
    exact ⟨hlo, by rw [hmem]; omega, by rw [hmem]; exact Nat.dvd_sub hhi hlo⟩
  · have := has_iff (a := R.lo) (n := R.hi - R.lo) (x := x)
    rw [Nat.add_sub_cancel' (by omega)] at this
    show List.countP _ [freeBlock _ R.lo] = _
    rw [freeBlock, hmem, List.countP_singleton]
    simp only [this]

/-- With no live block the list is the initial block again. -/
theorem HeapInv.single (h : HeapInv R s free) (hlive : s.live = []) :
    free = [R.lo] ∧ s.alloc.mem R.lo = R.hi - R.lo := by
  have hlt := R.lo_lt_hi
  have hcovered : ∀ x, R.lo ≤ x → x < R.hi → ∃ a ∈ free, a ≤ x ∧ x < a + s.alloc.mem a := by
    intro x hlo hhi
    have hcover := h.tiled.cover x
    rw [if_pos ⟨hlo, hhi⟩, hlive] at hcover
    obtain ⟨B, hB, hx⟩ := List.countP_pos_iff.mp (Nat.lt_of_lt_of_eq Nat.zero_lt_one hcover.symm)
    rw [blocks, List.map_nil, List.append_nil] at hB
    obtain ⟨a, ha, rfl⟩ := List.mem_map.mp hB
    exact ⟨a, ha, has_iff.mp hx⟩
  cases hfree : free with
  | nil =>
      obtain ⟨a, ha, -⟩ := hcovered R.lo (Nat.le_refl _) (by omega)
      rw [hfree] at ha
      cases ha
  | cons a rest =>
      rw [hfree] at h hcovered
      have hrest := (List.pairwise_cons.mp h.apart).1
      have hin := h.tiled.free_inside (a := a) (by simp)
      have ha : a = R.lo := by
        obtain ⟨b, hb, hle, -⟩ := hcovered R.lo (Nat.le_refl _) (by omega)
        rcases List.mem_cons.mp hb with rfl | hb
        · omega
        · have := hrest b hb
          omega
      have hend : a + s.alloc.mem a = R.hi := by
        by_contra hne
        obtain ⟨b, hb, hle, hltb⟩ := hcovered (a + s.alloc.mem a) (by omega) (by omega)
        rcases List.mem_cons.mp hb with rfl | hb
        · omega
        · have := hrest b hb
          omega
      have hnil : rest = [] := by
        cases rest with
        | nil => rfl
        | cons b rest =>
            have := hrest b (by simp)
            have := h.tiled.free_inside (a := b) (by simp)
            omega
      rw [hnil, ha]
      rw [ha] at hend
      exact ⟨rfl, by omega⟩

end Run

/-- Every sequence of allocations, frees of live pointers and stores to their
payloads runs through, and leaves a heap whose free list is sorted and coalesced
and whose free and live blocks tile the region; once nothing is live, the list is
the initial block. -/
theorem heap_invariant (R : Region) (mem : Nat → Nat) (fuel : Nat) (hfuel : R.size / 8 < fuel)
    (ops : List HeapOp) (hops : ∀ op ∈ ops, op.Fits) :
    ∃ s, (Heap.start mem R.base R.size).run fuel ops = some s ∧
      ∃ free, HeapInv R s free ∧
        (s.live = [] → free = [R.lo] ∧ s.alloc.mem R.lo = R.hi - R.lo) := by
  obtain ⟨s, hs, free, h⟩ := (start_inv R mem).1.run hfuel hops
  exact ⟨s, hs, free, h, h.single⟩

/-- A region whose first aligned address is 8. -/
def smallRegion : Region where
  base := 4
  size := 100
  base_pos := by decide
  end_lt := by decide
  holds := by decide

/-- The first of two blocks is freed, split, and all is freed again. -/
def mallocTest : List HeapOp :=
  [.malloc 20, .malloc 10, .free 1, .malloc 4, .store 0 0 7, .free 1, .free 0]

theorem heap_invariant_mallocTest :
    ∃ s, (Heap.start (fun _ => 1) 4 100).run 13 mallocTest = some s ∧ s.live = [] ∧
      s.alloc.mem 8 = 96 := by
  obtain ⟨s, hs, free, -, hsingle⟩ := heap_invariant smallRegion (fun _ => 1) 13 (by decide)
    mallocTest (by decide)
  have hlive : ((Heap.start (fun _ => 1) 4 100).run 13 mallocTest).map (·.live.length)
      = some 0 := by decide
  have hrun : (Heap.start (fun _ => 1) 4 100).run 13 mallocTest = some s := hs
  rw [hrun] at hlive
  have hnil : s.live = [] := List.length_eq_zero_iff.mp (Option.some.inj hlive)
  exact ⟨s, hs, hnil, (hsingle hnil).2⟩

end TeraNoC.Runtime
