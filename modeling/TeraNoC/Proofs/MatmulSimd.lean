import Mathlib.Tactic.Abel
import Mathlib.Tactic.Ring
import TeraNoC.Kernels.MatmulSimd
import TeraNoC.Lib.Tiling
import TeraNoC.Proofs.Vectors

/-!
# Matrix multiplication with vector instructions

The shuffles transpose the vectors of `B`, so that one turn of the innermost loop adds as many
products to every sum as a vector has elements. The pointers of the version with post-increments
come back to the next vector of the first row.
-/

namespace TeraNoC.Kernels

open TeraNoC.Lib TeraNoC.Runtime

/-! ## One turn -/

section Halfwords

variable {f g : Nat → BitVec 16}

def pairV2s (f : Nat → BitVec 16) : V2s := f 1 ++ f 0

theorem lane_pairV2s {i : Nat} (hi : i < 2) : lane (pairV2s f) i = f i := by
  obtain rfl | rfl : i = 0 ∨ i = 1 := by omega
  · exact lane_append_zero
  · exact lane_append_one

theorem pairV2s_congr (h : ∀ i < 2, f i = g i) : pairV2s f = pairV2s g := by
  rw [pairV2s, pairV2s, h 0 (by decide), h 1 (by decide)]

theorem loadV2s_eq {X : Nat → BitVec 16} {index : Nat} :
    loadV2s X index = pairV2s fun z => X (index + z) := rfl

theorem shuffleV2s_pair {mask : Nat → Nat} (h : ∀ i < 2, mask i < 4) :
    shuffleV2s (pairV2s f) (pairV2s g) mask =
      pairV2s fun i => if mask i < 2 then f (mask i) else g (mask i - 2) := by
  change pairV2s (fun i => if mask i < 2 then lane (pairV2s f) (mask i) else
    lane (pairV2s g) (mask i - 2)) = _
  refine pairV2s_congr fun i hi => ?_
  have hmask := h i hi
  split
  · exact lane_pairV2s ‹_›
  · exact lane_pairV2s (by omega)

theorem sumdotspH_pair {z : Int32} : sumdotspH (pairV2s f) (pairV2s g) z =
    z + ∑ i ∈ Finset.range 2, extend (f i) * extend (g i) := by
  rw [sumdotspH, dotspH, extractH, extractH, extractH, extractH, lane_pairV2s (by decide),
    lane_pairV2s (by decide), lane_pairV2s (by decide), lane_pairV2s (by decide),
    Finset.sum_range_succ, Finset.sum_range_succ, Finset.sum_range_zero, extend, extend, extend,
    extend]
  abel

/-- A column of two rows of `B`. -/
theorem i16_bVec {X : Nat → BitVec 16} {b : Nat → Nat} {y : Nat} (hy : y < 2) :
    (if y = 0 then shuffleV2s (loadV2s X (b 0)) (loadV2s X (b 1)) (maskOf [0, 2])
      else shuffleV2s (loadV2s X (b 0)) (loadV2s X (b 1)) (maskOf [1, 3])) =
      pairV2s fun z => X (b z + y) := by
  rw [loadV2s_eq, loadV2s_eq, shuffleV2s_pair (by decide), shuffleV2s_pair (by decide)]
  obtain rfl | rfl : y = 0 ∨ y = 1 := by omega
  · rfl
  · rfl

end Halfwords

section Bytes

variable {f g : Nat → BitVec 8}

def quadV4s (f : Nat → BitVec 8) : V4s := f 3 ++ f 2 ++ f 1 ++ f 0

theorem byteLane_quadV4s {i : Nat} (hi : i < 4) : byteLane (quadV4s f) i = f i := by
  obtain rfl | rfl | rfl | rfl : i = 0 ∨ i = 1 ∨ i = 2 ∨ i = 3 := by omega
  · exact BitVec.extractLsb'_append_eq_right
  · rw [byteLane, quadV4s, BitVec.extractLsb'_append_eq_of_le (by decide)]
    exact BitVec.extractLsb'_append_eq_right
  · rw [byteLane, quadV4s, BitVec.extractLsb'_append_eq_of_le (by decide),
      BitVec.extractLsb'_append_eq_of_le (by decide)]
    exact BitVec.extractLsb'_append_eq_right
  · rw [byteLane, quadV4s, BitVec.extractLsb'_append_eq_of_le (by decide),
      BitVec.extractLsb'_append_eq_of_le (by decide)]
    exact BitVec.extractLsb'_append_eq_left

theorem quadV4s_congr (h : ∀ i < 4, f i = g i) : quadV4s f = quadV4s g := by
  rw [quadV4s, quadV4s, h 0 (by decide), h 1 (by decide), h 2 (by decide), h 3 (by decide)]

theorem loadV4s_eq {X : Nat → BitVec 8} {index : Nat} :
    loadV4s X index = quadV4s fun z => X (index + z) := rfl

theorem shuffleV4s_quad {mask : Nat → Nat} (h : ∀ i < 4, mask i < 8) :
    shuffleV4s (quadV4s f) (quadV4s g) mask =
      quadV4s fun i => if mask i < 4 then f (mask i) else g (mask i - 4) := by
  change quadV4s (fun i => if mask i < 4 then byteLane (quadV4s f) (mask i) else
    byteLane (quadV4s g) (mask i - 4)) = _
  refine quadV4s_congr fun i hi => ?_
  have hmask := h i hi
  split
  · exact byteLane_quadV4s ‹_›
  · exact byteLane_quadV4s (by omega)

theorem sumdotp4_quad {z : Int32} : sumdotp4 (quadV4s f) (quadV4s g) z =
    z + ∑ i ∈ Finset.range 4, extend (f i) * extend (g i) := by
  change z + extend (byteLane _ 0) * extend (byteLane _ 0) +
    extend (byteLane _ 1) * extend (byteLane _ 1) + extend (byteLane _ 2) * extend (byteLane _ 2) +
    extend (byteLane _ 3) * extend (byteLane _ 3) = _
  rw [byteLane_quadV4s (by decide), byteLane_quadV4s (by decide), byteLane_quadV4s (by decide),
    byteLane_quadV4s (by decide), byteLane_quadV4s (by decide), byteLane_quadV4s (by decide),
    byteLane_quadV4s (by decide), byteLane_quadV4s (by decide), Finset.sum_range_succ,
    Finset.sum_range_succ, Finset.sum_range_succ, Finset.sum_range_succ, Finset.sum_range_zero]
  abel

/-- Two rounds of shuffles: a column of four rows of `B`. -/
theorem i8_bVec {X : Nat → BitVec 8} {b : Nat → Nat} (x : Nat) {y : Nat} (hy : y < 4)
    (aVec : Nat → V4s) (sums : Nat → Nat → Int32) :
    i8Mac aVec (fun z => loadV4s X (b z)) sums x y =
      sumdotp4 (aVec x) (quadV4s fun z => X (b z + y)) (sums x y) := by
  rw [i8Mac]
  simp only [loadV4s_eq]
  rw [shuffleV4s_quad (by decide), shuffleV4s_quad (by decide), shuffleV4s_quad (by decide),
    shuffleV4s_quad (by decide), shuffleV4s_quad (by decide), shuffleV4s_quad (by decide),
    shuffleV4s_quad (by decide), shuffleV4s_quad (by decide)]
  obtain rfl | rfl | rfl | rfl : y = 0 ∨ y = 1 ∨ y = 2 ∨ y = 3 := by omega
  · rfl
  · rfl
  · rfl
  · rfl

end Bytes

/-- The kernels of one width do what the scalar products ask for. -/
structure SimdWidth.Correct {w : Nat} (simd : SimdWidth w) : Prop where
  rows : 2 ≤ simd.rows
  cols : 0 < simd.cols
  word : simd.size * simd.cols = 4
  mac : ∀ (A B : Nat → BitVec w) (a b : Nat → Nat) (sums : Nat → Nat → Int32) (x y : Nat),
    y < simd.cols → simd.mac (fun x => simd.load A (a x)) (fun z => simd.load B (b z)) sums x y =
      sums x y + ∑ z ∈ Finset.range simd.cols, extend (A (a x + z)) * extend (B (b z + y))

theorem i16Width_correct : i16Width.Correct where
  rows := by decide
  cols := by decide
  word := rfl
  mac := fun A B a b sums x y hy => by
    change sumdotspH (loadV2s A (a x)) (if y = 0 then _ else _) (sums x y) =
      sums x y + ∑ z ∈ Finset.range 2, extend (A (a x + z)) * extend (B (b z + y))
    refine (congrArg (sumdotspH _ · _) (i16_bVec hy)).trans ?_
    rw [loadV2s_eq, sumdotspH_pair]

theorem i8Width_correct : i8Width.Correct where
  rows := by decide
  cols := by decide
  word := rfl
  mac := fun A B a b sums x y hy => by
    change i8Mac (fun x => loadV4s A (a x)) (fun z => loadV4s B (b z)) sums x y =
      sums x y + ∑ z ∈ Finset.range 4, extend (A (a x + z)) * extend (B (b z + y))
    rw [i8_bVec x hy, loadV4s_eq, sumdotp4_quad]

/-! ## A tile -/

section Tile

variable {w : Nat} {simd : SimdWidth w} (hs : simd.Correct) {A B : Nat → BitVec w}
  {m n q N P i j k x y z : Nat}

/-- The first `n` products of an element. -/
def prefixProduct (A B : Nat → BitVec w) (N P i j n : Nat) : Int32 :=
  ∑ k ∈ Finset.range n, extend (A (i * N + k)) * extend (B (k * P + j))

/-- The products that the vectors `j` add to the sums of a tile. -/
def PartialSums (simd : SimdWidth w) (A B : Nat → BitVec w) (N P i k j : Nat)
    (sums : Nat → Nat → Int32) : Prop :=
  ∀ x < simd.rows, ∀ y < simd.cols, sums x y =
    prefixProduct A B N P (i * simd.rows + x) (k * simd.cols + y) (j * simd.cols)

theorem partialSums_zero : PartialSums simd A B N P i k 0 fun _ _ => 0 := fun x _ y _ => by
  rw [prefixProduct, Nat.zero_mul, Finset.sum_range_zero]

include hs in
theorem PartialSums.turn {sums : Nat → Nat → Int32} (h : PartialSums simd A B N P i k j sums)
    {a b : Nat → Nat} (ha : ∀ x < simd.rows, a x = (i * simd.rows + x) * N + j * simd.cols)
    (hb : ∀ z < simd.cols, b z = (j * simd.cols + z) * P + k * simd.cols) :
    PartialSums simd A B N P i k (j + 1)
      (simd.mac (fun x => simd.load A (a x)) (fun z => simd.load B (b z)) sums) :=
      fun x hx y hy => by
  rw [hs.mac A B a b sums x y hy, h x hx y hy, prefixProduct, prefixProduct, Nat.succ_mul,
    Finset.sum_range_add]
  congr 1
  refine Finset.sum_congr rfl fun z hz => ?_
  rw [ha x hx, hb z (Finset.mem_range.mp hz), Nat.add_assoc, Nat.add_assoc]

/-- What a tile adds to the trace. -/
def productTile (simd : SimdWidth w) (A B : Nat → BitVec w) (n q i k : Nat) (t : TileTrace) :
    TileTrace where
  writes := t.writes ++ (tileCells (q * simd.cols) simd.rows simd.cols (i, k)).map fun ij =>
    (ij, matProduct A B (n * simd.cols) (q * simd.cols) (ij / (q * simd.cols))
      (ij % (q * simd.cols)))
  loadsA := t.loadsA ++ (List.range n).flatMap fun j => (List.range simd.rows).map fun x =>
    (i * simd.rows + x) * (n * simd.cols) + j * simd.cols
  loadsB := t.loadsB ++ (List.range n).flatMap fun j => (List.range simd.cols).map fun z =>
    (j * simd.cols + z) * (q * simd.cols) + k * simd.cols

/-- The values that a tile stores. -/
theorem tile_values {sums : Nat → Nat → Int32}
    (h : PartialSums simd A B (n * simd.cols) (q * simd.cols) i k n sums) (hk : k < q) :
    ((List.range simd.rows).flatMap fun x => (List.range simd.cols).map fun y =>
      ((i * simd.rows + x) * (q * simd.cols) + (k * simd.cols + y), sums x y)) =
    (tileCells (q * simd.cols) simd.rows simd.cols (i, k)).map fun ij =>
      (ij, matProduct A B (n * simd.cols) (q * simd.cols) (ij / (q * simd.cols))
        (ij % (q * simd.cols))) := by
  rw [tileCells, List.map_flatMap]
  refine List.flatMap_congr fun x hx => ?_
  rw [List.map_map]
  refine List.map_congr_left fun y hy => ?_
  have hy := List.mem_range.mp hy
  obtain ⟨hrow, hcol⟩ := cell_div_mod (i := i * simd.rows + x) (tile_column_lt hk hy)
  rw [Function.comp_apply, hrow, hcol, h x (List.mem_range.mp hx) y hy]
  rfl

end Tile

/-! ## Intrinsics -/

section Intrinsics

variable {w : Nat} {simd : SimdWidth w} (hs : simd.Correct) {A B : Nat → BitVec w}
  {m n q i k : Nat} (hA : m * simd.rows * (n * simd.cols) ≤ 2 ^ 32)
  (hB : n * simd.cols * (q * simd.cols) ≤ 2 ^ 32) (hC : m * simd.rows * (q * simd.cols) ≤ 2 ^ 32)

include hA in
theorem aIndex_eq {j x : Nat} (hi : i < m) (hj : j < n) (hcols : 0 < simd.cols)
    (hx : x < simd.rows) : aIndex simd (n * simd.cols) i j x =
      (i * simd.rows + x) * (n * simd.cols) + j * simd.cols := by
  have hlt := tile_column_lt (tile_column_lt hi hx) (tile_column_lt hj hcols)
  exact u32_eq (by omega)

include hB in
theorem bIndex_eq {j z : Nat} (hk : k < q) (hj : j < n) (hcols : 0 < simd.cols)
    (hz : z < simd.cols) : bIndex simd (q * simd.cols) j k z =
      (j * simd.cols + z) * (q * simd.cols) + k * simd.cols := by
  have hlt := tile_column_lt (tile_column_lt hj hz) (tile_column_lt hk hcols)
  exact u32_eq (by omega)

include hs hA hB in
theorem simdSums_eq (hi : i < m) (hk : k < q) :
    PartialSums simd A B (n * simd.cols) (q * simd.cols) i k n
      (simdSums simd A B (n * simd.cols) (q * simd.cols) i k) := by
  rw [simdSums, Nat.mul_div_cancel n hs.cols]
  exact foldl_range_inv (PartialSums simd A B (n * simd.cols) (q * simd.cols) i k) partialSums_zero
    fun j sums hj hsums => hsums.turn hs (fun x hx => aIndex_eq hA hi hj hs.cols hx)
      fun z hz => bIndex_eq hB hk hj hs.cols hz

include hs hA hB hC in
theorem simdTile_eq (hi : i < m) (hk : k < q) (t : TileTrace) :
    simdTile simd A B (n * simd.cols) (q * simd.cols) i k t = productTile simd A B n q i k t := by
  have hwrites := tile_values (simdSums_eq (A := A) (B := B) hs hA hB hi hk) hk
  rw [simdTile, productTile, Nat.mul_div_cancel n hs.cols, ← hwrites]
  congr 2
  · refine List.flatMap_congr fun x hx => List.map_congr_left fun y hy => ?_
    have hlt := tile_column_lt (tile_column_lt hi (List.mem_range.mp hx))
      (tile_column_lt hk (List.mem_range.mp hy))
    rw [u32_eq (by omega)]
  · refine List.flatMap_congr fun j hj => List.map_congr_left fun x hx => ?_
    exact aIndex_eq hA hi (List.mem_range.mp hj) hs.cols (List.mem_range.mp hx)
  · refine List.flatMap_congr fun j hj => List.map_congr_left fun z hz => ?_
    exact bIndex_eq hB hk (List.mem_range.mp hj) hs.cols (List.mem_range.mp hz)

/-- The tiles of a column. -/
def productColumn (simd : SimdWidth w) (A B : Nat → BitVec w) (m n q k : Nat) (t : TileTrace) :
    TileTrace :=
  (List.range m).foldl (fun t i => productTile simd A B n q i k t) t

/-- The columns of a thread. -/
def productThread (simd : SimdWidth w) (A B : Nat → BitVec w) (m n q numThreads id : Nat) :
    TileTrace :=
  ((List.range (turns id q numThreads)).map (id + · * numThreads)).foldl
    (fun t k => productColumn simd A B m n q k t) {}

/-- The loop over `k` does what it does for every column of the thread. -/
theorem columnLoop_eq {numThreads id fuel : Nat} {σ : Type} {body : Nat → σ → σ}
    {s : σ} (hq : q + numThreads ≤ 2 ^ 32) (hid : id < numThreads)
    (hfuel : q ≤ fuel) : forLoop (fun k => k < q) (fun k => u32 (k + numThreads)) body fuel id s =
      some (((List.range (turns id q numThreads)).map (id + · * numThreads)).foldl
        (fun s k => body k s) s) := by
  have hpos : 0 < numThreads := Nat.zero_lt_of_lt hid
  have hlast := turns_lt (a := id) (b := q) hpos
  rw [List.foldl_map]
  exact forLoop_add (fun k hk => (lt_turns hpos).mp hk) (le_turns hpos) (by omega)
    ((turns_le hpos).trans hfuel)

include hs hA hB hC in
theorem simdKernel_ends {numThreads id : Nat} (hq : q + numThreads ≤ 2 ^ 32)
    (hid : id < numThreads) :
    Ends (simdKernel simd A B (m * simd.rows) (n * simd.cols) (q * simd.cols) id numThreads)
      (productThread simd A B m n q numThreads id) := by
  refine ⟨q, fun fuel hfuel => ?_⟩
  rw [simdKernel, Nat.mul_div_cancel q hs.cols, Nat.mul_div_cancel m (by have := hs.rows; omega),
    columnLoop_eq hq hid hfuel, productThread]
  congr 1
  refine List.foldl_ext _ _ _ fun t k hk => List.foldl_ext _ _ _ fun t i hi => ?_
  have hk := ((mem_counter (Nat.zero_lt_of_lt hid)).mp hk).1
  exact simdTile_eq hs hA hB hC (List.mem_range.mp hi) hk t

end Intrinsics

/-! ## All threads -/

section Threads

variable {w : Nat} {simd : SimdWidth w} (hs : simd.Correct) {A B : Nat → BitVec w}
  {m n q numThreads id : Nat}

/-- A list that the turns of both loops append to. -/
theorem productThread_out {α : Type} (out : TileTrace → List α) (f : Nat → Nat → List α)
    (hout : ∀ i k t, out (productTile simd A B n q i k t) = out t ++ f i k) (hempty : out {} = []) :
    out (productThread simd A B m n q numThreads id) =
      ((List.range (turns id q numThreads)).map (id + · * numThreads)).flatMap fun k =>
        (List.range m).flatMap fun i => f i k := by
  have hcolumn : ∀ k t, out (productColumn simd A B m n q k t) =
      out t ++ (List.range m).flatMap fun i => f i k := fun k t =>
    foldl_appends out (fun i => f i k) (fun i t => hout i k t) (List.range m) t
  rw [productThread, foldl_appends out _ hcolumn, hempty, List.nil_append]

include hs in
/-- Together the threads store the product. -/
theorem productThread_writes (hpos : 0 < numThreads) :
    ((List.range numThreads).flatMap fun id =>
      (productThread simd A B m n q numThreads id).writes).Perm
    ((List.range (m * simd.rows * (q * simd.cols))).map fun ij =>
      (ij, matProduct A B (n * simd.cols) (q * simd.cols) (ij / (q * simd.cols))
        (ij % (q * simd.cols)))) := by
  have hrows : 0 < simd.rows := by
    have := hs.rows
    omega
  rw [List.flatMap_congr fun id _ => productThread_out TileTrace.writes _ (fun _ _ _ => rfl) rfl,
    ← List.flatMap_assoc]
  refine ((counters_perm hpos).flatMap_right _).trans ?_
  have hcells := (tileCells_perm (m := m) (q := q) hrows hs.cols (List.Perm.refl _)).map fun ij =>
    (ij, matProduct A B (n * simd.cols) (q * simd.cols) (ij / (q * simd.cols))
      (ij % (q * simd.cols)))
  rw [tileGrid, List.flatMap_assoc, List.map_flatMap] at hcells
  simp only [List.flatMap_map, List.map_flatMap] at hcells
  exact hcells

include hs in
theorem productThread_loads (hid : id < numThreads) :
    (∀ a ∈ (productThread simd A B m n q numThreads id).loadsA,
      a + simd.cols ≤ m * simd.rows * (n * simd.cols)) ∧
    ∀ b ∈ (productThread simd A B m n q numThreads id).loadsB,
      b + simd.cols ≤ n * simd.cols * (q * simd.cols) := by
  have hvector : ∀ {rows cols r j : Nat}, r < rows → j < cols →
      r * (cols * simd.cols) + j * simd.cols + simd.cols ≤ rows * (cols * simd.cols) :=
    fun hr hj => by
      have hlast := tile_column_lt hr (tile_column_lt hj (show simd.cols - 1 < simd.cols by
        have := hs.cols
        omega))
      have := hs.cols
      omega
  rw [productThread_out TileTrace.loadsA _ (fun _ _ _ => rfl) rfl,
    productThread_out TileTrace.loadsB _ (fun _ _ _ => rfl) rfl]
  simp only [List.mem_flatMap, List.mem_map, List.mem_range]
  constructor
  · rintro a ⟨k, -, i, hi, j, hj, x, hx, rfl⟩
    exact hvector (tile_column_lt hi hx) hj
  · rintro b ⟨k, ⟨c, hc, rfl⟩, i, -, j, hj, z, hz, rfl⟩
    exact hvector (tile_column_lt hj hz) ((lt_turns (Nat.zero_lt_of_lt hid)).mp hc)

include hs in
/-- A kernel whose threads do their columns of tiles is exact. -/
theorem simdExact_of_ends {kernel : Nat → Nat → Option TileTrace} (hpos : 0 < numThreads)
    (hends : ∀ id < numThreads, Ends (kernel id) (productThread simd A B m n q numThreads id)) :
    SimdExact simd.cols A B (m * simd.rows) (n * simd.cols) (q * simd.cols) numThreads kernel :=
  ⟨_, hends, productThread_writes hs hpos, fun _ hid => productThread_loads hs hid⟩

end Threads

/-! ## Pointers with post-increments -/

section Pointers

variable {a d e n : Nat} {l l' : List Nat}

theorem u32_lt (x : Nat) : u32 x < 2 ^ 32 := Nat.mod_lt x (by decide)

theorem u32_u32_add (x y : Nat) : u32 (u32 x + y) = u32 (x + y) := Nat.mod_add_mod x _ y

theorem u32_add_u32 (x y : Nat) : u32 (x + u32 y) = u32 (x + y) := Nat.add_mod_mod x y _

theorem u32_add_mul_u32 (x y z : Nat) : u32 (x + y * u32 z) = u32 (x + y * z) := by
  rw [← u32_add_u32 x (y * u32 z), ← u32_add_u32 x (y * z)]
  exact congrArg (fun v => u32 (x + v)) (Nat.mul_mod_mod y z _)

theorem u32_add_sub32 (x y : Nat) (hy : y < 2 ^ 32) : u32 (x + y + sub32 d y) = u32 (x + d) := by
  rw [sub32, u32_add_u32, show x + y + (d + 2 ^ 32 - y) = x + d + 2 ^ 32 by omega]
  exact Nat.add_mod_right _ _

/-- Down some rows and back. -/
theorem u32_back (a x c : Nat) : u32 (a + x * u32 c + sub32 d (u32 (x * c))) = u32 (a + d) := by
  rw [← u32_u32_add, u32_add_mul_u32, ← u32_add_u32 a (x * c), u32_u32_add,
    u32_add_sub32 a _ (u32_lt _)]

theorem postAddrs_append : postAddrs a (l ++ l') =
    ((postAddrs a l).1 ++ (postAddrs (postAddrs a l).2 l').1,
      (postAddrs (postAddrs a l).2 l').2) := by
  induction l generalizing a with
  | nil => rfl
  | cons incr l ih =>
      rw [List.cons_append, postAddrs, ih]
      rfl

theorem postAddrs_replicate (ha : a < 2 ^ 32) (n : Nat) : postAddrs a (List.replicate n d) =
    ((List.range n).map fun x => u32 (a + x * d), u32 (a + n * d)) := by
  induction n with
  | zero =>
      rw [Nat.zero_mul, Nat.add_zero, u32_eq ha]
      rfl
  | succ n ih =>
      rw [List.replicate_succ', postAddrs_append, ih, List.range_succ, List.map_append]
      refine Prod.ext rfl ?_
      change u32 (u32 (a + n * d) + d) = _
      rw [u32_u32_add, Nat.succ_mul, Nat.add_assoc]

/-- A row of accesses, and a last increment to the next one. -/
theorem postAddrs_row (ha : a < 2 ^ 32) (hn : 0 < n) :
    postAddrs a (List.replicate (n - 1) d ++ [e]) =
      ((List.range n).map fun x => u32 (a + x * d), u32 (a + (n - 1) * d + e)) := by
  obtain ⟨n, rfl⟩ : ∃ n', n = n' + 1 := ⟨n - 1, by omega⟩
  rw [postAddrs_append, postAddrs_replicate ha, Nat.add_sub_cancel, List.range_succ,
    List.map_append]
  refine Prod.ext rfl ?_
  change u32 (u32 (a + n * d) + e) = _
  rw [u32_u32_add]

/-- Rows of accesses that are `step` apart. -/
theorem postAddrs_rows {step : Nat} (ha : a < 2 ^ 32) (hn : 0 < n)
    (hstep : ∀ b, u32 (b + (n - 1) * d + e) = u32 (b + step)) (rows : Nat) :
    postAddrs a ((List.range rows).flatMap fun _ => List.replicate (n - 1) d ++ [e]) =
      ((List.range rows).flatMap fun x => (List.range n).map fun y => u32 (a + x * step + y * d),
        u32 (a + rows * step)) := by
  induction rows with
  | zero =>
      rw [Nat.zero_mul, Nat.add_zero, u32_eq ha]
      rfl
  | succ rows ih =>
      rw [List.range_succ, List.flatMap_append, postAddrs_append, ih, List.flatMap_singleton,
        postAddrs_row (u32_lt _) hn, List.flatMap_append, List.flatMap_singleton]
      refine Prod.ext ?_ ?_
      · simp only [u32_u32_add]
      · change u32 (u32 (a + rows * step) + (n - 1) * d + e) = _
        rw [hstep, u32_u32_add, Nat.succ_mul, Nat.add_assoc]

theorem zipWith_rows {ι α β γ : Type} {f : α → β → γ} {g : Nat → ι → α} {h : Nat → ι → β}
    (xs : List Nat) (ys : List ι) :
    List.zipWith f (xs.flatMap fun x => ys.map (g x)) (xs.flatMap fun x => ys.map (h x)) =
      xs.flatMap fun x => ys.map fun y => f (g x y) (h x y) := by
  induction xs with
  | nil => rfl
  | cons x xs ih =>
      rw [List.flatMap_cons, List.flatMap_cons, List.flatMap_cons, List.zipWith_append, ih,
        List.zipWith_map, List.zipWith_self]
      rw [List.length_map, List.length_map]

theorem getD_range_map {f : Nat → Nat} {x : Nat} (hx : x < n) :
    ((List.range n).map f).getD x 0 = f x := by
  rw [List.getD_eq_getElem _ _ (by rwa [List.length_map, List.length_range]), List.getElem_map,
    List.getElem_range]

/-- The byte offset of an element, and the element at it. -/
theorem byte_index {size total e : Nat} (hsize : 0 < size) (hfit : total * size ≤ 2 ^ 32)
    (he : e < total) : size * e < 2 ^ 32 ∧ u32 (size * e) / size = e := by
  have hlt : size * e < size * total := (Nat.mul_lt_mul_left hsize).mpr he
  rw [Nat.mul_comm size total] at hlt
  have hlt := hlt.trans_le hfit
  exact ⟨hlt, by rw [u32_eq hlt, Nat.mul_div_cancel_left e hsize]⟩

end Pointers

/-! ## The versions with post-increments -/

section Pincr

variable {w : Nat} {simd : SimdWidth w} (hs : simd.Correct) {A B : Nat → BitVec w}
  {m n q i k : Nat} (hA : m * simd.rows * (n * simd.cols) * simd.size ≤ 2 ^ 32)
  (hB : n * simd.cols * (q * simd.cols) * simd.size ≤ 2 ^ 32)
  (hC : (m * simd.rows + 1) * (q * simd.cols) * 4 ≤ 2 ^ 32)

/-- The state of the innermost loop after `j` vectors. -/
structure AtVector (simd : SimdWidth w) (A B : Nat → BitVec w) (n q i k j : Nat) (r : PincrSums) :
    Prop where
  idxA : r.idxA = simd.size * (i * simd.rows * (n * simd.cols) + j * simd.cols)
  idxB : r.idxB = u32 (simd.size * (j * simd.cols * (q * simd.cols) + k * simd.cols))
  sums : PartialSums simd A B (n * simd.cols) (q * simd.cols) i k j r.sums
  loadsA : r.loadsA = (List.range j).flatMap fun j => (List.range simd.rows).map fun x =>
    (i * simd.rows + x) * (n * simd.cols) + j * simd.cols
  loadsB : r.loadsB = (List.range j).flatMap fun j => (List.range simd.cols).map fun z =>
    (j * simd.cols + z) * (q * simd.cols) + k * simd.cols

theorem SimdWidth.Correct.size_pos (hs : simd.Correct) : 0 < simd.size := by
  by_contra h
  have hword := hs.word
  rw [Nat.eq_zero_of_not_pos h, Nat.zero_mul] at hword
  omega

include hs hA in
/-- The end of a row of vectors, which is not the last one of the tile. -/
theorem rowEnd_lt (hi : i < m) :
    simd.size * (i * simd.rows * (n * simd.cols) + n * simd.cols) < 2 ^ 32 := by
  have hrow := tile_column_lt hi (show simd.rows - 1 < simd.rows by have := hs.rows; omega)
  have hrows : i * simd.rows + 2 ≤ m * simd.rows := by
    have := hs.rows
    omega
  have hle := Nat.mul_le_mul_right simd.size (Nat.mul_le_mul_right (n * simd.cols) hrows)
  rw [Nat.add_mul, Nat.add_mul, Nat.mul_comm _ simd.size, Nat.mul_comm _ simd.size] at hle
  rw [Nat.mul_add]
  rcases Nat.eq_zero_or_pos (n * simd.cols) with hzero | hpos
  · rw [hzero, Nat.mul_zero, Nat.mul_zero]
    decide
  · have hmul := Nat.mul_pos hs.size_pos hpos
    have htwo : simd.size * (2 * (n * simd.cols)) = 2 * (simd.size * (n * simd.cols)) := by ring
    omega

include hs hA hB

theorem AtVector.turn {j : Nat} {r : PincrSums} (hi : i < m) (hk : k < q) (hj : j < n)
    (h : AtVector simd A B n q i k j r) : AtVector simd A B n q i k (j + 1)
      (pincrTurn simd A B (n * simd.cols) (q * simd.cols) r) := by
  have hrows : 0 < simd.rows := by
    have := hs.rows
    omega
  have hfirst := byte_index hs.size_pos hA (tile_column_lt (tile_column_lt hi hrows)
    (tile_column_lt hj hs.cols))
  rw [Nat.add_zero, Nat.add_zero] at hfirst
  have hidxA : r.idxA < 2 ^ 32 := h.idxA ▸ hfirst.1
  have hidxB : r.idxB < 2 ^ 32 := h.idxB ▸ u32_lt _
  have ha := postAddrs_row (a := r.idxA) (d := u32 (n * simd.cols * simd.size))
    (e := sub32 4 (u32 (n * simd.cols * (simd.rows - 1) * simd.size))) hidxA hrows
  have hb := postAddrs_replicate (a := r.idxB)
    (d := u32 (q * simd.cols * simd.size)) hidxB simd.cols
  have hindexA : ∀ x < simd.rows, u32 (r.idxA + x * u32 (n * simd.cols * simd.size)) / simd.size =
      (i * simd.rows + x) * (n * simd.cols) + j * simd.cols := fun x hx => by
    have hbyte := byte_index hs.size_pos hA (tile_column_lt (tile_column_lt hi hx)
      (tile_column_lt hj hs.cols))
    rw [Nat.add_zero] at hbyte
    rw [u32_add_mul_u32, h.idxA,
      show simd.size * (i * simd.rows * (n * simd.cols) + j * simd.cols) +
      x * (n * simd.cols * simd.size) =
        simd.size * ((i * simd.rows + x) * (n * simd.cols) + j * simd.cols) by ring]
    exact hbyte.2
  have hindexB : ∀ z < simd.cols, u32 (r.idxB + z * u32 (q * simd.cols * simd.size)) / simd.size =
      (j * simd.cols + z) * (q * simd.cols) + k * simd.cols := fun z hz => by
    have hbyte := byte_index hs.size_pos hB (tile_column_lt (tile_column_lt hj hz)
      (tile_column_lt hk hs.cols))
    rw [Nat.add_zero] at hbyte
    rw [u32_add_mul_u32, h.idxB, u32_u32_add,
      show simd.size * (j * simd.cols * (q * simd.cols) + k * simd.cols) +
        z * (q * simd.cols * simd.size) =
        simd.size * ((j * simd.cols + z) * (q * simd.cols) + k * simd.cols) by ring]
    exact hbyte.2
  simp only [pincrTurn, ha, hb]
  refine ⟨?_, ?_, h.sums.turn hs (fun x hx => ?_) fun z hz => ?_, ?_, ?_⟩
  · have hend := rowEnd_lt hs hA hi
    have hvector := Nat.mul_le_mul_left simd.size (Nat.add_le_add_left
      (Nat.mul_le_mul_right simd.cols (show j + 1 ≤ n from hj)) (i * simd.rows * (n * simd.cols)))
    have hnext : simd.size * (i * simd.rows * (n * simd.cols) + j * simd.cols) + 4 =
        simd.size * (i * simd.rows * (n * simd.cols) + (j + 1) * simd.cols) := by
      rw [← hs.word]
      ring
    rw [show n * simd.cols * (simd.rows - 1) * simd.size =
      (simd.rows - 1) * (n * simd.cols * simd.size) by ring]
    change u32 (r.idxA + (simd.rows - 1) * u32 (n * simd.cols * simd.size) +
      sub32 4 (u32 ((simd.rows - 1) * (n * simd.cols * simd.size)))) = _
    rw [u32_back, h.idxA, hnext, u32_eq (by omega)]
  · dsimp only
    rw [u32_add_mul_u32, h.idxB, u32_u32_add]
    congr 1
    ring
  · rw [getD_range_map hx]
    exact hindexA x hx
  · rw [getD_range_map hz]
    exact hindexB z hz
  · dsimp only
    rw [h.loadsA, List.range_succ, List.flatMap_append, List.flatMap_singleton]
    congr 1
    refine List.map_congr_left fun x hx => ?_
    rw [getD_range_map (List.mem_range.mp hx)]
    exact hindexA x (List.mem_range.mp hx)
  · dsimp only
    rw [h.loadsB, List.range_succ, List.flatMap_append, List.flatMap_singleton]
    congr 1
    refine List.map_congr_left fun z hz => ?_
    rw [getD_range_map (List.mem_range.mp hz)]
    exact hindexB z (List.mem_range.mp hz)

theorem pincrLoop_eq {fuel : Nat} (hi : i < m) (hk : k < q) (hfuel : n ≤ fuel) :
    ∃ r, AtVector simd A B n q i k n r ∧
      whileLoop (fun r => r.idxA < u32 (simd.size * (i * simd.rows * (n * simd.cols)) +
          u32 (n * simd.cols * simd.size)))
        (pincrTurn simd A B (n * simd.cols) (q * simd.cols)) fuel
        { idxA := simd.size * (i * simd.rows * (n * simd.cols)),
          idxB := u32 (k * simd.cols * simd.size) } = some r := by
  have hend : u32 (simd.size * (i * simd.rows * (n * simd.cols)) +
    u32 (n * simd.cols * simd.size)) =
      simd.size * (i * simd.rows * (n * simd.cols) + n * simd.cols) := by
    rw [u32_add_u32, show simd.size * (i * simd.rows * (n * simd.cols)) +
      n * simd.cols * simd.size =
      simd.size * (i * simd.rows * (n * simd.cols) + n * simd.cols) by ring,
      u32_eq (rowEnd_lt hs hA hi)]
  rw [hend]
  generalize hstart : PincrSums.mk (simd.size * (i * simd.rows * (n * simd.cols)))
    (u32 (k * simd.cols * simd.size)) (fun _ _ => 0) [] [] = start
  have hzero : AtVector simd A B n q i k 0 start := by
    subst hstart
    refine ⟨?_, ?_, partialSums_zero, rfl, rfl⟩
    · rw [Nat.zero_mul, Nat.add_zero]
    · change u32 (k * simd.cols * simd.size) = _
      rw [Nat.zero_mul, Nat.zero_mul, Nat.zero_add, Nat.mul_comm simd.size]
  have hvectors : ∀ j ≤ n, AtVector simd A B n q i k j
      ((pincrTurn simd A B (n * simd.cols) (q * simd.cols))^[j] start) := fun j hj => by
    induction j with
    | zero => exact hzero
    | succ j ih =>
        rw [Function.iterate_succ_apply']
        exact (ih (by omega)).turn hs hA hB hi hk (by omega)
  refine ⟨_, hvectors n (Nat.le_refl n), whileLoop_through
    (fun j => (pincrTurn simd A B (n * simd.cols) (q * simd.cols))^[j] start) (fun j hj => ?_) ?_
    (fun j _ => (Function.iterate_succ_apply' _ j start).symm) hfuel⟩
  · rw [decide_eq_true_iff, (hvectors j hj.le).idxA]
    exact (Nat.mul_lt_mul_left hs.size_pos).mpr (Nat.add_lt_add_left
      ((Nat.mul_lt_mul_right hs.cols).mpr hj) _)
  · rw [decide_eq_false_iff_not, (hvectors n (Nat.le_refl n)).idxA]
    exact Nat.lt_irrefl _

include hC

theorem pincrTile_eq {fuel : Nat} {t : TileTrace} (hi : i < m) (hk : k < q) (hfuel : n ≤ fuel) :
    pincrTile simd A B (n * simd.cols) (q * simd.cols) fuel k
      ⟨simd.size * (i * simd.rows * (n * simd.cols)),
        4 * (i * simd.rows * (q * simd.cols) + k * simd.cols), t⟩ =
      some ⟨u32 (simd.size * ((i + 1) * simd.rows * (n * simd.cols))),
        4 * ((i + 1) * simd.rows * (q * simd.cols) + k * simd.cols),
        productTile simd A B n q i k t⟩ := by
  obtain ⟨r, hr, hloop⟩ := pincrLoop_eq (A := A) (B := B) hs hA hB hi hk hfuel
  have hrows : 0 < simd.rows := by
    have := hs.rows
    omega
  have hcol : k * simd.cols + simd.cols ≤ q * simd.cols := by
    have := Nat.mul_le_mul_right simd.cols (Nat.succ_le_of_lt hk)
    rwa [Nat.succ_mul] at this
  have hrow := Nat.mul_le_mul_right (q * simd.cols) (Nat.mul_le_mul_right simd.rows
    (show i + 1 ≤ m from hi))
  have hnext : (i + 1) * simd.rows * (q * simd.cols) =
      i * simd.rows * (q * simd.cols) + simd.rows * (q * simd.cols) := by ring
  have hfit : m * simd.rows * (q * simd.cols) * 4 + q * simd.cols * 4 ≤ 2 ^ 32 := by
    rw [← Nat.add_mul, ← Nat.succ_mul]
    exact hC
  have hcols := hs.cols
  have hstep : ∀ b, u32 (b + (simd.cols - 1) * 4 +
      sub32 (u32 (q * simd.cols * 4)) (4 * (simd.cols - 1))) =
        u32 (b + q * simd.cols * 4) := fun b => by
    rw [Nat.mul_comm (simd.cols - 1) 4, u32_add_sub32 b _ (by omega), u32_add_u32]
  have hstores := postAddrs_rows (a := 4 * (i * simd.rows * (q * simd.cols) + k * simd.cols))
    (by omega) hs.cols hstep simd.rows
  rw [pincrTile, hloop, Option.bind_eq_bind, Option.bind_some]
  dsimp only
  rw [hstores, zipWith_rows]
  refine congrArg some ?_
  rw [productTile, ← tile_values hr.sums hk, hr.loadsA, hr.loadsB]
  congr 1
  · rw [hr.idxA, u32_add_u32]
    congr 1
    obtain ⟨rows, hrows'⟩ : ∃ rows, simd.rows = rows + 1 := ⟨simd.rows - 1, by omega⟩
    rw [hrows', Nat.add_sub_cancel]
    ring
  · rw [show simd.rows * (q * simd.cols * 4) = 4 * (simd.rows * (q * simd.cols)) by ring,
      u32_eq (by omega)]
    omega
  · congr 2
    refine List.flatMap_congr fun x hx => List.map_congr_left fun y hy => ?_
    have hx := List.mem_range.mp hx
    have hlt := tile_column_lt (tile_column_lt hi hx) (tile_column_lt hk (List.mem_range.mp hy))
    have hbyte : 4 * (i * simd.rows * (q * simd.cols) + k * simd.cols) +
        x * (q * simd.cols * 4) + y * 4 =
        4 * ((i * simd.rows + x) * (q * simd.cols) + (k * simd.cols + y)) := by ring
    rw [hbyte, u32_eq (by omega), Nat.mul_div_cancel_left _ (by decide)]

theorem pincrColumn_eq {fuel : Nat} (hk : k < q) (hfuel : max m n ≤ fuel) (t : TileTrace) :
    pincrColumn simd A B (m * simd.rows) (n * simd.cols) (q * simd.cols) fuel k t =
      some (productColumn simd A B m n q k t) := by
  have hcol : k * simd.cols < q * simd.cols := (Nat.mul_lt_mul_right hs.cols).mpr hk
  have hfit : m * simd.rows * (q * simd.cols) * 4 + q * simd.cols * 4 ≤ 2 ^ 32 := by
    rw [← Nat.add_mul, ← Nat.succ_mul]
    exact hC
  have hend : u32 (4 * u32 (q * simd.cols * (m * simd.rows))) =
      4 * (m * simd.rows * (q * simd.cols)) := by
    rw [Nat.mul_comm (q * simd.cols),
      u32_eq (show m * simd.rows * (q * simd.cols) < 2 ^ 32 by omega),
      u32_eq (by omega)]
  have hrow : ∀ i < m, i * simd.rows * (q * simd.cols) + q * simd.cols ≤
      m * simd.rows * (q * simd.cols) := fun i hi => by
    have hrows := tile_column_lt hi (show 0 < simd.rows by have := hs.rows; omega)
    have hle := Nat.mul_le_mul_right (q * simd.cols)
      (show i * simd.rows + 1 ≤ m * simd.rows by omega)
    rwa [Nat.succ_mul] at hle
  let states (i : Nat) : Option PincrState :=
    some ⟨u32 (simd.size * (i * simd.rows * (n * simd.cols))),
      4 * (i * simd.rows * (q * simd.cols) + k * simd.cols),
      (List.range i).foldl (fun t i => productTile simd A B n q i k t) t⟩
  have hnext : ∀ i < m, (states i).bind (pincrTile simd A B (n * simd.cols)
    (q * simd.cols) fuel k) =
      states (i + 1) := fun i hi => by
    have hrowEnd := rowEnd_lt hs hA hi
    rw [Nat.mul_add] at hrowEnd
    change pincrTile simd A B (n * simd.cols) (q * simd.cols) fuel k
      ⟨u32 (simd.size * (i * simd.rows * (n * simd.cols))), _, _⟩ = _
    rw [u32_eq (show simd.size * (i * simd.rows * (n * simd.cols)) < 2 ^ 32 by omega),
      pincrTile_eq hs hA hB hC hi hk ((Nat.le_max_right m n).trans hfuel)]
    change _ = some (PincrState.mk _ _ _)
    rw [List.range_succ, List.foldl_append]
    rfl
  have hgoes : ∀ i < m, ((states i).map fun s => decide
      (s.idxC < 4 * (m * simd.rows * (q * simd.cols)))).getD false = true := fun i hi => by
    have := hrow i hi
    exact decide_eq_true (show 4 * (i * simd.rows * (q * simd.cols) + k * simd.cols) <
      4 * (m * simd.rows * (q * simd.cols)) by omega)
  have hstops : ((states m).map fun s => decide
      (s.idxC < 4 * (m * simd.rows * (q * simd.cols)))).getD false = false :=
    decide_eq_false (show ¬4 * (m * simd.rows * (q * simd.cols) + k * simd.cols) <
      4 * (m * simd.rows * (q * simd.cols)) by omega)
  have hloop : whileLoop (fun s : Option PincrState => (s.map fun s => decide
      (s.idxC < 4 * (m * simd.rows * (q * simd.cols)))).getD false)
      (fun s => s.bind (pincrTile simd A B (n * simd.cols)
      (q * simd.cols) fuel k)) fuel (states 0) =
      some (states m) :=
    whileLoop_through states hgoes hstops hnext ((Nat.le_max_left m n).trans hfuel)
  have hstart : states 0 = some { idxA := 0, idxC := u32 (4 * (k * simd.cols)), trace := t } := by
    change some (PincrState.mk _ _ _) = _
    rw [Nat.zero_mul, Nat.zero_mul, Nat.mul_zero, Nat.zero_mul, Nat.zero_add,
      u32_eq (show 4 * (k * simd.cols) < 2 ^ 32 by omega)]
    rfl
  rw [hstart] at hloop
  rw [pincrColumn, hend, Option.bind_eq_bind, hloop]
  rfl

theorem pincrKernel_ends {numThreads id : Nat} (hq : q + numThreads ≤ 2 ^ 32)
    (hid : id < numThreads) :
    Ends (pincrKernel simd A B (m * simd.rows) (n * simd.cols) (q * simd.cols) id numThreads)
      (productThread simd A B m n q numThreads id) := by
  refine ⟨max q (max m n), fun fuel hfuel => ?_⟩
  rw [pincrKernel, Nat.mul_div_cancel q hs.cols,
    columnLoop_eq hq hid ((Nat.le_max_left _ _).trans hfuel),
    foldl_bind _ _ fun k hk t => pincrColumn_eq hs hA hB hC
      ((mem_counter (Nat.zero_lt_of_lt hid)).mp hk).1 ((Nat.le_max_right _ _).trans hfuel) t]
  rfl

end Pincr

/-- Both kernels of a width are exact, and do the same on every thread. -/
theorem simd_exact {w : Nat} {simd : SimdWidth w} (hs : simd.Correct) {A B : Nat → BitVec w}
    {M N P numThreads : Nat} (hM : simd.rows ∣ M) (hN : simd.cols ∣ N) (hP : simd.cols ∣ P)
    (hpos : 0 < numThreads) (hq : P / simd.cols + numThreads ≤ 2 ^ 32)
    (hA : M * N * simd.size ≤ 2 ^ 32) (hB : N * P * simd.size ≤ 2 ^ 32)
    (hC : (M + 1) * P * 4 ≤ 2 ^ 32) :
    SimdExact simd.cols A B M N P numThreads
        (fun id fuel => simdKernel simd A B M N P id numThreads fuel) ∧
      SimdExact simd.cols A B M N P numThreads
        (fun id fuel => pincrKernel simd A B M N P id numThreads fuel) ∧
      ∀ id < numThreads, ∃ t, Ends (simdKernel simd A B M N P id numThreads) t ∧
        Ends (pincrKernel simd A B M N P id numThreads) t := by
  obtain ⟨m, rfl⟩ := hM
  obtain ⟨n, rfl⟩ := hN
  obtain ⟨q, rfl⟩ := hP
  rw [Nat.mul_div_cancel_left q hs.cols] at hq
  rw [Nat.mul_comm simd.rows m, Nat.mul_comm simd.cols n, Nat.mul_comm simd.cols q] at *
  have hA' := (Nat.le_mul_of_pos_right (m * simd.rows * (n * simd.cols)) hs.size_pos).trans hA
  have hB' := (Nat.le_mul_of_pos_right (n * simd.cols * (q * simd.cols)) hs.size_pos).trans hB
  have hC' : m * simd.rows * (q * simd.cols) ≤ 2 ^ 32 := by
    rw [Nat.succ_mul] at hC
    omega
  have hsimd := fun id (hid : id < numThreads) =>
    simdKernel_ends (A := A) (B := B) hs hA' hB' hC' hq hid
  have hpincr := fun id (hid : id < numThreads) =>
    pincrKernel_ends (A := A) (B := B) hs hA hB hC hq hid
  exact ⟨simdExact_of_ends hs hpos hsimd, simdExact_of_ends hs hpos hpincr,
    fun id hid => ⟨_, hsimd id hid, hpincr id hid⟩⟩

/-- The kernels of both widths compute the product. -/
theorem matmul_simd_exact {M N P numThreads : Nat} (A16 B16 : Nat → BitVec 16)
    (A8 B8 : Nat → BitVec 8) (hM : 4 ∣ M) (hN : 4 ∣ N) (hP : 4 ∣ P) (hpos : 0 < numThreads)
    (hq : P / 2 + numThreads ≤ 2 ^ 32) (hC : (M + 1) * P * 4 ≤ 2 ^ 32) :
    (M * N * 2 ≤ 2 ^ 32 → N * P * 2 ≤ 2 ^ 32 →
      SimdExact 2 A16 B16 M N P numThreads (fun id fuel =>
        matmulUnrolled4x2ParallelI16Xpulpv2 A16 B16 M N P id numThreads fuel) ∧
      SimdExact 2 A16 B16 M N P numThreads (fun id fuel =>
        matmulUnrolled4x2PincrAsmParallelI16Xpulpv2 A16 B16 M N P id numThreads fuel) ∧
      ∀ id < numThreads, ∃ t,
        Ends (matmulUnrolled4x2ParallelI16Xpulpv2 A16 B16 M N P id numThreads) t ∧
          Ends (matmulUnrolled4x2PincrAsmParallelI16Xpulpv2 A16 B16 M N P id numThreads) t) ∧
    (M * N ≤ 2 ^ 32 → N * P ≤ 2 ^ 32 →
      SimdExact 4 A8 B8 M N P numThreads (fun id fuel =>
        matmulUnrolled2x4ParallelI8Xpulpv2 A8 B8 M N P id numThreads fuel) ∧
      SimdExact 4 A8 B8 M N P numThreads (fun id fuel =>
        matmulUnrolled2x4PincrAsmParallelI8Xpulpv2 A8 B8 M N P id numThreads fuel) ∧
      ∀ id < numThreads, ∃ t,
        Ends (matmulUnrolled2x4ParallelI8Xpulpv2 A8 B8 M N P id numThreads) t ∧
          Ends (matmulUnrolled2x4PincrAsmParallelI8Xpulpv2 A8 B8 M N P id numThreads) t) := by
  have hM2 : 2 ∣ M := (show 2 ∣ 4 by decide).trans hM
  have hN2 : 2 ∣ N := (show 2 ∣ 4 by decide).trans hN
  have hP2 : 2 ∣ P := (show 2 ∣ 4 by decide).trans hP
  refine ⟨fun hA hB => simd_exact i16Width_correct hM hN2 hP2 hpos hq hA hB hC,
    fun hA hB => simd_exact i8Width_correct hM2 hN hP hpos ?_ ?_ ?_ hC⟩
  · change P / 4 + numThreads ≤ 2 ^ 32
    omega
  · change M * N * 1 ≤ 2 ^ 32
    omega
  · change N * P * 1 ≤ 2 ^ 32
    omega

theorem matmul_simd_exact_three_threads :
    SimdExact 2 (fun i => BitVec.ofNat 16 i) (fun i => BitVec.ofNat 16 (i * i)) 4 8 4 3
      fun id fuel =>
      matmulUnrolled4x2PincrAsmParallelI16Xpulpv2 (fun i => BitVec.ofNat 16 i)
        (fun i => BitVec.ofNat 16 (i * i)) 4 8 4 id 3 fuel :=
  ((matmul_simd_exact (fun i => BitVec.ofNat 16 i) (fun i => BitVec.ofNat 16 (i * i)) (fun _ => 0)
    (fun _ => 0) (by decide) (by decide) (by decide) (by decide) (by decide) (by decide)).1
      (by decide) (by decide)).2.1

end TeraNoC.Kernels
