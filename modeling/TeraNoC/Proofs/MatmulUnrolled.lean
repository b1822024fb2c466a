import Mathlib.Data.BitVec
import TeraNoC.Kernels.MatmulUnrolled
import TeraNoC.Lib.Tiling

/-!
# Matrix multiplication in tiles of two by two

A thread has one of eight slices of the columns and, with the threads of the same slice, every
`numThreads / 8`-th pair of rows. That takes every element once for some shapes only.
-/

namespace TeraNoC.Kernels

open TeraNoC.Lib TeraNoC.Runtime

/-! ## The sums -/

section Sums

variable {w : Nat} {A B : Nat → BitVec w} {M N P i j x y : Nat}

/-- Two products at a time. -/
theorem pairs_sum (f : Nat → Int32) (n : Nat) :
    ((List.range n).map (2 * ·)).foldl (fun c k => c + f k + f (k + 1)) 0 =
      ∑ k ∈ Finset.range (n * 2), f k := by
  induction n with
  | zero => rw [Nat.zero_mul, Finset.sum_range_zero, List.range_zero, List.map_nil, List.foldl_nil]
  | succ n ih =>
      rw [List.range_succ, List.map_append, List.foldl_append, ih, List.map_singleton,
        List.foldl_cons, List.foldl_nil, show (n + 1) * 2 = n * 2 + 1 + 1 by omega,
        Finset.sum_range_succ, Finset.sum_range_succ, Nat.mul_comm 2 n]

theorem turns_pairs (n : Nat) : turns 0 (n * 2) 2 = n := by
  rw [turns]
  omega

theorem matmul2x2Elem_eq {n : Nat} (hA : M * (n * 2) ≤ 2 ^ 32) (hB : n * 2 * P ≤ 2 ^ 32)
    (hi : i + x < M) (hj : j + y < P) :
    matmul2x2Elem A B (n * 2) P i j x y = matProduct A B (n * 2) P (i + x) (j + y) := by
  rw [matmul2x2Elem, turns_pairs]
  refine (pairs_sum (fun k => extend (A (u32 ((i + x) * (n * 2) + k))) *
    extend (B (u32 (k * P + j + y)))) n).trans (Finset.sum_congr rfl fun k hk => ?_)
  have ha := tile_column_lt (c := n * 2) hi (Finset.mem_range.mp hk)
  have hb := tile_column_lt (c := P) (Finset.mem_range.mp hk) hj
  rw [Nat.add_assoc (k * P), u32_eq (by omega), u32_eq (by omega)]

end Sums

/-! ## What a thread does -/

section Threads

variable {m w id numThreads : Nat} {stores : Nat → Nat → List (Nat × Int32)}

/-- The values of `j` in a slice of `w` columns. -/
def sliceBlocks (w s : Nat) : List Nat := (List.range (turns 0 w 2)).map (w * s + · * 2)

/-- The pairs of rows of a thread. -/
def rowBlocks (m id numThreads : Nat) : List Nat :=
  (List.range (turns (id / 8) m (numThreads / 8))).map (id / 8 + · * (numThreads / 8))

def threadBlocks (m w id numThreads : Nat) : List (Nat × Nat) :=
  (rowBlocks m id numThreads).flatMap fun r => (sliceBlocks w (id % 8)).map fun j => (r * 2, j)

theorem mem_rowBlocks (hT : 8 ≤ numThreads) {r : Nat} : r ∈ rowBlocks m id numThreads ↔
    r < m ∧ id / 8 ≤ r ∧ r % (numThreads / 8) = id / 8 % (numThreads / 8) :=
  mem_counter (Nat.div_pos hT (by decide))

theorem mem_sliceBlocks {s j : Nat} : j ∈ sliceBlocks w s ↔ ∃ k, k * 2 < w ∧ j = w * s + k * 2 := by
  rw [sliceBlocks, List.mem_map]
  constructor
  · rintro ⟨k, hk, rfl⟩
    have := (lt_turns (by decide)).mp (List.mem_range.mp hk)
    exact ⟨k, by omega, rfl⟩
  · rintro ⟨k, hk, rfl⟩
    exact ⟨k, List.mem_range.mpr ((lt_turns (by decide)).mpr (by omega)), rfl⟩

/-- The loop over `j`. -/
theorem sliceLoop_eq {fuel s i : Nat} {writes : List (Nat × Int32)} (hs : s < 8)
    (hw : w * 8 + 1 < 2 ^ 32) (hfuel : w ≤ fuel) :
    forLoop (fun j => j < u32 (w * (s + 1))) (fun j => u32 (j + 2))
      (fun j writes => writes ++ stores i j) fuel (u32 (w * s)) writes =
      some (writes ++ (sliceBlocks w s).flatMap (stores i)) := by
  have hmul := Nat.mul_le_mul_left w (show s + 1 ≤ 8 by omega)
  rw [Nat.mul_succ] at hmul ⊢
  rw [u32_eq (by omega), u32_eq (by omega)]
  have hle := le_turns (a := 0) (b := w) (d := 2) (by decide)
  have hlt := turns_lt (a := 0) (b := w) (d := 2) (by decide)
  refine (forLoop_add (n := turns 0 w 2) (fun k hk => ?_) (by omega) (by omega)
    ((turns_le (by decide)).trans hfuel)).trans ?_
  · have := (lt_turns (a := 0) (b := w) (d := 2) (by decide)).mp hk
    omega
  · rw [foldl_appends (fun writes => writes) (fun k => stores i (w * s + k * 2))
      (fun _ _ => rfl), sliceBlocks, List.flatMap_map]

theorem matmul2x2Loops_ends {P : Nat} (hm : m * 2 ≤ 2 ^ 30) (hP : P ≤ 2 ^ 30)
    (hT : 8 ≤ numThreads) (hT32 : numThreads < 2 ^ 32) (hid : id < numThreads) :
    Ends (fun fuel => matmul2x2Loops (m * 2) P id numThreads fuel stores)
      ((threadBlocks m (P / 8) id numThreads).flatMap fun b => stores b.1 b.2) := by
  have hpos : 0 < numThreads / 8 := Nat.div_pos hT (by decide)
  have hrow : id / 8 ≤ numThreads / 8 := Nat.div_le_div_right hid.le
  refine ⟨max (P / 8) m, fun fuel hfuel => ?_⟩
  have hlt := turns_lt (a := id / 8) (b := m) hpos
  have hbody : ∀ k writes, forLoop (fun j => j < u32 (P / 8 * (id % 8 + 1))) (fun j => u32 (j + 2))
      (fun j writes => writes ++ stores ((id / 8 + k * (numThreads / 8)) * 2) j) fuel
        (u32 (P / 8 * (id % 8))) writes =
      some (writes ++ (sliceBlocks (P / 8) (id % 8)).flatMap
        (stores ((id / 8 + k * (numThreads / 8)) * 2))) := fun k writes =>
    sliceLoop_eq (Nat.mod_lt id (by decide)) (by omega) ((Nat.le_max_left _ _).trans hfuel)
  have hloop : forLoop (fun i => i < m * 2) (fun i => u32 (i + u32 (2 * (numThreads / 8))))
      (fun i writes => writes.bind (forLoop (fun j => j < u32 (P / 8 * (id % 8 + 1)))
        (fun j => u32 (j + 2)) (fun j writes => writes ++ stores i j) fuel
          (u32 (P / 8 * (id % 8))))) fuel (u32 (2 * (id / 8))) (some []) =
      some (some ((threadBlocks m (P / 8) id numThreads).flatMap fun b => stores b.1 b.2)) := by
    rw [u32_eq (show 2 * (numThreads / 8) < 2 ^ 32 by omega),
      u32_eq (show 2 * (id / 8) < 2 ^ 32 by omega), Nat.mul_comm 2, Nat.mul_comm 2]
    have hmul : ∀ k, id / 8 * 2 + k * (numThreads / 8 * 2) = (id / 8 + k * (numThreads / 8)) * 2 :=
      fun k => by rw [Nat.add_mul, Nat.mul_assoc]
    refine (forLoop_add (n := turns (id / 8) m (numThreads / 8)) (fun k hk => ?_) ?_ ?_
      ((turns_le hpos).trans ((Nat.le_max_right _ _).trans hfuel))).trans ?_
    · have := (lt_turns hpos).mp hk
      rw [hmul]
      omega
    · have := le_turns (a := id / 8) (b := m) hpos
      rw [hmul]
      omega
    · rw [hmul]
      omega
    · simp only [hmul]
      rw [foldl_bind _ _ fun k _ writes => hbody k writes, foldl_appends (fun writes => writes)
        (fun k => (sliceBlocks (P / 8) (id % 8)).flatMap
          (stores ((id / 8 + k * (numThreads / 8)) * 2))) (fun _ _ => rfl), List.nil_append,
        threadBlocks, rowBlocks, List.flatMap_assoc, List.flatMap_map]
      simp only [List.flatMap_map]
  exact congrArg Option.join hloop

end Threads

/-! ## The tiles of all threads -/

section Tiles

variable {m p id numThreads : Nat}

theorem mem_threadBlocks {w : Nat} (hT : 8 ≤ numThreads) {x : Nat × Nat} :
    x ∈ threadBlocks m w id numThreads ↔ ∃ r k, r < m ∧ id / 8 ≤ r ∧
      r % (numThreads / 8) = id / 8 % (numThreads / 8) ∧ k * 2 < w ∧
      x = (r * 2, w * (id % 8) + k * 2) := by
  rw [threadBlocks, List.mem_flatMap]
  constructor
  · rintro ⟨r, hr, hx⟩
    obtain ⟨j, hj, rfl⟩ := List.mem_map.mp hx
    obtain ⟨k, hk, rfl⟩ := mem_sliceBlocks.mp hj
    obtain ⟨hm, hge, hmod⟩ := (mem_rowBlocks hT).mp hr
    exact ⟨r, k, hm, hge, hmod, hk, rfl⟩
  · rintro ⟨r, k, hm, hge, hmod, hk, rfl⟩
    exact ⟨r, (mem_rowBlocks hT).mpr ⟨hm, hge, hmod⟩,
      List.mem_map.mpr ⟨_, mem_sliceBlocks.mpr ⟨k, hk, rfl⟩, rfl⟩⟩

theorem nodup_threadBlocks {w : Nat} (hT : 8 ≤ numThreads) :
    (threadBlocks m w id numThreads).Nodup := by
  refine List.nodup_flatMap.mpr ⟨fun r _ => ?_, ?_⟩
  · refine List.Nodup.map (fun j j' h => (Prod.mk.inj h).2) (List.nodup_range.map fun k k' h => ?_)
    omega
  · refine (nodup_counter (Nat.div_pos hT (by decide))).imp fun {r r'} hne => ?_
    simp only [Function.onFun, List.disjoint_left, List.mem_map]
    rintro x ⟨j, -, rfl⟩ ⟨j', -, h⟩
    have := (Prod.mk.inj h).1
    omega

/-- The blocks of the tiles of a grid. -/
def gridBlocks (m q : Nat) : List (Nat × Nat) := (tileGrid m q).map fun t => (t.1 * 2, t.2 * 2)

/-- The thread that has a block. -/
def blockOwner (p numThreads : Nat) (x : Nat × Nat) : Nat :=
  x.1 / 2 % (numThreads / 8) * 8 + x.2 / 2 / p

/-- With slices of an even number of columns, and as many threads for each of them or only one
turn, the threads have the tiles once. -/
theorem threadBlocks_perm (hT : 8 ≤ numThreads)
    (hshare : p = 0 ∨ 8 ∣ numThreads ∨ m ≤ numThreads / 8) :
    ((List.range numThreads).flatMap fun id => threadBlocks m (p * 2) id numThreads).Perm
      (gridBlocks m (p * 8)) := by
  have hR : 0 < numThreads / 8 := Nat.div_pos hT (by decide)
  have hnodup : (gridBlocks m (p * 8)).Nodup := nodup_tileGrid.map fun t t' h => by
    have := Prod.mk.inj h
    exact Prod.ext (by omega) (by omega)
  refine perm_of_owner (blockOwner p numThreads) hnodup (fun id _ => nodup_threadBlocks hT)
    (fun id hid x => ?_) fun x hx => ?_
  · rw [mem_threadBlocks hT]
    constructor
    · rintro ⟨r, k, hr, hge, hmod, hk, rfl⟩
      have hcol := tile_column_lt (Nat.mod_lt id (show 0 < 8 by decide)) (show k < p by omega)
      have hrow : id / 8 < numThreads / 8 := by omega
      have hcolumn : p * 2 * (id % 8) + k * 2 = (id % 8 * p + k) * 2 := by
        rw [Nat.add_mul, Nat.mul_right_comm, Nat.mul_comm p (id % 8)]
      refine ⟨List.mem_map.mpr ⟨(r, id % 8 * p + k), mem_tileGrid.mpr ⟨hr, by omega⟩, ?_⟩, ?_⟩
      · rw [hcolumn]
      · rw [blockOwner, hcolumn, Nat.mul_div_cancel _ (by decide), Nat.mul_div_cancel _ (by decide),
          hmod, Nat.mod_eq_of_lt hrow, (cell_div_mod (show k < p by omega)).1]
        omega
    · rintro ⟨hx, howner⟩
      obtain ⟨t, ht, rfl⟩ := List.mem_map.mp hx
      obtain ⟨hr, hc⟩ := mem_tileGrid.mp ht
      have hp : 0 < p := by omega
      have hslice : t.2 / p < 8 := (Nat.div_lt_iff_lt_mul hp).mpr (Nat.mul_comm p 8 ▸ hc)
      have hmod := Nat.mod_lt t.2 hp
      rw [blockOwner, Nat.mul_div_cancel _ (by decide), Nat.mul_div_cancel _ (by decide)] at howner
      obtain ⟨hrow, hcol⟩ : id / 8 = t.1 % (numThreads / 8) ∧ id % 8 = t.2 / p := by
        rw [← howner]
        exact cell_div_mod hslice
      refine ⟨t.1, t.2 % p, hr, hrow ▸ Nat.mod_le _ _, ?_, by omega, ?_⟩
      · rw [hrow, Nat.mod_mod]
      · rw [hcol, Nat.mul_right_comm, ← Nat.add_mul, Nat.div_add_mod]
  · obtain ⟨t, ht, rfl⟩ := List.mem_map.mp hx
    obtain ⟨hr, hc⟩ := mem_tileGrid.mp ht
    have hp : 0 < p := by omega
    have hslice : t.2 / p < 8 := (Nat.div_lt_iff_lt_mul hp).mpr (Nat.mul_comm p 8 ▸ hc)
    have hmod := Nat.mod_lt t.1 hR
    rw [blockOwner, Nat.mul_div_cancel _ (by decide), Nat.mul_div_cancel _ (by decide)]
    omega

end Tiles

/-! ## Exact shapes -/

section Exact

variable {w : Nat} {A B : Nat → BitVec w} {m n q p numThreads : Nat}
  {stores : Nat → Nat → List (Nat × Int32)}

/-- The stores of a tile that is part of the product. -/
def productStores (A B : Nat → BitVec w) (N P : Nat) (t : Nat × Nat) : List (Nat × Int32) :=
  (tileCells P 2 2 t).map fun ij => (ij, matProduct A B N P (ij / P) (ij % P))

theorem matmul2x2Stores_eq (hA : m * 2 * (n * 2) ≤ 2 ^ 32) (hB : n * 2 * (q * 2) ≤ 2 ^ 32)
    (hC : m * 2 * (q * 2) ≤ 2 ^ 32) {t : Nat × Nat} (ht : t ∈ tileGrid m q) :
    matmul2x2Stores A B (n * 2) (q * 2) (t.1 * 2) (t.2 * 2) =
      productStores A B (n * 2) (q * 2) t := by
  obtain ⟨hr, hc⟩ := mem_tileGrid.mp ht
  rw [matmul2x2Stores, productStores, tileCells, List.map_flatMap]
  refine List.flatMap_congr fun x hx => ?_
  rw [List.map_map]
  refine List.map_congr_left fun y hy => ?_
  have hx := List.mem_range.mp hx
  have hy := List.mem_range.mp hy
  have hi : t.1 * 2 + x < m * 2 := by omega
  have hj : t.2 * 2 + y < q * 2 := by omega
  have hlt := tile_column_lt hi hj
  rw [Function.comp_apply, (cell_div_mod hj).1, (cell_div_mod hj).2, matmul2x2Elem_eq hA hB hi hj,
    Nat.add_assoc, u32_eq (by omega)]

/-- The threads write the product if their blocks are the tiles. -/
theorem productExact_of_stores (hm : m * 2 ≤ 2 ^ 30) (hP : p * 8 * 2 ≤ 2 ^ 30)
    (hT : 8 ≤ numThreads) (hT32 : numThreads < 2 ^ 32)
    (hshare : p = 0 ∨ 8 ∣ numThreads ∨ m ≤ numThreads / 8)
    (hstores : ∀ t ∈ tileGrid m (p * 8), stores (t.1 * 2) (t.2 * 2) =
      productStores A B (n * 2) (p * 8 * 2) t) :
    ProductExact A B (m * 2) (n * 2) (p * 8 * 2) numThreads
      fun id fuel => matmul2x2Loops (m * 2) (p * 8 * 2) id numThreads fuel stores := by
  refine ⟨_, fun id hid => matmul2x2Loops_ends hm hP hT hT32 hid, ?_⟩
  have hw : p * 8 * 2 / 8 = p * 2 := by omega
  rw [hw, ← List.flatMap_assoc]
  refine ((threadBlocks_perm hT hshare).flatMap_right _).trans ?_
  rw [gridBlocks, List.flatMap_map, List.flatMap_congr hstores]
  have hcells := (tileCells_perm (m := m) (q := p * 8) (show 0 < 2 by decide) (show 0 < 2 by decide)
    (List.Perm.refl _)).map fun ij =>
      (ij, matProduct A B (n * 2) (p * 8 * 2) (ij / (p * 8 * 2)) (ij % (p * 8 * 2)))
  rw [List.map_flatMap] at hcells
  exact hcells

end Exact

/-! ## The version with post-increments -/

section Xpulpv2

variable {A B : Nat → Int32} {m n q : Nat}

/-- Byte offsets in a matrix of 32-bit elements. -/
theorem byte_offset {rows cols i j : Nat} (hfit : rows * cols * 4 ≤ 2 ^ 32) (hi : i < rows)
    (hj : j < cols) : u32 (4 * u32 (i * cols + j)) = 4 * (i * cols + j) := by
  have := tile_column_lt hi hj
  rw [u32_eq (show i * cols + j < 2 ^ 32 by omega), u32_eq (by omega)]

/-- From an element to the next one, back and down a row, and to the next one. -/
theorem post_pointers {rows cols i j : Nat} (hfit : rows * cols * 4 ≤ 2 ^ 32)
    (hi : i + 1 < rows) (hj : j + 1 < cols) :
    u32 (4 * (i * cols + j) + 4) = 4 * (i * cols + (j + 1)) ∧
      u32 (4 * (i * cols + (j + 1)) + sub32 (u32 (cols * 4)) 4) = 4 * ((i + 1) * cols + j) ∧
      u32 (4 * ((i + 1) * cols + j) + 4) = 4 * ((i + 1) * cols + (j + 1)) := by
  have hlast := tile_column_lt hi hj
  have hrow : (i + 1) * cols = i * cols + cols := Nat.succ_mul i cols
  have hcols : cols * 4 < 2 ^ 32 := by
    have := Nat.mul_le_mul_right cols (show 2 ≤ rows by omega)
    omega
  rw [u32_eq hcols, sub32_eq (by omega) hcols]
  refine ⟨?_, ?_, ?_⟩
  · rw [u32_eq (by omega)]
    omega
  · rw [u32_eq (by omega)]
    omega
  · rw [u32_eq (by omega)]
    omega

theorem postLoads2x2_eq {X : Nat → Int32} {rows cols i j : Nat} (hfit : rows * cols * 4 ≤ 2 ^ 32)
    (hi : i + 1 < rows) (hj : j + 1 < cols) :
    postLoads2x2 X (sub32 (u32 (cols * 4)) 4) (u32 (4 * u32 (i * cols + j))) =
      (X (i * cols + j), X (i * cols + (j + 1)), X ((i + 1) * cols + j),
        X ((i + 1) * cols + (j + 1))) := by
  obtain ⟨hnext, hdown, hlower⟩ := post_pointers hfit hi hj
  rw [postLoads2x2, byte_offset hfit (by omega) (by omega)]
  simp only [postLoad, hnext, hdown, hlower, Nat.mul_div_cancel_left _ (show 0 < 4 by decide)]

/-- Four sums in one loop. -/
theorem foldl_four {ι σ : Type} {f : σ × σ × σ × σ → ι → σ × σ × σ × σ} {g0 g1 g2 g3 : σ → ι → σ}
    (ks : List ι) (h : ∀ k ∈ ks, ∀ c0 c1 c2 c3,
      f (c0, c1, c2, c3) k = (g0 c0 k, g1 c1 k, g2 c2 k, g3 c3 k)) (c0 c1 c2 c3 : σ) :
    ks.foldl f (c0, c1, c2, c3) =
      (ks.foldl g0 c0, ks.foldl g1 c1, ks.foldl g2 c2, ks.foldl g3 c3) := by
  induction ks generalizing c0 c1 c2 c3 with
  | nil => rfl
  | cons k ks ih =>
      simp only [List.foldl_cons, h k List.mem_cons_self]
      exact ih (fun k hk => h k (List.mem_cons_of_mem _ hk)) _ _ _ _

theorem xpulpv2Sums_eq {i j : Nat} (hA : m * 2 * (n * 2) * 4 ≤ 2 ^ 32)
    (hB : n * 2 * (q * 2) * 4 ≤ 2 ^ 32) (hi : i + 1 < m * 2) (hj : j + 1 < q * 2) :
    xpulpv2Sums A B (n * 2) (q * 2) i j =
      (matProduct A B (n * 2) (q * 2) i j, matProduct A B (n * 2) (q * 2) i (j + 1),
        matProduct A B (n * 2) (q * 2) (i + 1) j,
        matProduct A B (n * 2) (q * 2) (i + 1) (j + 1)) := by
  rw [xpulpv2Sums, turns_pairs]
  simp only [matProduct, extend, BitVec.signExtend_eq, ← pairs_sum]
  refine foldl_four _ (fun k hk c00 c01 c10 c11 => ?_) 0 0 0 0
  obtain ⟨l, hl, rfl⟩ := List.mem_map.mp hk
  have hk : 2 * l + 1 < n * 2 := by
    have := List.mem_range.mp hl
    omega
  rw [postLoads2x2_eq hA hi hk, postLoads2x2_eq hB hk hj]

theorem xpulpv2Stores_eq (hA : m * 2 * (n * 2) * 4 ≤ 2 ^ 32)
    (hB : n * 2 * (q * 2) * 4 ≤ 2 ^ 32) (hC : m * 2 * (q * 2) * 4 ≤ 2 ^ 32) {t : Nat × Nat}
    (ht : t ∈ tileGrid m q) :
    xpulpv2Stores A B (n * 2) (q * 2) (t.1 * 2) (t.2 * 2) =
      productStores A B (n * 2) (q * 2) t := by
  obtain ⟨hr, hc⟩ := mem_tileGrid.mp ht
  have hi : t.1 * 2 + 1 < m * 2 := by omega
  have hj : t.2 * 2 + 1 < q * 2 := by omega
  obtain ⟨hnext, hdown, hlower⟩ := post_pointers hC hi hj
  have hcells : tileCells (q * 2) 2 2 t = [t.1 * 2 * (q * 2) + t.2 * 2,
      t.1 * 2 * (q * 2) + (t.2 * 2 + 1), (t.1 * 2 + 1) * (q * 2) + t.2 * 2,
      (t.1 * 2 + 1) * (q * 2) + (t.2 * 2 + 1)] := rfl
  have hj' : t.2 * 2 < q * 2 := by omega
  rw [xpulpv2Stores, xpulpv2Sums_eq hA hB hi hj, byte_offset hC (by omega) (by omega),
    productStores, hcells]
  simp only [postStore, hnext, hdown, hlower, Nat.mul_div_cancel_left _ (show 0 < 4 by decide),
    List.map_cons, List.map_nil, cell_div_mod hj, cell_div_mod hj']

end Xpulpv2

/-! ## Shapes that are not exact -/

section Needs

variable {w : Nat} {A B : Nat → BitVec w} {m N P numThreads id : Nat}

/-- With less than eight threads the rows do not advance. -/
theorem matmul2x2Loops_diverges {M fuel : Nat} {stores : Nat → Nat → List (Nat × Int32)}
    (hM : 0 < M) (hT : numThreads < 8) : matmul2x2Loops M P 0 numThreads fuel stores = none := by
  rw [matmul2x2Loops, Nat.div_eq_of_lt hT]
  have hstays : ∀ i, i = 0 → decide (i < M) = true ∧ u32 (i + u32 (2 * 0)) = 0 := by
    rintro i rfl
    exact ⟨decide_eq_true hM, rfl⟩
  exact congrArg (Option.bind · id)
    (forLoop_diverges (fun i => i = 0) hstays (show u32 (2 * (0 / 8)) = 0 from rfl))

theorem mem_matmul2x2Stores {i j x y : Nat} (hx : x < 2) (hy : y < 2) :
    u32 ((i + x) * P + j + y) ∈ (matmul2x2Stores A B N P i j).map Prod.fst :=
  List.mem_map.mpr ⟨_, List.mem_flatMap.mpr ⟨x, List.mem_range.mpr hx,
    List.mem_map.mpr ⟨y, List.mem_range.mpr hy, rfl⟩⟩, rfl⟩

/-- What exact kernels store to. -/
structure StoresOnce (m P numThreads : Nat) (indices : Nat → List Nat) : Prop where
  nodup : ((List.range numThreads).flatMap indices).Nodup
  all : ∀ ij < m * 2 * P, ∃ id < numThreads, ij ∈ indices id
  stored : ∀ id r k x y, id < numThreads → r < m → id / 8 ≤ r →
    r % (numThreads / 8) = id / 8 % (numThreads / 8) → k * 2 < P / 8 → x < 2 → y < 2 →
    u32 ((r * 2 + x) * P + (P / 8 * (id % 8) + k * 2) + y) ∈ indices id
  blocks : ∀ id ij, id < numThreads → ij ∈ indices id → ∃ r k x y, r < m ∧ k * 2 < P / 8 ∧
    x < 2 ∧ y < 2 ∧ ij = u32 ((r * 2 + x) * P + (P / 8 * (id % 8) + k * 2) + y)

theorem ProductExact.storesOnce (hm : m * 2 ≤ 2 ^ 30) (hP : P ≤ 2 ^ 30) (hT : 8 ≤ numThreads)
    (hT32 : numThreads < 2 ^ 32)
    (h : ProductExact A B (m * 2) N P numThreads fun id fuel =>
      matmul2x2Loops (m * 2) P id numThreads fuel (matmul2x2Stores A B N P)) :
    ∃ indices, StoresOnce m P numThreads indices := by
  obtain ⟨writes, hends, hperm⟩ := h
  have hwrites : ∀ id < numThreads, writes id = (threadBlocks m (P / 8) id numThreads).flatMap
      fun b => matmul2x2Stores A B N P b.1 b.2 := fun id hid =>
    (hends id hid).unique (matmul2x2Loops_ends hm hP hT hT32 hid)
  have hindices := hperm.map Prod.fst
  rw [List.map_flatMap, List.map_map, show (Prod.fst ∘ fun ij =>
    (ij, matProduct A B N P (ij / P) (ij % P))) = id from rfl, List.map_id] at hindices
  refine ⟨fun id => (writes id).map Prod.fst, hindices.nodup_iff.mpr List.nodup_range,
    fun ij hij => ?_, fun id r k x y hid hr hge hmod hk hx hy => ?_, fun id ij hid hij => ?_⟩
  · obtain ⟨id, hid, hmem⟩ := List.mem_flatMap.mp (hindices.mem_iff.mpr (List.mem_range.mpr hij))
    exact ⟨id, List.mem_range.mp hid, hmem⟩
  · rw [hwrites id hid, List.map_flatMap]
    exact List.mem_flatMap.mpr ⟨_, (mem_threadBlocks hT).mpr ⟨r, k, hr, hge, hmod, hk, rfl⟩,
      mem_matmul2x2Stores hx hy⟩
  · rw [hwrites id hid, List.map_flatMap] at hij
    obtain ⟨b, hb, hmem⟩ := List.mem_flatMap.mp hij
    obtain ⟨r, k, hr, -, -, hk, rfl⟩ := (mem_threadBlocks hT).mp hb
    obtain ⟨wr, hwr, rfl⟩ := List.mem_map.mp hmem
    obtain ⟨x, hx, hwr⟩ := List.mem_flatMap.mp hwr
    obtain ⟨y, hy, rfl⟩ := List.mem_map.mp hwr
    exact ⟨r, k, x, y, hr, hk, List.mem_range.mp hx, List.mem_range.mp hy, rfl⟩

/-- Slices of an odd number of columns overlap. -/
theorem StoresOnce.even_slices {indices : Nat → List Nat} (h : StoresOnce m P numThreads indices)
    (hm : 0 < m) (hT : 8 ≤ numThreads) : P / 8 % 2 = 0 := by
  by_contra hodd
  have hfirst := h.stored 0 0 ((P / 8 - 1) / 2) 0 1 (by omega) hm
    (by decide) rfl (by omega) (by decide) (by decide)
  have hsecond := h.stored 1 0 0 0 0 (by omega) hm (by decide)
    rfl (by omega) (by decide) (by decide)
  have hsame : (0 * 2 + 0) * P + (P / 8 * (0 % 8) + (P / 8 - 1) / 2 * 2) + 1 =
      (0 * 2 + 0) * P + (P / 8 * (1 % 8) + 0 * 2) + 0 := by
    simp only [Nat.zero_mul, Nat.zero_mod, Nat.mul_zero]
    omega
  rw [hsame] at hfirst
  exact nodup_flatMap_range h.nodup (show 0 < 1 by decide) (by omega) hfirst hsecond

/-- The columns that the slices leave are lost. -/
theorem StoresOnce.all_columns {indices : Nat → List Nat} (h : StoresOnce m P numThreads indices)
    (hm : 0 < m) (hfit : m * 2 * P ≤ 2 ^ 32) (heven : P / 8 % 2 = 0) (hpos : 0 < P) :
    P % 8 = 0 := by
  by_contra hrest
  have hall := Nat.mul_le_mul_right P (show 1 ≤ m * 2 by omega)
  obtain ⟨id, hid, hmem⟩ := h.all (P - 1) (by omega)
  obtain ⟨r, k, x, y, hr, hk, hx, hy, heq⟩ := h.blocks id _ hid hmem
  have hslice := Nat.mul_le_mul_left (P / 8) (show id % 8 + 1 ≤ 8 by omega)
  rw [Nat.mul_succ] at hslice
  have hcol : P / 8 * (id % 8) + k * 2 + y < P - 1 := by omega
  have hlt := tile_column_lt (c := P) (show r * 2 + x < m * 2 by omega)
    (show P / 8 * (id % 8) + k * 2 + y < P by omega)
  rw [Nat.add_assoc, u32_eq (by omega)] at heq
  have hmod := (cell_div_mod (i := r * 2 + x)
    (show P / 8 * (id % 8) + k * 2 + y < P by omega)).2
  rw [← heq, Nat.mod_eq_of_lt (by omega)] at hmod
  omega

/-- The threads that are left over take a row that another thread has. -/
theorem StoresOnce.shares {indices : Nat → List Nat} (h : StoresOnce m P numThreads indices)
    (hT : 8 ≤ numThreads) (hP : 0 < P / 8) : 8 ∣ numThreads ∨ m ≤ numThreads / 8 := by
  by_contra hno
  obtain ⟨hdvd, hrows⟩ := not_or.mp hno
  have hfirst := h.stored 0 (numThreads / 8) 0 0 0 (by omega)
    (by omega) (by omega) (by rw [Nat.mod_self, Nat.zero_div, Nat.zero_mod]) (by omega) (by decide)
    (by decide)
  have hsecond := h.stored (numThreads / 8 * 8) (numThreads / 8) 0 0 0
    (by omega) (by omega) (by omega) (by rw [Nat.mul_div_cancel _ (by decide)]) (by omega)
    (by decide) (by decide)
  rw [Nat.mul_mod_left] at hsecond
  exact nodup_flatMap_range h.nodup (show 0 < numThreads / 8 * 8 by omega) (by omega) hfirst hsecond

end Needs

/-! ## The shapes covered -/

section Covered

variable {M N P numThreads : Nat}

/-- The shapes and numbers of threads that the kernels work for. -/
def Covered (M P numThreads : Nat) : Prop :=
  M = 0 ∨ 8 ≤ numThreads ∧ 16 ∣ P ∧ (P = 0 ∨ 8 ∣ numThreads ∨ M ≤ 2 * (numThreads / 8))

instance : Decidable (Covered M P numThreads) := inferInstanceAs (Decidable (_ ∨ _))

theorem productExact_of_covered {w : Nat} {A B : Nat → BitVec w}
    {stores : Nat → Nat → List (Nat × Int32)} (hM : 2 ∣ M) (hN : 2 ∣ N) (hMfit : M * 4 ≤ 2 ^ 32)
    (hT32 : numThreads < 2 ^ 32) (hC : M * P * 4 ≤ 2 ^ 32)
    (hstores : ∀ m n q, M = m * 2 → N = n * 2 → P = q * 2 → ∀ t ∈ tileGrid m q,
      stores (t.1 * 2) (t.2 * 2) = productStores A B N P t) (h : Covered M P numThreads) :
    ProductExact A B M N P numThreads
      fun id fuel => matmul2x2Loops M P id numThreads fuel stores := by
  rcases Nat.eq_zero_or_pos M with rfl | hpos
  · refine ⟨fun _ => [], fun core _ => ⟨0, fun fuel _ => ?_⟩, ?_⟩
    · have hnot : ∀ i, decide (i < 0) = false := fun i => decide_eq_false (Nat.not_lt_zero i)
      exact congrArg (Option.bind · id) (forLoop_done (hnot _))
    · rw [Nat.zero_mul, List.flatMap_eq_nil_iff.mpr fun _ _ => rfl]
      exact List.Perm.refl _
  · obtain rfl | ⟨hT, hP, hshare⟩ := h
    · exact absurd hpos (Nat.lt_irrefl 0)
    · obtain ⟨m, rfl⟩ := hM
      obtain ⟨n, rfl⟩ := hN
      obtain ⟨p, rfl⟩ := hP
      rw [Nat.mul_comm 2 m, Nat.mul_comm 2 n, show 16 * p = p * 8 * 2 by omega] at *
      have hP30 := Nat.mul_le_mul_right (p * 8 * 2) (show 1 ≤ m * 2 by omega)
      exact productExact_of_stores (by omega) (by omega) hT hT32 (by omega)
        (hstores m n (p * 8) rfl rfl rfl)

theorem covered_of_productExact {w : Nat} {A B : Nat → BitVec w} (hM : 2 ∣ M) (hP : 4 ∣ P)
    (hMfit : M * 4 ≤ 2 ^ 32) (hpos : 0 < numThreads) (hT32 : numThreads < 2 ^ 32)
    (hC : M * P * 4 ≤ 2 ^ 32)
    (h : ProductExact A B M N P numThreads fun id fuel =>
      matmul2x2Loops M P id numThreads fuel (matmul2x2Stores A B N P)) :
    Covered M P numThreads := by
  obtain ⟨m, rfl⟩ := hM
  rw [Nat.mul_comm 2 m] at *
  rcases Nat.eq_zero_or_pos m with rfl | hm
  · exact Or.inl (Nat.zero_mul 2)
  · have hT : 8 ≤ numThreads := by
      by_contra hlt
      obtain ⟨writes, hends, -⟩ := h
      obtain ⟨bound, hbound⟩ := hends 0 hpos
      have hnone := (matmul2x2Loops_diverges (by omega) (by omega)).symm.trans
        (hbound bound (Nat.le_refl _))
      cases hnone
    refine Or.inr ⟨hT, ?_⟩
    rcases Nat.eq_zero_or_pos P with rfl | hPpos
    · exact ⟨Nat.dvd_zero 16, Or.inl rfl⟩
    · have hP30 := Nat.mul_le_mul_right P (show 1 ≤ m * 2 by omega)
      obtain ⟨indices, honce⟩ := h.storesOnce (by omega) (by omega) hT hT32
      have heven := honce.even_slices hm hT
      have hcolumns := honce.all_columns hm (by omega) heven hPpos
      have hshares := honce.shares hT (by omega)
      exact ⟨by omega, Or.inr (hshares.imp_right fun hrows => by omega)⟩

end Covered

/-- Every kernel is exact for the covered shapes and no others. -/
theorem matmul2x2_exact_iff {M N P numThreads : Nat} (A8 B8 : Nat → BitVec 8)
    (A16 B16 : Nat → BitVec 16) (A32 B32 : Nat → BitVec 32) (hM : 4 ∣ M) (hN : 4 ∣ N) (hP : 4 ∣ P)
    (hpos : 0 < numThreads) (hT32 : numThreads < 2 ^ 32) (hMfit : M * 4 ≤ 2 ^ 32)
    (hC : M * P * 4 ≤ 2 ^ 32) :
    (M * N ≤ 2 ^ 32 → N * P ≤ 2 ^ 32 → (ProductExact A8 B8 M N P numThreads (fun id fuel =>
      matmulUnrolled2x2ParallelI8Rv32im A8 B8 M N P id numThreads fuel) ↔
        Covered M P numThreads)) ∧
    (M * N * 2 ≤ 2 ^ 32 → N * P * 2 ≤ 2 ^ 32 →
      (ProductExact A16 B16 M N P numThreads (fun id fuel =>
      matmulUnrolled2x2ParallelI16Rv32im A16 B16 M N P id numThreads fuel) ↔
        Covered M P numThreads)) ∧
    (M * N * 4 ≤ 2 ^ 32 → N * P * 4 ≤ 2 ^ 32 →
      ((ProductExact A32 B32 M N P numThreads (fun id fuel =>
      matmulUnrolled2x2ParallelI32Rv32im A32 B32 M N P id numThreads fuel) ∧
        ProductExact A32 B32 M N P numThreads (fun id fuel =>
          matmulUnrolled2x2ParallelI32Xpulpv2 A32 B32 M N P id numThreads fuel)) ↔
        Covered M P numThreads)) := by
  have hM2 : 2 ∣ M := (show 2 ∣ 4 by decide).trans hM
  have hN2 : 2 ∣ N := (show 2 ∣ 4 by decide).trans hN
  have hrv32im : ∀ {w} (A B : Nat → BitVec w), M * N ≤ 2 ^ 32 → N * P ≤ 2 ^ 32 →
      (ProductExact A B M N P numThreads (fun id fuel =>
        matmul2x2Loops M P id numThreads fuel (matmul2x2Stores A B N P)) ↔
          Covered M P numThreads) := fun A B hA hB =>
    ⟨covered_of_productExact hM2 hP hMfit hpos hT32 hC,
      productExact_of_covered hM2 hN2 hMfit hT32 hC fun m n q hm hn hq t ht => by
        subst hm hn hq
        exact matmul2x2Stores_eq hA hB (by omega) ht⟩
  refine ⟨hrv32im A8 B8, fun hA hB => hrv32im A16 B16 (by omega) (by omega), fun hA hB => ?_⟩
  have hexact := hrv32im A32 B32 (by omega) (by omega)
  refine ⟨fun h => hexact.mp h.1, fun h => ⟨hexact.mpr h, ?_⟩⟩
  exact productExact_of_covered hM2 hN2 hMfit hT32 hC (fun m n q hm hn hq t ht => by
    subst hm hn hq
    exact xpulpv2Stores_eq hA hB hC ht) h

theorem matmul2x2_exact_eight_threads :
    ProductExact (fun i => BitVec.ofNat 8 i) (fun i => BitVec.ofNat 8 (i * i)) 4 4 16 8
      (fun id fuel => matmulUnrolled2x2ParallelI8Rv32im (fun i => BitVec.ofNat 8 i)
        (fun i => BitVec.ofNat 8 (i * i)) 4 4 16 id 8 fuel) :=
  ((matmul2x2_exact_iff (fun i => BitVec.ofNat 8 i) (fun i => BitVec.ofNat 8 (i * i)) (fun _ => 0)
    (fun _ => 0) (fun _ => 0) (fun _ => 0) (by decide) (by decide) (by decide) (by decide)
    (by decide)
    (by decide) (by decide)).1 (by decide) (by decide)).mpr (by decide)

/-- Four threads do not get beyond the first two rows. -/
theorem matmul2x2_four_threads_diverge :
    ¬ProductExact (fun _ => (0 : BitVec 8)) (fun _ => 0) 4 4 16 4 (fun id fuel =>
      matmulUnrolled2x2ParallelI8Rv32im (fun _ => 0) (fun _ => 0) 4 4 16 id 4 fuel) := fun h =>
  absurd (covered_of_productExact (by decide) (by decide) (by decide) (by decide) (by decide)
    (by decide) h) (by decide)

end TeraNoC.Kernels
