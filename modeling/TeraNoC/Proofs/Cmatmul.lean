import Mathlib.Algebra.Order.BigOperators.Group.List
import TeraNoC.Kernels.Cmatmul
import TeraNoC.Lib.Tiling
import TeraNoC.Proofs.MatmulTiled

/-!
# The parallel complex matrix multiplication

A thread takes every `numThreads`-th column of tiles. In a column it starts at a row that
depends on its place in the group and comes round in a second loop, which covers the rows
once as long as that row is not beyond the last one.
-/

namespace TeraNoC.Kernels

open TeraNoC.Lib TeraNoC.Runtime

section Loops

variable {A B : Nat → V2s} {M N P k m a b fuel : Nat} {t : TileTrace}

/-- What a thread does that computes some tiles. -/
def cmatmulTiles (A B : Nat → V2s) (N P : Nat) (ts : List (Nat × Nat)) (t : TileTrace) :
    TileTrace :=
  ts.foldl (fun t tile => cmatmul2x4Loop A B N P (tile.1 * 2) (tile.2 * 4) t) t

theorem cmatmulTiles_append (ts ts' : List (Nat × Nat)) :
    cmatmulTiles A B N P (ts ++ ts') t =
      cmatmulTiles A B N P ts' (cmatmulTiles A B N P ts t) := List.foldl_append

/-- The tiles of a column, from row `a` on. -/
def columnTiles (a n k : Nat) : List (Nat × Nat) := (List.range n).map fun i => (a + i, k)

theorem cmatmulRows_eq (hab : a ≤ b) (hb : b * 2 < 2 ^ 32) (hfuel : b ≤ fuel) :
    cmatmulRows A B N P fuel (a * 2) (b * 2) (k * 4) t =
      some (cmatmulTiles A B N P (columnTiles a (b - a) k) t) := by
  refine (forLoop_add (n := b - a) (fun n hn => by omega) (by omega) (by omega)
    (by omega)).trans ?_
  rw [cmatmulTiles, columnTiles, List.foldl_map]
  simp only [Nat.add_mul]

theorem cmatmulRows_empty (hab : b ≤ a) :
    cmatmulRows A B N P fuel (a * 2) (b * 2) (k * 4) t =
      some (cmatmulTiles A B N P (columnTiles a (b - a) k) t) := by
  rw [show b - a = 0 by omega]
  exact forLoop_done (decide_eq_false (by omega))

/-- A loop over columns, each of which has its tiles. -/
theorem foldl_columns {body : Nat → TileTrace → Option TileTrace} {f : Nat → List (Nat × Nat)}
    {n : Nat} (hbody : ∀ i < n, ∀ t, body i t = some (cmatmulTiles A B N P (f i) t)) :
    (List.range n).foldl (fun t i => t.bind (body i)) (some t) =
      some (cmatmulTiles A B N P ((List.range n).flatMap f) t) := by
  induction n with
  | zero => rfl
  | succ n ih =>
      rw [List.range_succ, List.foldl_append, ih fun i hi => hbody i (by omega),
        List.flatMap_append, List.flatMap_singleton, cmatmulTiles_append]
      exact hbody n (Nat.lt_succ_self n) _

theorem cmatmul2x4Q16s_ends {q : Nat} (hM : m * 2 < 2 ^ 32) (hq : q * 4 < 2 ^ 32) :
    Ends (cmatmul2x4Q16s A B (m * 2) N (q * 4)) (cmatmulTiles A B N (q * 4) (tileGrid m q) {}) := by
  refine ⟨max m q, fun fuel hfuel => ?_⟩
  have hcolumns : ∀ k < q, ∀ t, cmatmulRows A B N (q * 4) fuel 0 (m * 2) (0 + k * 4) t =
      some (cmatmulTiles A B N (q * 4) ((List.range m).map fun i => (i, k)) t) := fun k _ t => by
    have hrows := cmatmulRows_eq (A := A) (B := B) (N := N) (P := q * 4) (k := k) (t := t)
      (Nat.zero_le m) hM ((Nat.le_max_left m q).trans hfuel)
    rw [Nat.zero_mul] at hrows
    rw [Nat.zero_add, hrows, columnTiles]
    simp only [Nat.zero_add, Nat.sub_zero]
  have hloop : forLoop (fun k => k < q * 4) (fun k => u32 (k + 4))
      (fun k t => t.bind (cmatmulRows A B N (q * 4) fuel 0 (m * 2) k)) fuel 0 (some {}) =
      some (some (cmatmulTiles A B N (q * 4) (tileGrid m q) {})) := by
    refine (forLoop_add (n := q) (fun k hk => by omega) (by omega) (by omega)
      ((Nat.le_max_right m q).trans hfuel)).trans ?_
    exact congrArg some (foldl_columns hcolumns)
  exact congrArg Option.join hloop

/-- The tiles of a column, from row `s` on and round. -/
def shiftedColumn (m s k : Nat) : List (Nat × Nat) :=
  columnTiles s (m - s) k ++ columnTiles 0 s k

theorem cmatmulColumn_eq {s : Nat} (hM : m * 2 < 2 ^ 32) (hs : s * 2 < 2 ^ 32)
    (hfuel : max m s ≤ fuel) :
    ((cmatmulRows A B N P fuel (s * 2) (m * 2) (k * 4) t).bind
      (cmatmulRows A B N P fuel 0 (s * 2) (k * 4))) =
      some (cmatmulTiles A B N P (shiftedColumn m s k) t) := by
  have hfirst : cmatmulRows A B N P fuel (s * 2) (m * 2) (k * 4) t =
      some (cmatmulTiles A B N P (columnTiles s (m - s) k) t) := by
    rcases Nat.le_total s m with h | h
    · exact cmatmulRows_eq h hM ((Nat.le_max_left m s).trans hfuel)
    · exact cmatmulRows_empty h
  have hsecond := cmatmulRows_eq (A := A) (B := B) (N := N) (P := P) (k := k)
    (t := cmatmulTiles A B N P (columnTiles s (m - s) k) t) (Nat.zero_le s) hs
    ((Nat.le_max_right m s).trans hfuel)
  rw [Nat.zero_mul, Nat.sub_zero] at hsecond
  rw [hfirst, Option.bind_some, hsecond, shiftedColumn, cmatmulTiles_append]

/-- The tiles of a thread. -/
def threadTiles (m q numThreads numCoresPerTile id : Nat) : List (Nat × Nat) :=
  ((List.range (turns id q numThreads)).map (id + · * numThreads)).flatMap
    (shiftedColumn m (id % numCoresPerTile))

theorem cmatmul2x4Q16p_ends {q numThreads numCoresPerTile id : Nat} (hM : m * 2 < 2 ^ 32)
    (hq : q * 4 + 4 * numThreads ≤ 2 ^ 32) (hid : id < numThreads) :
    Ends (cmatmul2x4Q16p A B (m * 2) N (q * 4) id numThreads numCoresPerTile)
      (cmatmulTiles A B N (q * 4) (threadTiles m q numThreads numCoresPerTile id) {}) := by
  have hpos : 0 < numThreads := Nat.zero_lt_of_lt hid
  have hs : id % numCoresPerTile ≤ id := Nat.mod_le id numCoresPerTile
  have hshift : u32 (2 * (id % numCoresPerTile)) = id % numCoresPerTile * 2 := by
    rw [u32_eq (by omega), Nat.mul_comm]
  refine ⟨max (max m (id % numCoresPerTile)) (turns id q numThreads), fun fuel hfuel => ?_⟩
  have hturns := (Nat.le_max_right _ _).trans hfuel
  have hrows := (Nat.le_max_left _ _).trans hfuel
  rw [cmatmul2x4Q16p, hshift, u32_eq (show id * 4 < 2 ^ 32 by omega)]
  have hcolumns : ∀ i < turns id q numThreads, ∀ t,
      ((cmatmulRows A B N (q * 4) fuel (id % numCoresPerTile * 2) (m * 2)
        (id * 4 + i * u32 (4 * numThreads)) t).bind (cmatmulRows A B N (q * 4) fuel 0
          (id % numCoresPerTile * 2) (id * 4 + i * u32 (4 * numThreads)))) =
      some (cmatmulTiles A B N (q * 4)
        (shiftedColumn m (id % numCoresPerTile) (id + i * numThreads)) t) := fun i hi t => by
    have hlt := (lt_turns hpos).mp hi
    have hcol : id * 4 + i * u32 (4 * numThreads) = (id + i * numThreads) * 4 := by
      rw [u32_eq (by omega), Nat.add_mul, Nat.mul_comm 4, Nat.mul_assoc]
    rw [hcol]
    exact cmatmulColumn_eq hM (by omega) hrows
  have hcounter : ∀ i, (id * 4 + i * u32 (4 * numThreads) < q * 4 ↔ i < turns id q numThreads) ∧
      (i ≤ turns id q numThreads → id * 4 + i * u32 (4 * numThreads) < 2 ^ 32) := fun i => by
    rw [lt_turns hpos]
    rcases Nat.eq_zero_or_pos q with rfl | hqpos
    · rw [turns, Nat.zero_sub, Nat.zero_add, Nat.div_eq_of_lt (by omega)]
      refine ⟨iff_of_false (by omega) (by omega), fun hi => ?_⟩
      rw [Nat.le_zero.mp hi]
      omega
    · rw [u32_eq (by omega), show id * 4 + i * (4 * numThreads) = (id + i * numThreads) * 4 by
        rw [Nat.add_mul, Nat.mul_comm 4, Nat.mul_assoc]]
      refine ⟨by omega, fun hi => ?_⟩
      have hlast := turns_lt (a := id) (b := q) hpos
      have hmul := Nat.mul_le_mul_right numThreads hi
      omega
  have hloop : forLoop (fun k => k < q * 4) (fun k => u32 (k + u32 (4 * numThreads)))
      (fun k t => t.bind fun t => (cmatmulRows A B N (q * 4) fuel (id % numCoresPerTile * 2) (m * 2)
        k t).bind (cmatmulRows A B N (q * 4) fuel 0 (id % numCoresPerTile * 2) k)) fuel (id * 4)
      (some {}) =
      some (some (cmatmulTiles A B N (q * 4)
        (threadTiles m q numThreads numCoresPerTile id) {})) := by
    refine (forLoop_add (fun i hi => (hcounter i).1.mpr hi)
      (Nat.not_lt.mp ((hcounter _).1.not.mpr (Nat.lt_irrefl _))) ((hcounter _).2 (Nat.le_refl _))
      hturns).trans ?_
    rw [threadTiles, List.flatMap_map]
    exact congrArg some (foldl_columns hcolumns)
  exact congrArg Option.join hloop

end Loops

/-! ## The tiles of all threads -/

section Tiles

variable {m q k s numThreads numCoresPerTile : Nat}

theorem length_shiftedColumn : (shiftedColumn m s k).length = max m s := by
  rw [shiftedColumn, columnTiles, columnTiles, List.length_append, List.length_map,
    List.length_map, List.length_range, List.length_range]
  omega

theorem shiftedColumn_perm (hs : s ≤ m) :
    (shiftedColumn m s k).Perm ((List.range m).map fun i => (i, k)) := by
  have hperm := rotate_perm (fun i => (i, k)) hs
  rw [shiftedColumn, columnTiles, columnTiles]
  simp only [Nat.zero_add]
  exact hperm

theorem zero_mem_shiftedColumn (hm : 0 < m) : (0, k) ∈ shiftedColumn m s k := by
  rw [shiftedColumn, columnTiles, columnTiles, List.mem_append, List.mem_map, List.mem_map]
  rcases Nat.eq_zero_or_pos s with rfl | hs
  · exact Or.inl ⟨0, List.mem_range.mpr hm, rfl⟩
  · exact Or.inr ⟨0, List.mem_range.mpr hs, rfl⟩

/-- The columns of all threads are the columns, and in each the thread starts at its row. -/
theorem threadTiles_perm (hpos : 0 < numThreads) :
    ((List.range numThreads).flatMap (threadTiles m q numThreads numCoresPerTile)).Perm
      ((List.range q).flatMap fun k => shiftedColumn m (k % numThreads % numCoresPerTile) k) := by
  have hthread : ∀ id ∈ List.range numThreads, threadTiles m q numThreads numCoresPerTile id =
      ((List.range (turns id q numThreads)).map (id + · * numThreads)).flatMap
        fun k => shiftedColumn m (k % numThreads % numCoresPerTile) k := fun id hid => by
    refine List.flatMap_congr fun k hk => ?_
    rw [((mem_counter hpos).mp hk).2.2, Nat.mod_eq_of_lt (List.mem_range.mp hid)]
  rw [List.flatMap_congr hthread, ← List.flatMap_assoc]
  exact (counters_perm hpos).flatMap_right _

theorem threadTiles_perm_grid (hpos : 0 < numThreads)
    (h : ∀ k < q, k % numThreads % numCoresPerTile ≤ m) :
    ((List.range numThreads).flatMap (threadTiles m q numThreads numCoresPerTile)).Perm
      (tileGrid m q) :=
  (threadTiles_perm hpos).trans
    (List.Perm.flatMap_left _ fun k hk => shiftedColumn_perm (h k (List.mem_range.mp hk)))

/-- A thread that starts beyond the last row does more than its tiles. -/
theorem length_threadTiles (hpos : 0 < numThreads)
    (h : ∃ k < q, m < k % numThreads % numCoresPerTile) :
    q * m < ((List.range numThreads).flatMap
      (threadTiles m q numThreads numCoresPerTile)).length := by
  obtain ⟨k, hk, hlt⟩ := h
  rw [(threadTiles_perm hpos).length_eq, List.length_flatMap]
  simp only [length_shiftedColumn]
  have hsum := List.sum_lt_sum (l := List.range q) (fun _ => m)
    (fun k => max m (k % numThreads % numCoresPerTile)) (fun k _ => Nat.le_max_left m _)
    ⟨k, List.mem_range.mpr hk, lt_max_of_lt_right hlt⟩
  rwa [List.map_const', List.length_range, List.sum_replicate_nat] at hsum

end Tiles

/-! ## Stores and loads -/

section Traces

variable {A B : Nat → V2s} {N P m q : Nat} {ts : List (Nat × Nat)}

/-- The stores of a tile. -/
def tileStores (A B : Nat → V2s) (N P : Nat) (t : Nat × Nat) : List (Nat × V2s) :=
  (List.range 2).flatMap fun x => (List.range 4).map fun y =>
    (u32 (2 * ((t.1 * 2 + x) * P + (t.2 * 4 + y))), cmatmulElem A B N P (t.1 * 2) (t.2 * 4) x y)

theorem cmatmulTiles_writes :
    (cmatmulTiles A B N P ts {}).writes = ts.flatMap (tileStores A B N P) :=
  (foldl_appends TileTrace.writes _ (fun _ _ => rfl) ts {}).trans (List.nil_append _)

theorem cmatmulTiles_loadsA : (cmatmulTiles A B N P ts {}).loadsA =
    ts.flatMap fun t => (cmatmulInner N).flatMap fun j => (List.range 2).flatMap fun x =>
      (List.range 2).map fun z => u32 (2 * ((t.1 * 2 + x) * N + (j + z))) :=
  (foldl_appends TileTrace.loadsA _ (fun _ _ => rfl) ts {}).trans (List.nil_append _)

theorem cmatmulTiles_loadsB : (cmatmulTiles A B N P ts {}).loadsB =
    ts.flatMap fun t => (cmatmulInner N).flatMap fun j => (List.range 2).flatMap fun z =>
      (List.range 4).map fun y => u32 (2 * ((j + z) * P + (t.2 * 4 + y))) :=
  (foldl_appends TileTrace.loadsB _ (fun _ _ => rfl) ts {}).trans (List.nil_append _)

theorem tileStores_indices (ts : List (Nat × Nat)) :
    (ts.flatMap (tileStores A B N P)).map Prod.fst =
      (ts.flatMap (tileCells P 2 4)).map fun c => u32 (2 * c) := by
  rw [List.map_flatMap, List.map_flatMap]
  refine List.flatMap_congr fun t _ => ?_
  rw [tileStores, tileCells, List.map_flatMap, List.map_flatMap]
  simp only [List.map_map, Function.comp_def]

theorem length_tileStores : (ts.flatMap (tileStores A B N P)).length = ts.length * 8 := by
  rw [← List.length_map Prod.fst, tileStores_indices, List.length_map, List.length_flatMap]
  simp only [length_tileCells, List.map_const', List.sum_replicate_nat]

/-- The tiles of a grid are stored to all of `C`. -/
theorem gridStores_indices (hfit : m * 2 * (q * 4) * 4 ≤ 2 ^ 32) :
    (((tileGrid m q).flatMap (tileStores A B N (q * 4))).map Prod.fst).Perm
      ((List.range (m * 2 * (q * 4))).map (2 * ·)) := by
  rw [tileStores_indices]
  refine ((tileCells_perm (by decide) (by decide) (List.Perm.refl _)).map _).trans ?_
  refine List.Perm.of_eq (List.map_congr_left fun c hc => u32_eq ?_)
  have := List.mem_range.mp hc
  omega

theorem cmatmulInner_eq (n : Nat) : cmatmulInner (n * 2) = (List.range n).map (2 * ·) := by
  rw [cmatmulInner, turns, Nat.sub_zero, Nat.add_div_of_dvd_right (Nat.dvd_mul_left 2 n),
    Nat.mul_div_cancel n (by decide), Nat.add_zero]

theorem mem_cmatmulInner {n j : Nat} : j ∈ cmatmulInner (n * 2) ↔ ∃ l < n, j = l * 2 := by
  rw [cmatmulInner_eq, List.mem_map]
  constructor
  · rintro ⟨l, hl, rfl⟩
    exact ⟨l, List.mem_range.mp hl, Nat.mul_comm 2 l⟩
  · rintro ⟨l, hl, rfl⟩
    exact ⟨l, List.mem_range.mpr hl, Nat.mul_comm 2 l⟩

/-- An element of a matrix that fits into the address space. -/
theorem element_index {rows cols i j : Nat} (hfit : rows * cols * 4 ≤ 2 ^ 32) (hi : i < rows)
    (hj : j < cols) : ∃ e < rows * cols, u32 (2 * (i * cols + j)) = 2 * e := by
  have hlt := tile_column_lt hi hj
  exact ⟨i * cols + j, hlt, u32_eq (by omega)⟩

theorem cmatmul_loads {n : Nat} (hts : ∀ t ∈ ts, t ∈ tileGrid m q)
    (hA : m * 2 * (n * 2) * 4 ≤ 2 ^ 32) (hB : n * 2 * (q * 4) * 4 ≤ 2 ^ 32) :
    (∀ a ∈ (cmatmulTiles A B (n * 2) (q * 4) ts {}).loadsA,
      ∃ e < m * 2 * (n * 2), a = 2 * e) ∧
    ∀ b ∈ (cmatmulTiles A B (n * 2) (q * 4) ts {}).loadsB,
      ∃ e < n * 2 * (q * 4), b = 2 * e := by
  rw [cmatmulTiles_loadsA, cmatmulTiles_loadsB]
  simp only [List.mem_flatMap, List.mem_map, List.mem_range, mem_cmatmulInner]
  constructor
  · rintro a ⟨t, ht, j, ⟨l, hl, rfl⟩, x, hx, z, hz, rfl⟩
    have hrow := (mem_tileGrid.mp (hts t ht)).1
    exact element_index hA (by omega) (by omega)
  · rintro b ⟨t, ht, j, ⟨l, hl, rfl⟩, z, hz, y, hy, rfl⟩
    have hcol := (mem_tileGrid.mp (hts t ht)).2
    exact element_index hB (by omega) (by omega)

end Traces

/-! ## A counter that wraps around -/

section Wrap

variable {A B : Nat → V2s} {N m q numThreads numCoresPerTile id n : Nat} {t : TileTrace}

/-- The `n`-th value of `k` on a thread. -/
def columnAt (numThreads id n : Nat) : Nat :=
  (fun k => u32 (k + u32 (4 * numThreads)))^[n] (u32 (id * 4))

theorem u32_dvd {x : Nat} (h : 4 ∣ x) : 4 ∣ u32 x :=
  (Nat.dvd_mod_iff (show 4 ∣ 2 ^ 32 by decide)).mpr h

theorem columnAt_dvd : 4 ∣ columnAt numThreads id n := by
  induction n with
  | zero => exact u32_dvd (Nat.dvd_mul_left 4 id)
  | succ n ih =>
      rw [columnAt, Function.iterate_succ_apply']
      exact u32_dvd (Nat.dvd_add ih (u32_dvd (Nat.dvd_mul_right 4 numThreads)))

/-- A thread stores to the first row of the columns that it comes to. -/
theorem column_stored (hM : m * 2 < 2 ^ 32) (hm : 0 < m)
    (h : Ends (cmatmul2x4Q16p A B (m * 2) N (q * 4) id numThreads numCoresPerTile) t)
    (hcols : ∀ j ≤ n, columnAt numThreads id j < q * 4) :
    u32 (2 * columnAt numThreads id n) ∈ t.writes.map Prod.fst := by
  obtain ⟨bound, hbound⟩ := h
  have hend := hbound (max bound (2 ^ 32)) (Nat.le_max_left _ _)
  obtain ⟨s, hs, hs32⟩ : ∃ s, u32 (2 * (id % numCoresPerTile)) = s * 2 ∧ s * 2 < 2 ^ 32 := by
    have hlt : u32 (2 * (id % numCoresPerTile)) < 2 ^ 32 := Nat.mod_lt _ (by decide)
    have heven : 2 ∣ u32 (2 * (id % numCoresPerTile)) :=
      (Nat.dvd_mod_iff (show 2 ∣ 2 ^ 32 by decide)).mpr (Nat.dvd_mul_right 2 _)
    exact ⟨_, (Nat.div_mul_cancel heven).symm, (Nat.div_mul_cancel heven).symm ▸ hlt⟩
  rw [cmatmul2x4Q16p, hs] at hend
  obtain ⟨t', hloop, rfl⟩ := Option.bind_eq_some_iff.mp hend
  obtain ⟨turns', -, hlast, hfold⟩ := forLoop_some (columnAt numThreads id)
    (fun k => (Function.iterate_succ_apply' _ k _).symm) hloop
  have hcolumn : ∀ j < turns', ∀ t, ((cmatmulRows A B N (q * 4) (max bound (2 ^ 32)) (s * 2) (m * 2)
      (columnAt numThreads id j) t).bind (cmatmulRows A B N (q * 4) (max bound (2 ^ 32)) 0 (s * 2)
        (columnAt numThreads id j))) =
      some (cmatmulTiles A B N (q * 4) (shiftedColumn m s (columnAt numThreads id j / 4)) t) :=
    fun j _ t => by
      obtain ⟨k, hk⟩ : 4 ∣ columnAt numThreads id j := columnAt_dvd
      rw [hk, Nat.mul_div_cancel_left k (by decide), Nat.mul_comm 4 k]
      exact cmatmulColumn_eq hM hs32 (by omega)
  have htiles := Option.some.inj (hfold.trans (foldl_columns hcolumn))
  have hn : n < turns' := by
    by_contra hge
    exact absurd (hcols turns' (Nat.not_lt.mp hge)) (of_decide_eq_false hlast)
  rw [htiles, cmatmulTiles_writes, tileStores_indices]
  refine List.mem_map.mpr ⟨columnAt numThreads id n, List.mem_flatMap.mpr
    ⟨(0, columnAt numThreads id n / 4), List.mem_flatMap.mpr
      ⟨n, List.mem_range.mpr hn, zero_mem_shiftedColumn hm⟩, ?_⟩, rfl⟩
  refine List.mem_flatMap.mpr ⟨0, by decide, List.mem_map.mpr ⟨0, by decide, ?_⟩⟩
  rw [Nat.zero_mul, Nat.zero_mul, Nat.zero_add, Nat.add_zero, Nat.div_mul_cancel columnAt_dvd]

/-- With a counter that wraps around, a column is computed twice or a thread never ends. -/
theorem not_cmatmulExact_of_wrap (hm : 0 < m) (hq : 0 < q)
    (hfit : m * 2 * (q * 4) * 4 ≤ 2 ^ 32) (hwrap : 2 ^ 32 < q * 4 + 4 * numThreads) :
    ¬CmatmulExact A B (m * 2) N (q * 4) numThreads numCoresPerTile := by
  rintro ⟨s, t, -, hindices, hends, hperm, -⟩
  have hM : m * 2 < 2 ^ 32 := by
    have := Nat.mul_le_mul_left (m * 2) (show 4 ≤ q * 4 by omega)
    omega
  have hq27 : q ≤ 2 ^ 27 := by
    have := Nat.mul_le_mul_right (q * 4) (show 2 ≤ m * 2 by omega)
    omega
  have hnodup : ((List.range numThreads).flatMap fun id => (t id).writes.map Prod.fst).Nodup := by
    have hmap := (hperm.map Prod.fst).trans hindices
    rw [List.map_flatMap] at hmap
    exact hmap.nodup_iff.mpr (List.nodup_range.map fun c c' h => Nat.eq_of_mul_eq_mul_left
      (show 0 < 2 by decide) h)
  have hstored : ∀ id n, id < numThreads → (∀ j ≤ n, columnAt numThreads id j < q * 4) →
      u32 (2 * columnAt numThreads id n) ∈ (t id).writes.map Prod.fst := fun id _ hid hcols =>
    column_stored hM hm (hends id hid) hcols
  rcases Nat.lt_trichotomy numThreads (2 ^ 30) with hlt | rfl | hgt
  · -- the thread of the last column comes to the column of a lower thread
    obtain ⟨a, ha⟩ : ∃ a, q - 1 + numThreads = a + 2 ^ 30 := ⟨q - 1 + numThreads - 2 ^ 30, by omega⟩
    have hfirst : columnAt numThreads a 0 = a * 4 := u32_eq (by omega)
    have hlast : columnAt numThreads (q - 1) 0 = (q - 1) * 4 := u32_eq (by omega)
    have hnext : columnAt numThreads (q - 1) 1 = a * 4 := by
      have hsum : (q - 1) * 4 + 4 * numThreads = a * 4 + 2 ^ 32 := by omega
      change u32 (u32 ((q - 1) * 4) + u32 (4 * numThreads)) = a * 4
      rw [u32_eq (show (q - 1) * 4 < 2 ^ 32 by omega),
        u32_eq (show 4 * numThreads < 2 ^ 32 by omega),
        hsum, u32, Nat.add_mod_right, Nat.mod_eq_of_lt (by omega)]
    have hlow := hstored a 0 (by omega) fun j hj => by
      rw [Nat.le_zero.mp hj, hfirst]
      omega
    have hhigh := hstored (q - 1) 1 (by omega) fun j hj => by
      rcases Nat.le_one_iff_eq_zero_or_eq_one.mp hj with rfl | rfl
      · rw [hlast]
        omega
      · rw [hnext]
        omega
    rw [hfirst] at hlow
    rw [hnext] at hhigh
    exact nodup_flatMap_range hnodup (show a < q - 1 by omega) (by omega) hlow hhigh
  · -- the counter of the first thread does not move
    obtain ⟨bound, hbound⟩ := hends 0 (by decide)
    have hend := hbound bound (Nat.le_refl _)
    rw [cmatmul2x4Q16p] at hend
    obtain ⟨t', hloop, -⟩ := Option.bind_eq_some_iff.mp hend
    have hstays : ∀ k, k = 0 → decide (k < q * 4) = true ∧ u32 (k + u32 (4 * 2 ^ 30)) = 0 := by
      rintro k rfl
      exact ⟨decide_eq_true (by omega), rfl⟩
    have hnone := (forLoop_diverges (fun k => k = 0) hstays
      (show u32 (0 * 4) = 0 from rfl)).symm.trans hloop
    cases hnone
  · have hzero : columnAt numThreads 0 0 = 0 := rfl
    have hround : columnAt numThreads (2 ^ 30) 0 = 0 := rfl
    have hlow := hstored 0 0 (by omega) fun j hj => by
      rw [Nat.le_zero.mp hj, hzero]
      omega
    have hhigh := hstored (2 ^ 30) 0 hgt fun j hj => by
      rw [Nat.le_zero.mp hj, hround]
      omega
    rw [hzero] at hlow
    rw [hround] at hhigh
    exact nodup_flatMap_range hnodup (show 0 < 2 ^ 30 by decide) hgt hlow hhigh

end Wrap

/-! ## When the parallel product is exact -/

theorem shift_le_iff {m q numThreads numCoresPerTile : Nat} (hpos : 0 < numThreads)
    (hncpt : 0 < numCoresPerTile) : (∀ k < q, k % numThreads % numCoresPerTile ≤ m) ↔
      min numThreads (min q numCoresPerTile) ≤ m + 1 := by
  constructor
  · intro h
    by_contra hlt
    have hk := h (m + 1) (by omega)
    rw [Nat.mod_eq_of_lt (show m + 1 < numThreads by omega),
      Nat.mod_eq_of_lt (show m + 1 < numCoresPerTile by omega)] at hk
    omega
  · intro h k hk
    have hthread := Nat.mod_lt k hpos
    have hle := Nat.mod_le k numThreads
    have hcore := Nat.mod_lt (k % numThreads) hncpt
    have hle' := Nat.mod_le (k % numThreads) numCoresPerTile
    omega

theorem cmatmulExact_iff {A B : Nat → V2s} {m n q numThreads numCoresPerTile : Nat}
    (hpos : 0 < numThreads) (hncpt : 0 < numCoresPerTile) (hM : m * 2 < 2 ^ 32)
    (hA : m * 2 * (n * 2) * 4 ≤ 2 ^ 32) (hB : n * 2 * (q * 4) * 4 ≤ 2 ^ 32)
    (hC : m * 2 * (q * 4) * 4 ≤ 2 ^ 32) (hwrap : q * 4 + 4 * numThreads ≤ 2 ^ 32) :
    CmatmulExact A B (m * 2) (n * 2) (q * 4) numThreads numCoresPerTile ↔
      min numThreads (min q numCoresPerTile) ≤ m + 1 := by
  have hserial := cmatmul2x4Q16s_ends (A := A) (B := B)
    (N := n * 2) hM (show q * 4 < 2 ^ 32 by omega)
  have hthread := fun id (hid : id < numThreads) =>
    @cmatmul2x4Q16p_ends A B (n * 2) m q numThreads numCoresPerTile id hM hwrap hid
  have hwrites : ((List.range numThreads).flatMap fun id =>
      (cmatmulTiles A B (n * 2) (q * 4)
        (threadTiles m q numThreads numCoresPerTile id) {}).writes) =
      ((List.range numThreads).flatMap (threadTiles m q numThreads numCoresPerTile)).flatMap
        (tileStores A B (n * 2) (q * 4)) := by
    rw [List.flatMap_assoc]
    exact List.flatMap_congr fun id _ => cmatmulTiles_writes
  rw [← shift_le_iff hpos hncpt]
  constructor
  · rintro ⟨s, t, hs, -, hends, hperm, -⟩
    by_contra hex
    push Not at hex
    have hlen := length_threadTiles hpos hex
    rw [hs.unique hserial, List.flatMap_congr fun id hid => by
      rw [(hends id (List.mem_range.mp hid)).unique (hthread id (List.mem_range.mp hid))],
      hwrites, cmatmulTiles_writes] at hperm
    have heq := hperm.length_eq
    rw [length_tileStores, length_tileStores, length_tileGrid] at heq
    omega
  · intro h
    have hperm := @threadTiles_perm_grid m q numThreads numCoresPerTile hpos h
    refine ⟨_, _, hserial, ?_, hthread, ?_, fun id hid => cmatmul_loads (fun t ht => ?_) hA hB⟩
    · rw [cmatmulTiles_writes]
      exact gridStores_indices hC
    · rw [hwrites, cmatmulTiles_writes]
      exact hperm.flatMap_right _
    · exact hperm.mem_iff.mp (List.mem_flatMap.mpr ⟨id, List.mem_range.mpr hid, ht⟩)

/-- The threads do what the single core does if and only if no thread that has a column starts
beyond the row after the last one. -/
theorem cmatmul_parallel_exact_iff {A B : Nat → V2s} {M N P numThreads numCoresPerTile : Nat}
    (hM : 2 ∣ M) (hN : 2 ∣ N) (hP : 4 ∣ P) (hpos : 0 < numThreads) (hncpt : 0 < numCoresPerTile)
    (hM32 : M < 2 ^ 32) (hA : M * N * 4 ≤ 2 ^ 32) (hB : N * P * 4 ≤ 2 ^ 32)
    (hC : M * P * 4 ≤ 2 ^ 32) :
    (P + 4 * numThreads ≤ 2 ^ 32 →
      (CmatmulExact A B M N P numThreads numCoresPerTile ↔
        min numThreads (min (P / 4) numCoresPerTile) ≤ M / 2 + 1)) ∧
    (0 < M → 0 < P → 2 ^ 32 < P + 4 * numThreads →
      ¬CmatmulExact A B M N P numThreads numCoresPerTile) := by
  obtain ⟨m, rfl⟩ := hM
  obtain ⟨n, rfl⟩ := hN
  obtain ⟨q, rfl⟩ := hP
  rw [Nat.mul_div_cancel_left m (by decide), Nat.mul_div_cancel_left q (by decide)]
  rw [Nat.mul_comm 2 m, Nat.mul_comm 2 n, Nat.mul_comm 4 q] at *
  exact ⟨fun hwrap => cmatmulExact_iff hpos hncpt hM32 hA hB hC hwrap,
    fun hm hq hwrap => not_cmatmulExact_of_wrap (by omega) (by omega) hC hwrap⟩

theorem cmatmul_parallel_exact_two_threads :
    CmatmulExact (fun i => BitVec.ofNat 32 i) (fun i => BitVec.ofNat 32 (i * i)) 2 2 8 2 4 :=
  ((cmatmul_parallel_exact_iff (by decide) (by decide) (by decide) (by decide) (by decide)
    (by decide)
    (by decide) (by decide) (by decide)).1 (by decide)).mpr (by decide)

/-- The third thread starts at row 4 of 2 and stores to rows 2 and 3 on its way round. -/
theorem cmatmul_third_thread_beyond :
    ¬CmatmulExact (fun _ => 0) (fun _ => 0) 2 2 12 3 4 := fun h =>
  absurd ((cmatmulExact_iff (m := 1) (n := 1) (q := 3) (by decide) (by decide) (by decide)
    (by decide) (by decide) (by decide) (by decide)).mp h) (by decide)

end TeraNoC.Kernels
