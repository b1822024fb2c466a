import Mathlib.Data.List.Count
import Mathlib.Data.List.ProdSigma
import TeraNoC.Lib.Interleave
import TeraNoC.Lib.While

/-!
# Tiles of a matrix

A row-major matrix is cut into tiles of `r` rows and `c` columns. An element is in one tile: the
elements of some tiles are those of the matrix, each once, if the tiles are.
-/

namespace TeraNoC.Lib

/-- The indices of the elements of a tile in a matrix of `P` columns. -/
def tileCells (P r c : Nat) (t : Nat × Nat) : List Nat :=
  (List.range r).flatMap fun x => (List.range c).map fun y => (t.1 * r + x) * P + (t.2 * c + y)

/-- The tiles of `m` rows and `q` columns of them, one column after the other. -/
def tileGrid (m q : Nat) : List (Nat × Nat) :=
  (List.range q).flatMap fun k => (List.range m).map fun i => (i, k)

/-- The members of a team that each take every `n`-th number from their own on take all. -/
theorem counters_perm {n q : Nat} (hn : 0 < n) :
    ((List.range n).flatMap fun id => (List.range (turns id q n)).map (id + · * n)).Perm
      (List.range q) := by
  refine perm_range_of_owner (fun k => k % n) (fun id _ => nodup_counter hn) (fun id hid k => ?_)
    fun k _ => Nat.mod_lt k hn
  rw [mem_counter hn, Nat.mod_eq_of_lt hid]
  refine and_congr_right fun _ => and_iff_right_of_imp fun h => ?_
  rw [← h]
  exact Nat.mod_le k n

/-- The rows of a matrix of `q` columns, one after the other. -/
theorem rows_range (m q : Nat) :
    ((List.range m).flatMap fun i => (List.range q).map (i * q + ·)) = List.range (m * q) := by
  induction m with
  | zero => rw [Nat.zero_mul, List.range_zero, List.flatMap_nil]
  | succ m ih =>
      rw [List.range_succ, List.flatMap_append, ih, List.flatMap_singleton, Nat.succ_mul,
        List.range_add]

section Cells

variable {r c q m ij : Nat} {t : Nat × Nat} {ts : List (Nat × Nat)}

theorem length_tileCells (P : Nat) : (tileCells P r c t).length = r * c := by
  rw [tileCells, List.length_flatMap]
  simp only [List.length_map, List.length_range, List.map_const', List.sum_replicate_nat]

theorem mem_tileGrid : t ∈ tileGrid m q ↔ t.1 < m ∧ t.2 < q := by
  rw [tileGrid, List.mem_flatMap]
  constructor
  · rintro ⟨k, hk, hmem⟩
    obtain ⟨i, hi, rfl⟩ := List.mem_map.mp hmem
    exact ⟨List.mem_range.mp hi, List.mem_range.mp hk⟩
  · intro h
    exact ⟨t.2, List.mem_range.mpr h.2, List.mem_map.mpr ⟨t.1, List.mem_range.mpr h.1, rfl⟩⟩

theorem nodup_tileGrid : (tileGrid m q).Nodup := by
  refine List.nodup_flatMap.mpr ⟨
    fun k _ => List.nodup_range.map fun i i' h => (Prod.mk.inj h).1, ?_⟩
  refine List.nodup_range.imp fun {k k'} hne => ?_
  simp only [Function.onFun, List.disjoint_left, List.mem_map]
  rintro t ⟨i, -, rfl⟩ ⟨i', -, h⟩
  exact hne (Prod.mk.inj h).2.symm

/-- All columns of tiles for every row of them. -/
theorem tileRows_perm {rows : List Nat} (hrows : rows.Perm (List.range m)) :
    (rows.flatMap fun i => (List.range q).map fun k => (i, k)).Perm (tileGrid m q) := by
  refine (hrows.flatMap_right _).trans
    ((List.perm_ext_iff_of_nodup ?_ nodup_tileGrid).mpr fun t => ?_)
  · exact List.nodup_range.product List.nodup_range
  · rw [mem_tileGrid, ← List.mem_range, ← List.mem_range]
    exact List.mem_product

theorem length_tileGrid : (tileGrid m q).length = q * m := by
  rw [tileGrid, List.length_flatMap]
  simp only [List.length_map, List.length_range, List.map_const', List.sum_replicate_nat]

theorem cell_div_mod {P i j : Nat} (hj : j < P) : (i * P + j) / P = i ∧ (i * P + j) % P = j := by
  rw [Nat.mul_comm]
  exact (Nat.div_mod_unique (Nat.zero_lt_of_lt hj)).mpr ⟨Nat.add_comm j (P * i), hj⟩

theorem tile_column_lt {k y : Nat} (hk : k < q) (hy : y < c) : k * c + y < q * c := by
  have hmul := Nat.mul_le_mul_right c (Nat.succ_le_of_lt hk)
  rw [Nat.succ_mul] at hmul
  omega

/-- An element is in the tile of its row and its column. -/
theorem mem_tileCells (hr : 0 < r) (hc : 0 < c) (ht : t.2 < q) :
    ij ∈ tileCells (q * c) r c t ↔ (ij / (q * c) / r, ij % (q * c) / c) = t := by
  have hP : 0 < q * c := Nat.mul_pos (Nat.zero_lt_of_lt ht) hc
  rw [tileCells, List.mem_flatMap]
  constructor
  · rintro ⟨x, hx, hmem⟩
    obtain ⟨y, hy, rfl⟩ := List.mem_map.mp hmem
    have hy := List.mem_range.mp hy
    obtain ⟨hrow, hcol⟩ := cell_div_mod (i := t.1 * r + x) (tile_column_lt ht hy)
    rw [hrow, hcol, (cell_div_mod (List.mem_range.mp hx)).1, (cell_div_mod hy).1]
  · rintro rfl
    refine ⟨ij / (q * c) % r, List.mem_range.mpr (Nat.mod_lt _ hr), List.mem_map.mpr
      ⟨ij % (q * c) % c, List.mem_range.mpr (Nat.mod_lt _ hc), ?_⟩⟩
    rw [Nat.div_add_mod', Nat.div_add_mod', Nat.div_add_mod']

theorem nodup_tileCells (ht : t.2 < q) :
    (tileCells (q * c) r c t).Nodup := by
  have hcol : ∀ {y : Nat}, y < c → t.2 * c + y < q * c := fun hy => tile_column_lt ht hy
  refine List.nodup_flatMap.mpr ⟨fun x _ => List.nodup_range.map fun y y' h => ?_, ?_⟩
  · omega
  · refine List.nodup_range.imp_of_mem fun {x x'} hx hx' hne => ?_
    simp only [Function.onFun, List.disjoint_left, List.mem_map, List.mem_range]
    rintro ij ⟨y, hy, rfl⟩ ⟨y', hy', h⟩
    have hrow := (cell_div_mod (i := t.1 * r + x) (hcol hy)).1
    rw [← h, (cell_div_mod (hcol hy')).1] at hrow
    omega

/-- How often an element is in some tiles. -/
theorem count_tileCells (hr : 0 < r) (hc : 0 < c) (hts : ∀ t ∈ ts, t.2 < q) :
    (ts.flatMap (tileCells (q * c) r c)).count ij =
      ts.count (ij / (q * c) / r, ij % (q * c) / c) := by
  induction ts with
  | nil => rfl
  | cons t ts ih =>
      have ht := hts t List.mem_cons_self
      rw [List.flatMap_cons, List.count_append, ih fun t ht => hts t (List.mem_cons_of_mem _ ht),
        List.count_cons, Nat.add_comm]
      congr 1
      rw [(nodup_tileCells ht).count]
      exact if_congr ((mem_tileCells hr hc ht).trans (eq_comm.trans beq_iff_eq.symm)) rfl rfl

/-- The tiles of a grid have the elements of the matrix. -/
theorem tileCells_perm (hr : 0 < r) (hc : 0 < c) (hperm : ts.Perm (tileGrid m q)) :
    (ts.flatMap (tileCells (q * c) r c)).Perm (List.range (m * r * (q * c))) := by
  refine List.perm_iff_count.mpr fun ij => ?_
  rw [count_tileCells hr hc fun t ht => (mem_tileGrid.mp (hperm.mem_iff.mp ht)).2,
    hperm.count_eq, nodup_tileGrid.count, List.nodup_range.count]
  refine if_congr ?_ rfl rfl
  rw [mem_tileGrid, List.mem_range]
  rcases Nat.eq_zero_or_pos (q * c) with hzero | hP
  · have hq : q = 0 := by
      rcases Nat.mul_eq_zero.mp hzero with h | h
      · exact h
      · omega
    rw [hzero, Nat.mul_zero, hq]
    exact iff_of_false (fun h => Nat.not_lt_zero _ h.2) (Nat.not_lt_zero ij)
  · rw [Nat.div_lt_iff_lt_mul hr, Nat.div_lt_iff_lt_mul hP, Nat.div_lt_iff_lt_mul hc]
    exact and_iff_left (Nat.mod_lt ij hP)

end Cells

end TeraNoC.Lib
