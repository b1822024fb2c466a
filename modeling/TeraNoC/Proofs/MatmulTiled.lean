import Mathlib.Data.Finset.Card
import TeraNoC.Kernels.MatmulTiled
import TeraNoC.Lib.Interleave
import TeraNoC.Proofs.Matmul

/-!
# The tiled matrix multiplications

The threads share the windows of four rows, `c` of them to a window, and each takes a slice of
the columns. The conflict-optimised kernel moves the windows of the threads apart, which only
permutes them for some shapes.
-/

namespace TeraNoC.Kernels

open TeraNoC.Lib TeraNoC.Runtime

/-! ## What a thread does -/

/-- A loop that starts in the middle and goes round. -/
theorem rotate_perm {α : Type} (f : Nat → α) {o n : Nat} (h : o ≤ n) :
    ((List.range (n - o)).map (fun t => f (o + t)) ++ (List.range o).map f).Perm
      ((List.range n).map f) := by
  have hsplit : List.range n = List.range o ++ (List.range (n - o)).map (o + ·) := by
    rw [← List.range_add, Nat.add_sub_cancel' h]
  rw [hsplit, List.map_append, List.map_map]
  exact List.perm_append_comm

theorem innerOrder_perm {N kOffset : Nat} (h : kOffset ≤ N) :
    (innerOrder N kOffset).Perm (List.range N) := by
  have hperm := rotate_perm id h
  rw [List.map_id, List.map_id] at hperm
  have hsecond : (if 0 < kOffset then List.range kOffset else []) = List.range kOffset := by
    split
    · rfl
    · rw [show kOffset = 0 by omega, List.range_zero]
  rw [innerOrder, hsecond, List.range'_eq_map_range]
  exact hperm

section Tiles

variable {A B : Nat → Int32} {N P : Nat} {ks js : List Nat} {i j q s x y : Nat}

theorem tileElem_eq (hks : ks.Perm (List.range N)) :
    tileElem A B N P ks i j x y = matMulElem A B N P (i + x) (j + y) := by
  have hterm : ∀ k, A (u32 (u32 (u32 (i + x) * N) + k)) * B (u32 (u32 (u32 (k * P) + j) + y)) =
      A (u32 (u32 ((i + x) * N) + k)) * B (u32 (u32 (k * P) + (j + y))) := fun k => by
    simp only [u32, Nat.mod_add_mod, Nat.mod_mul_mod, Nat.add_assoc]
  rw [tileElem, matMulElem]
  simp only [hterm]
  refine hks.foldl_eq' (fun a _ b _ c => ?_) 0
  exact add_right_comm c _ _

/-- What a thread does that computes the tiles at row `i` and the columns `js`. -/
def tiles (A B : Nat → Int32) (N P : Nat) (ks : List Nat) (i : Nat) (js : List Nat) : TileTrace :=
  js.foldl (fun t j => tile A B N P ks i j t) {}

theorem tiles_writes : (tiles A B N P ks i js).writes =
    js.flatMap fun j => (List.range 4).flatMap fun x => (List.range 4).map fun y =>
      (u32 (u32 (u32 (u32 (i + x) * P) + j) + y), tileElem A B N P ks i j x y) :=
  (foldl_appends TileTrace.writes _ (fun _ _ => rfl) js {}).trans (List.nil_append _)

theorem tiles_loadsA : (tiles A B N P ks i js).loadsA =
    js.flatMap fun _ => ks.flatMap fun k => (List.range 4).map fun x =>
      u32 (u32 (u32 (i + x) * N) + k) :=
  (foldl_appends TileTrace.loadsA _ (fun _ _ => rfl) js {}).trans (List.nil_append _)

theorem tiles_loadsB : (tiles A B N P ks i js).loadsB =
    js.flatMap fun j => ks.flatMap fun k => (List.range 4).map fun y =>
      u32 (u32 (u32 (k * P) + j) + y) :=
  (foldl_appends TileTrace.loadsB _ (fun _ _ => rfl) js {}).trans (List.nil_append _)

/-- The first columns of the tiles in a slice of `q` columns. -/
def sliceColumns (q s : Nat) : List Nat := (List.range (q / 4)).map fun t => q * s + t * 4

theorem mem_sliceColumns (hq : 4 ∣ q) (hj : j ∈ sliceColumns q s) :
    4 ∣ j - q * s ∧ q * s ≤ j ∧ j + 4 ≤ q * (s + 1) := by
  obtain ⟨t, ht, rfl⟩ := List.mem_map.mp hj
  have ht := List.mem_range.mp ht
  rw [Nat.mul_succ q]
  omega

theorem nodup_sliceColumns : (sliceColumns q s).Nodup :=
  List.Nodup.map (fun t t' (h : q * s + t * 4 = q * s + t' * 4) => by omega) List.nodup_range

/-- The indices of the tiles at row `i` and the columns `js`. -/
def tileIndices (P i : Nat) (js : List Nat) : List Nat :=
  js.flatMap fun j => (List.range 4).flatMap fun x => (List.range 4).map fun y =>
    (i + x) * P + (j + y)

theorem mem_tileIndices {ij : Nat} : ij ∈ tileIndices P i js ↔
    ∃ j ∈ js, ∃ x < 4, ∃ y < 4, (i + x) * P + (j + y) = ij := by
  simp only [tileIndices, List.mem_flatMap, List.mem_map, List.mem_range]

variable (hq : 4 ∣ q) (hs : q * (s + 1) ≤ P) (hjs : js.Perm (sliceColumns q s))

include hq hs hjs

/-- The indices in the slice and in four rows. -/
theorem mem_tileIndices_iff (hqpos : 0 < q) {ij : Nat} : ij ∈ tileIndices P i js ↔
    i ≤ ij / P ∧ ij / P < i + 4 ∧ ij % P / q = s := by
  rw [mem_tileIndices]
  constructor
  · rintro ⟨j, hj, x, hx, y, hy, rfl⟩
    obtain ⟨-, hlo, hhi⟩ := mem_sliceColumns hq (hjs.mem_iff.mp hj)
    obtain ⟨hdiv, hmod⟩ := index_div_mod (i := i + x) (show j + y < P by omega)
    rw [Nat.mul_comm P] at hdiv hmod
    rw [hdiv, hmod]
    refine ⟨by omega, by omega, Nat.div_eq_of_lt_le ?_ ?_⟩
    · rw [Nat.mul_comm]
      omega
    · rw [Nat.mul_comm]
      omega
  · rintro ⟨hlo, hhi, hslice⟩
    have hlow : q * s ≤ ij % P := hslice ▸ Nat.mul_div_le (ij % P) q
    have hhigh : ij % P < q * s + q := hslice ▸ Nat.lt_mul_div_succ (ij % P) hqpos
    rw [Nat.mul_succ] at hs
    have hsplit := Nat.div_add_mod' ij P
    -- the tile of the column, and its place there
    refine ⟨q * s + (ij % P - q * s) / 4 * 4, hjs.mem_iff.mpr (List.mem_map.mpr
      ⟨(ij % P - q * s) / 4, List.mem_range.mpr (by omega), rfl⟩), ij / P - i, by omega,
      (ij % P - q * s) % 4, by omega, ?_⟩
    rw [Nat.add_sub_cancel' hlo]
    omega

theorem tileIndex_inj {j' x' y' : Nat} (hj : j ∈ js) (hj' : j' ∈ js) (hy : y < 4) (hy' : y' < 4)
    (heq : (i + x) * P + (j + y) = (i + x') * P + (j' + y')) : x = x' ∧ j = j' ∧ y = y' := by
  obtain ⟨hdvd, hlo, hhi⟩ := mem_sliceColumns hq (hjs.mem_iff.mp hj)
  obtain ⟨hdvd', hlo', hhi'⟩ := mem_sliceColumns hq (hjs.mem_iff.mp hj')
  obtain ⟨hdiv, hmod⟩ := index_div_mod (i := i + x) (show j + y < P by omega)
  obtain ⟨hdiv', hmod'⟩ := index_div_mod (i := i + x') (show j' + y' < P by omega)
  rw [Nat.mul_comm P, heq, Nat.mul_comm _ P] at hdiv hmod
  rw [hdiv] at hdiv'
  rw [hmod] at hmod'
  omega

theorem nodup_tileIndices : (tileIndices P i js).Nodup := by
  refine List.nodup_flatMap.mpr ⟨fun j hj => List.nodup_flatMap.mpr ⟨fun x _ => ?_, ?_⟩, ?_⟩
  · refine List.Nodup.map_on (fun y hy y' hy' heq => ?_) List.nodup_range
    exact (tileIndex_inj hq hs hjs hj hj (List.mem_range.mp hy) (List.mem_range.mp hy') heq).2.2
  · refine (List.nodup_range (n := 4)).imp_of_mem fun {x x'} _ _ hne ij hin hin' => hne ?_
    obtain ⟨y, hy, rfl⟩ := List.mem_map.mp hin
    obtain ⟨y', hy', heq⟩ := List.mem_map.mp hin'
    exact (tileIndex_inj hq hs hjs hj hj (List.mem_range.mp hy) (List.mem_range.mp hy') heq.symm).1
  · refine (hjs.nodup_iff.mpr nodup_sliceColumns).imp_of_mem fun {j j'} hj hj' hne ij hin hin' =>
      hne ?_
    obtain ⟨x, -, hin⟩ := List.mem_flatMap.mp hin
    obtain ⟨y, hy, rfl⟩ := List.mem_map.mp hin
    obtain ⟨x', -, hin'⟩ := List.mem_flatMap.mp hin'
    obtain ⟨y', hy', heq⟩ := List.mem_map.mp hin'
    exact (tileIndex_inj hq hs hjs hj hj' (List.mem_range.mp hy)
      (List.mem_range.mp hy') heq.symm).2.1

end Tiles

/-! ## What all threads do -/

/-- The threads share `windows` windows of four rows, `c` threads to a window, and each of them
takes a slice of `q` columns. -/
structure Slices (M P numThreads windows c q : Nat) : Prop where
  rows : M = 4 * windows
  threads : numThreads = windows * c
  cols : P = q * c
  dvd : 4 ∣ q
  windows_pos : 0 < windows
  slices_pos : 0 < c
  cols_pos : 0 < q

/-- Every window of every slice is one that a thread starts at. -/
def WindowsTaken (windows c : Nat) (start : Nat → Nat) : Prop :=
  ∀ s < c, ∀ w < windows, ∃ r < windows, start (r * c + s) = 4 * w

/-- As many threads as windows: no window is taken twice, and nothing else is. -/
theorem windows_perm {windows : Nat} {f : Nat → Nat}
    (h : ∀ w < windows, ∃ r < windows, f r = 4 * w) :
    (∀ r < windows, ∃ w < windows, f r = 4 * w) ∧
      ∀ r < windows, ∀ r' < windows, f r = f r' → r = r' := by
  have hinj : Function.Injective fun w : Nat => 4 * w := fun w w' h => by
    dsimp only at h
    omega
  have hsub : (Finset.range windows).image (4 * ·) ⊆ (Finset.range windows).image f := by
    intro x hx
    obtain ⟨w, hw, rfl⟩ := Finset.mem_image.mp hx
    obtain ⟨r, hr, heq⟩ := h w (Finset.mem_range.mp hw)
    exact Finset.mem_image.mpr ⟨r, Finset.mem_range.mpr hr, heq⟩
  have hcard : ((Finset.range windows).image (4 * ·)).card = windows := by
    rw [Finset.card_image_of_injective _ hinj, Finset.card_range]
  have hle : ((Finset.range windows).image f).card ≤ windows :=
    Finset.card_image_le.trans (Finset.card_range windows).le
  have heq := Finset.eq_of_subset_of_card_le hsub (hle.trans hcard.ge)
  constructor
  · intro r hr
    have hmem := Finset.mem_image_of_mem f (Finset.mem_range.mpr hr)
    rw [← heq] at hmem
    obtain ⟨w, hw, hfr⟩ := Finset.mem_image.mp hmem
    exact ⟨w, Finset.mem_range.mp hw, hfr.symm⟩
  · have hinjOn := Finset.card_image_iff.mp
      (show ((Finset.range windows).image f).card = (Finset.range windows).card by
        rw [← heq, hcard, Finset.card_range])
    intro r hr r' hr' hfr
    exact hinjOn (Finset.mem_coe.mpr (Finset.mem_range.mpr hr))
      (Finset.mem_coe.mpr (Finset.mem_range.mpr hr')) hfr

section Threads

variable {M P numThreads windows c q : Nat} {start : Nat → Nat}
  {js : Nat → List Nat} (h : Slices M P numThreads windows c q)
  (hjs : ∀ id < numThreads, (js id).Perm (sliceColumns q (id % c)))

include h

theorem Slices.row_lt {id : Nat} (hid : id < numThreads) : id / c < windows :=
  Nat.div_lt_of_lt_mul (Nat.mul_comm windows c ▸ h.threads ▸ hid)

theorem Slices.slice_le {s : Nat} (hs : s < c) : q * (s + 1) ≤ P :=
  h.cols ▸ Nat.mul_le_mul_left q hs

include hjs

/-- The tiles cover `C` once if the windows are all taken. -/
theorem tileIndices_perm (htaken : WindowsTaken windows c start) :
    ((List.range numThreads).flatMap fun id => tileIndices P (start id) (js id)).Perm
      (List.range (M * P)) := by
  have hmod : ∀ id, id % c < c := fun id => Nat.mod_lt id h.slices_pos
  have hmem := fun id (hid : id < numThreads) ij => @mem_tileIndices_iff P _ (start id) _ _
    h.dvd (h.slice_le (hmod id)) (hjs id hid) h.cols_pos ij
  have hPpos : 0 < P := h.cols ▸ Nat.mul_pos h.cols_pos h.slices_pos
  have hstart : ∀ id < numThreads, ∃ w < windows, start id = 4 * w := fun id hid => by
    obtain ⟨w, hw, heq⟩ := (windows_perm (htaken _ (hmod id))).1 _ (h.row_lt hid)
    rw [Nat.div_add_mod'] at heq
    exact ⟨w, hw, heq⟩
  refine perm_range_of_unique (fun id hid => nodup_tileIndices h.dvd (h.slice_le (hmod id))
    (hjs id hid)) (fun id hid ij hin => ?_) (fun ij hij => ?_)
    (fun id hid id' hid' ij hin hin' => ?_)
  · obtain ⟨-, hhi, -⟩ := (hmem id hid ij).mp hin
    obtain ⟨w, hw, heq⟩ := hstart id hid
    rw [h.rows]
    exact (Nat.div_lt_iff_lt_mul hPpos).mp (by omega)
  · have hrow : ij / P / 4 < windows := by
      have := (Nat.div_lt_iff_lt_mul hPpos).mpr hij
      rw [h.rows] at this
      omega
    have hslice : ij % P / q < c := by
      refine (Nat.div_lt_iff_lt_mul h.cols_pos).mpr ?_
      rw [Nat.mul_comm, ← h.cols]
      exact Nat.mod_lt ij hPpos
    obtain ⟨r, hr, heq⟩ := htaken _ hslice _ hrow
    have hid : r * c + ij % P / q < numThreads := by
      have := Nat.mul_le_mul_right c (Nat.succ_le_of_lt hr)
      rw [Nat.succ_mul, ← h.threads] at this
      omega
    refine ⟨_, hid, (hmem _ hid ij).mpr ⟨by omega, by omega, ?_⟩⟩
    rw [Nat.mul_add_mod_self_right, Nat.mod_eq_of_lt hslice]
  · obtain ⟨hlo, hhi, hs⟩ := (hmem id hid ij).mp hin
    obtain ⟨hlo', hhi', hs'⟩ := (hmem id' hid' ij).mp hin'
    obtain ⟨w, -, heq⟩ := hstart id hid
    obtain ⟨w', -, heq'⟩ := hstart id' hid'
    have hmods : id % c = id' % c := hs.symm.trans hs'
    have hrows := (windows_perm (htaken _ (hmod id))).2 _ (h.row_lt hid) _ (h.row_lt hid')
    rw [Nat.div_add_mod', hmods, Nat.div_add_mod'] at hrows
    rw [← Nat.div_add_mod' id c, hrows (by omega), hmods, Nat.div_add_mod']

/-- If the tiles cover `C` once, then the windows are all taken: a tile that starts within the
window above it would take rows of that window. -/
theorem windowsTaken_of_perm
    (hperm : ((List.range numThreads).flatMap fun id => tileIndices P (start id) (js id)).Perm
      (List.range (M * P))) : WindowsTaken windows c start := by
  intro s hs
  have hmod : ∀ id, id % c < c := fun id => Nat.mod_lt id h.slices_pos
  have hcol : q * s < P := by
    have := h.slice_le hs
    rw [Nat.mul_succ] at this
    have := h.cols_pos
    omega
  have hmem : ∀ id < numThreads, ∀ row, row * P + q * s ∈ tileIndices P (start id) (js id) ↔
      start id ≤ row ∧ row < start id + 4 ∧ s = id % c := fun id hid row => by
    obtain ⟨hdiv, hmod'⟩ := index_div_mod (i := row) hcol
    rw [Nat.mul_comm P] at hdiv hmod'
    rw [mem_tileIndices_iff h.dvd (h.slice_le (hmod id)) (hjs id hid) h.cols_pos, hdiv, hmod',
      Nat.mul_div_cancel_left s h.cols_pos]
  have hex : ∀ row < M, ∃ id < numThreads, start id ≤ row ∧ row < start id + 4 ∧ s = id % c := by
    intro row hrow
    have hlt : row * P + q * s < M * P := by
      have := Nat.mul_le_mul_right P (Nat.succ_le_of_lt hrow)
      rw [Nat.succ_mul] at this
      omega
    obtain ⟨id, hid, hin⟩ := List.mem_flatMap.mp (hperm.mem_iff.mpr (List.mem_range.mpr hlt))
    have hid := List.mem_range.mp hid
    exact ⟨id, hid, (hmem id hid row).mp hin⟩
  have huniq : ∀ row, ∀ id < numThreads, ∀ id' < numThreads,
      start id ≤ row ∧ row < start id + 4 ∧ s = id % c →
      start id' ≤ row ∧ row < start id' + 4 ∧ s = id' % c → id = id' := by
    intro row id hid id' hid' hin hin'
    have hnodup := hperm.nodup_iff.mpr List.nodup_range
    have hin := (hmem id hid row).mpr hin
    have hin' := (hmem id' hid' row).mpr hin'
    rcases Nat.lt_trichotomy id id' with hlt | heq | hlt
    · exact (nodup_flatMap_range hnodup hlt hid' hin hin').elim
    · exact heq
    · exact (nodup_flatMap_range hnodup hlt hid hin' hin).elim
  have hthread : ∀ w < windows, ∃ id < numThreads, start id = 4 * w ∧ s = id % c := by
    intro w hw
    have hM := h.rows
    induction w with
    | zero =>
        obtain ⟨id, hid, hlo, -, hslice⟩ := hex 0 (by omega)
        exact ⟨id, hid, by omega, hslice⟩
    | succ w ih =>
        obtain ⟨id, hid, hstart, hslice⟩ := ih (by omega)
        obtain ⟨id', hid', hlo, hhi, hslice'⟩ := hex (4 * (w + 1)) (by omega)
        refine ⟨id', hid', ?_, hslice'⟩
        by_contra hne
        have heq := huniq (4 * w + 3) id hid id' hid' ⟨by omega, by omega, hslice⟩
          ⟨by omega, by omega, hslice'⟩
        subst heq
        omega
  intro w hw
  obtain ⟨id, hid, hstart, hslice⟩ := hthread w hw
  exact ⟨id / c, h.row_lt hid, by rw [hslice, Nat.div_add_mod', hstart]⟩

end Threads

section Exact

variable {A B : Nat → Int32} {M N P numThreads windows c q i s : Nat} {ks js : List Nat}
  (h : Slices M P numThreads windows c q) (hs : s < c) (hjs : js.Perm (sliceColumns q s))

include h hs hjs

/-- The indices do not wrap, not even those of a tile that runs over the end of `C`. -/
theorem tiles_indices (hi : i < M) (hMP : M * P * 4 ≤ 2 ^ 32) :
    (tiles A B N P ks i js).writes.map Prod.fst = tileIndices P i js := by
  rw [tiles_writes, List.map_flatMap]
  refine List.flatMap_congr fun j hj => ?_
  rw [List.map_flatMap]
  refine List.flatMap_congr fun x hx => ?_
  rw [List.map_map]
  refine List.map_congr_left fun y hy => ?_
  have hx := List.mem_range.mp hx
  have hy := List.mem_range.mp hy
  obtain ⟨-, -, hj⟩ := mem_sliceColumns h.dvd (hjs.mem_iff.mp hj)
  have hP := h.slice_le hs
  have hrows := h.rows
  have hpos := h.windows_pos
  have hmul : (i + x + 1) * P ≤ (M + M) * P := Nat.mul_le_mul_right P (by omega)
  rw [Nat.succ_mul, Nat.add_mul M M] at hmul
  dsimp only [Function.comp]
  simp only [u32, Nat.mod_add_mod, Nat.mod_mul_mod, Nat.add_assoc]
  rw [Nat.mod_eq_of_lt (by omega)]

theorem tiles_values (hks : ks.Perm (List.range N)) {w : Nat × Int32}
    (hw : w ∈ (tiles A B N P ks i js).writes) :
    ∃ ij, w = (u32 ij, matMulElem A B N P (ij / P) (ij % P)) ∧ ij ∈ tileIndices P i js := by
  rw [tiles_writes] at hw
  obtain ⟨j, hj, hw⟩ := List.mem_flatMap.mp hw
  obtain ⟨x, hx, hw⟩ := List.mem_flatMap.mp hw
  obtain ⟨y, hy, rfl⟩ := List.mem_map.mp hw
  have hx := List.mem_range.mp hx
  have hy := List.mem_range.mp hy
  obtain ⟨-, -, hhi⟩ := mem_sliceColumns h.dvd (hjs.mem_iff.mp hj)
  have hP := h.slice_le hs
  obtain ⟨hdiv, hmod⟩ := index_div_mod (i := i + x) (show j + y < P by omega)
  rw [Nat.mul_comm P] at hdiv hmod
  refine ⟨(i + x) * P + (j + y), ?_, mem_tileIndices.mpr ⟨j, hj, x, hx, y, hy, rfl⟩⟩
  rw [hdiv, hmod, tileElem_eq hks]
  simp only [u32, Nat.mod_add_mod, Nat.mod_mul_mod, Nat.add_assoc]

/-- The loads of tiles within `C` are within `A` and `B`. -/
theorem tiles_loads (hks : ks.Perm (List.range N)) (hrow : i + 4 ≤ M) (hMN : M * N * 4 ≤ 2 ^ 32)
    (hNP : N * P * 4 ≤ 2 ^ 32) :
    (∀ a ∈ (tiles A B N P ks i js).loadsA, a < M * N) ∧
      ∀ b ∈ (tiles A B N P ks i js).loadsB, b < N * P := by
  rw [tiles_loadsA, tiles_loadsB]
  constructor
  · intro a ha
    obtain ⟨j, -, ha⟩ := List.mem_flatMap.mp ha
    obtain ⟨k, hk, ha⟩ := List.mem_flatMap.mp ha
    obtain ⟨x, hx, rfl⟩ := List.mem_map.mp ha
    have hx := List.mem_range.mp hx
    have hk := List.mem_range.mp (hks.mem_iff.mp hk)
    have hmul := Nat.mul_le_mul_right N (show i + x + 1 ≤ M by omega)
    rw [Nat.succ_mul] at hmul
    simp only [u32, Nat.mod_add_mod, Nat.mod_mul_mod]
    rw [Nat.mod_eq_of_lt (by omega)]
    omega
  · intro b hb
    obtain ⟨j, hj, hb⟩ := List.mem_flatMap.mp hb
    obtain ⟨k, hk, hb⟩ := List.mem_flatMap.mp hb
    obtain ⟨y, hy, rfl⟩ := List.mem_map.mp hb
    have hy := List.mem_range.mp hy
    have hk := List.mem_range.mp (hks.mem_iff.mp hk)
    obtain ⟨-, -, hhi⟩ := mem_sliceColumns h.dvd (hjs.mem_iff.mp hj)
    have hP := h.slice_le hs
    have hmul := Nat.mul_le_mul_right P (Nat.succ_le_of_lt hk)
    rw [Nat.succ_mul] at hmul
    simp only [u32, Nat.mod_add_mod, Nat.add_assoc]
    rw [Nat.mod_eq_of_lt (by omega)]
    omega

end Exact

section Kernels

variable {A B : Nat → Int32} {M N P numThreads windows c q : Nat} {start : Nat → Nat}
  {ks js : Nat → List Nat} {kernel : Nat → Nat → Option TileTrace}
  (h : Slices M P numThreads windows c q) (hMN : M * N * 4 ≤ 2 ^ 32) (hNP : N * P * 4 ≤ 2 ^ 32)
  (hMP : M * P * 4 ≤ 2 ^ 32) (hstart : ∀ id < numThreads, start id < M)
  (hks : ∀ id < numThreads, (ks id).Perm (List.range N))
  (hjs : ∀ id < numThreads, (js id).Perm (sliceColumns q (id % c)))
  (hends : ∀ id < numThreads, Ends (kernel id) (tiles A B N P (ks id) (start id) (js id)))

include h hMN hNP hMP hstart hks hjs hends

theorem tiledExact_iff : TiledExact A B M N P numThreads kernel ↔ WindowsTaken windows c start := by
  have hmod : ∀ id, id % c < c := fun id => Nat.mod_lt id h.slices_pos
  have hindices : ∀ id < numThreads,
      (tiles A B N P (ks id) (start id) (js id)).writes.map Prod.fst =
      tileIndices P (start id) (js id) := fun id hid =>
    tiles_indices h (hmod id) (hjs id hid) (hstart id hid) hMP
  constructor
  · rintro ⟨t, ht, hcount, -, -⟩
    refine windowsTaken_of_perm h hjs (List.perm_iff_count.mpr fun ij => ?_)
    rw [List.count_range, ← hcount ij]
    congr 1
    refine List.flatMap_congr fun id hid => ?_
    have hid := List.mem_range.mp hid
    rw [(ht id hid).unique (hends id hid), hindices id hid]
  · intro htaken
    have hperm := tileIndices_perm h hjs htaken
    have hM : M < 2 ^ 32 := by
      have hP : 0 < P := h.cols ▸ Nat.mul_pos h.cols_pos h.slices_pos
      have := Nat.le_mul_of_pos_right M hP
      omega
    refine ⟨_, hends, fun ij => ?_, ⟨_, matMulParallel_ends A B N P hM, fun id hid w hw => ?_⟩,
      fun id hid => ?_⟩
    · rw [List.flatMap_congr fun id hid => hindices id (List.mem_range.mp hid),
        hperm.count_eq, List.count_range]
    · obtain ⟨ij, rfl, hin⟩ := tiles_values h (hmod id) (hjs id hid) (hks id hid) hw
      have hlt := List.mem_range.mp
        (hperm.mem_iff.mp (List.mem_flatMap.mpr ⟨id, List.mem_range.mpr hid, hin⟩))
      rw [u32_eq (by omega)]
      exact mem_matMulParallel hlt (by omega)
    · refine tiles_loads h (hmod id) (hjs id hid) (hks id hid) ?_ hMN hNP
      obtain ⟨w, hw, heq⟩ := (windows_perm (htaken _ (hmod id))).1 _ (h.row_lt hid)
      rw [Nat.div_add_mod'] at heq
      rw [heq, h.rows]
      omega

end Kernels

/-! ## The loops -/

theorem udiv_eq {a b : Nat} (hb : 0 < b) : udiv a b = some (a / b) := if_neg hb.ne'

theorem umod_eq {a b : Nat} (hb : 0 < b) : umod a b = some (a % b) := if_neg hb.ne'

theorem roundRobin_eq {x m : Nat} (hx : x < 2 ^ 32) (hm : 0 < m) :
    roundRobin x m = some (x % m) := by
  rw [roundRobin]
  split
  · have hle := Nat.mul_div_le x m
    have hmod := Nat.div_add_mod x m
    rw [udiv_eq hm, Option.map_some, u32_eq (by omega), sub32_eq hle hx]
    congr 1
    omega
  · rw [Nat.mod_eq_of_lt (by omega)]

section Loops

variable {A B : Nat → Int32} {M N P numThreads windows c q id fuel : Nat}

theorem tileLoop_eq {ks : List Nat} {i a n : Nat} {t : TileTrace} (hend : a + n * 4 < 2 ^ 32)
    (hfuel : n ≤ fuel) : tileLoop A B N P fuel ks i a (a + n * 4) t =
      some (((List.range n).map fun k => a + k * 4).foldl
        (fun t j => tile A B N P ks i j t) t) := by
  rw [List.foldl_map]
  exact forLoop_add (fun k hk => by omega) (Nat.le_refl _) hend hfuel

/-- The columns from the middle of the slice on, and then those before it. -/
def rotatedColumns (q s o : Nat) : List Nat :=
  (List.range (q / 4 - o)).map (fun t => q * s + o * 4 + t * 4) ++
    (List.range o).map fun t => q * s + t * 4

theorem rotatedColumns_perm {q s o : Nat} (h : o ≤ q / 4) :
    (rotatedColumns q s o).Perm (sliceColumns q s) := by
  have hperm := rotate_perm (fun t => q * s + t * 4) h
  simp only [Nat.add_mul, ← Nat.add_assoc] at hperm
  exact hperm

theorem midLoop_eq {kOffset i s o : Nat} (hdvd : 4 ∣ q) (hend : q * (s + 1) < 2 ^ 32)
    (ho : o ≤ q / 4) (hfuel : q / 4 ≤ fuel) :
    midLoop A B N P fuel kOffset i (q * s) (q * (s + 1)) o {} =
      some (tiles A B N P (innerOrder N kOffset) i (rotatedColumns q s o)) := by
  rw [Nat.mul_succ] at hend
  have hfirst : q * (s + 1) = q * s + o * 4 + (q / 4 - o) * 4 := by
    rw [Nat.mul_succ]
    omega
  unfold midLoop
  dsimp only
  rw [u32_eq (show o * 4 < 2 ^ 32 by omega), u32_eq (show q * s + o * 4 < 2 ^ 32 by omega), hfirst,
    tileLoop_eq (by omega) (by omega), Option.bind_eq_bind, Option.bind_some, tiles, rotatedColumns,
    List.foldl_append]
  split
  · exact tileLoop_eq (by omega) (by omega)
  · rw [show o = 0 by omega]
    rfl

variable (h : Slices M P numThreads windows c q) (hMP : M * P * 4 ≤ 2 ^ 32)
  (hid : id < numThreads)

include h

theorem Slices.div_rows : M / 4 = windows := by
  rw [h.rows, Nat.mul_div_cancel_left windows (by decide)]

theorem Slices.div_windows : numThreads / windows = c := by
  rw [h.threads, Nat.mul_div_cancel_left c h.windows_pos]

theorem Slices.div_slices : numThreads / c = windows := by
  rw [h.threads, Nat.mul_div_cancel windows h.slices_pos]

theorem Slices.div_cols : P / c = q := by
  rw [h.cols, Nat.mul_div_cancel q h.slices_pos]

theorem Slices.cols_le : 4 * c ≤ P := by
  rw [h.cols]
  exact Nat.mul_le_mul_right c (Nat.le_of_dvd h.cols_pos h.dvd)

include hMP

theorem Slices.small : M < 2 ^ 30 ∧ P < 2 ^ 30 ∧ numThreads * 4 < 2 ^ 30 := by
  have hrows := h.rows
  have hwindows := h.windows_pos
  have hcols := h.cols_le
  have hslices := h.slices_pos
  have hM := Nat.mul_le_mul_left M (show 4 ≤ P by omega)
  have hP := Nat.mul_le_mul_right P (show 4 ≤ M by omega)
  have hT : numThreads * 4 * 4 ≤ M * P := by
    rw [h.rows, h.threads, Nat.mul_assoc 4]
    have := Nat.mul_le_mul_left windows hcols
    rw [Nat.mul_left_comm] at this
    omega
  refine ⟨?_, ?_, ?_⟩ <;> omega

include hid

/-- The loop over the rows has one turn. -/
theorem rowLoop_eq {τ : Type} (body : Nat → τ → τ) (t : τ) (hfuel : 0 < fuel) :
    forLoop (fun i => i < M) (fun i => u32 (i + u32 (4 * windows))) body fuel (u32 (4 * (id / c)))
      t = some (body (4 * (id / c)) t) := by
  obtain ⟨hM, -, -⟩ := h.small hMP
  have hrow := h.row_lt hid
  have hrows := h.rows
  rw [u32_eq (show 4 * windows < 2 ^ 32 by omega), u32_eq (show 4 * (id / c) < 2 ^ 32 by omega)]
  generalize id / c = row at hrow ⊢
  refine (forLoop_add (n := 1) (a := 4 * row) (b := M) (d := 4 * windows) (m := 2 ^ 32)
    (fun k hk => ?_) (by omega) (by omega) hfuel).trans ?_
  · obtain rfl : k = 0 := by omega
    omega
  · rw [List.range_one, List.foldl_cons, List.foldl_nil, Nat.zero_mul, Nat.add_zero]

/-- The first and the last column of a slice. -/
theorem slice_eq : u32 (q * (id % c)) = q * (id % c) ∧
    u32 (q * u32 (id % c + 1)) = q * (id % c + 1) ∧ q * (id % c + 1) < 2 ^ 32 := by
  obtain ⟨-, hP, hT⟩ := h.small hMP
  have hs := h.slice_le (Nat.mod_lt id h.slices_pos)
  have hlt := Nat.mod_le id c
  have hmul : q * (id % c + 1) = q * (id % c) + q := Nat.mul_succ q (id % c)
  rw [u32_eq (show id % c + 1 < 2 ^ 32 by omega), u32_eq (by omega), u32_eq (by omega)]
  exact ⟨rfl, rfl, by omega⟩

theorem matMulUnrolled4x4Parallel_ends :
    Ends (fun fuel => matMulUnrolled4x4Parallel A B M N P id numThreads fuel)
      (tiles A B N P (List.range N) (4 * (id / c)) (sliceColumns q (id % c))) := by
  obtain ⟨hstart, hend, hlt⟩ := slice_eq h hMP hid
  have hsplit : q * (id % c + 1) = q * (id % c) + q / 4 * 4 := by
    rw [Nat.mul_succ, Nat.div_mul_cancel h.dvd]
  refine ⟨max 1 (q / 4), fun fuel hfuel => ?_⟩
  unfold matMulUnrolled4x4Parallel
  simp only [h.div_rows, udiv_eq h.windows_pos, h.div_windows, udiv_eq h.slices_pos, h.div_cols,
    umod_eq h.slices_pos, h.div_slices, Option.bind_eq_bind, Option.bind_some,
    rowLoop_eq h hMP hid _ _ (show 0 < fuel by omega), hstart, hend]
  rw [hsplit]
  exact tileLoop_eq (by omega) (by omega)

/-- The row that the conflict-optimised kernel starts at. -/
def conflictRow (M N c id : Nat) : Nat := (4 * (id / c) + max (512 / N) 4 * (id % 8)) % M

theorem matMulUnrolled4x4ConflictOptParallel_ends (hN : 0 < N) (hP : P ≤ 4096) :
    ∃ ks js, ks.Perm (List.range N) ∧ js.Perm (sliceColumns q (id % c)) ∧
      Ends (fun fuel => matMulUnrolled4x4ConflictOptParallel A B M N P id numThreads fuel)
        (tiles A B N P ks (conflictRow M N c id) js) := by
  obtain ⟨hstart, hend, hlt⟩ := slice_eq h hMP hid
  obtain ⟨hM, -, hT⟩ := h.small hMP
  have hrow := h.row_lt hid
  have hrows := h.rows
  have hwindows := h.windows_pos
  have hPpos : 0 < P := h.cols ▸ Nat.mul_pos h.cols_pos h.slices_pos
  have hwindow : 0 < q / 4 := Nat.div_pos (Nat.le_of_dvd h.cols_pos h.dvd) (by decide)
  have hthreads : windows ≤ numThreads := h.threads ▸ Nat.le_mul_of_pos_right windows h.slices_pos
  -- all threads have a window of their own, so that there is one round
  have hone : ¬u32 (numThreads * 4) < M := by
    rw [u32_eq (by omega)]
    omega
  have htime : M / u32 (4 * numThreads) ≤ 1 := by
    rw [u32_eq (by omega)]
    exact Nat.div_le_of_le_mul (by omega)
  have htime' : udiv M (u32 (4 * numThreads)) = some (M / u32 (4 * numThreads)) :=
    udiv_eq (by rw [u32_eq (by omega)]; omega)
  have hround : (if M / u32 (4 * numThreads) < 1 then 1 else M / u32 (4 * numThreads)) = 1 := by
    split <;> omega
  have hjump : (if 512 / N < 4 then 4 else 512 / N) = max (512 / N) 4 := by
    split <;> omega
  have hjumps : max (512 / N) 4 * (id % 8) ≤ 512 * 7 :=
    Nat.mul_le_mul (max_le (Nat.div_le_self 512 N) (by decide)) (by omega)
  have hoffset : u32 (4 * (id / c) + u32 (max (512 / N) 4 * (id % 8))) =
      4 * (id / c) + max (512 / N) 4 * (id % 8) := by
    rw [u32_eq (show max (512 / N) 4 * (id % 8) < 2 ^ 32 by omega), u32_eq (by omega)]
  have hconflict : 0 < 512 * 8 / P := Nat.div_pos hP hPpos
  have hk : u32 (u32 (id % c + u32 (2 * (id / c))) + u32 (512 / P * (id % 8))) < 2 ^ 32 :=
    Nat.mod_lt _ (by decide)
  have hj : u32 (2 * (id / c)) / (512 * 8 / P) < 2 ^ 32 :=
    (Nat.div_le_self _ _).trans_lt (Nat.mod_lt _ (by decide))
  have hi : outerRoundRobin M (u32 (0 + 1))
      (u32 (4 * (id / c) + u32 (max (512 / N) 4 * (id % 8)))) = some (conflictRow M N c id) := by
    have hlines : u32 (M * u32 (0 + 1)) = M := by
      rw [Nat.zero_add, u32_eq (show 1 < 2 ^ 32 by decide), Nat.mul_one, u32_eq (by omega)]
    rw [outerRoundRobin, hlines, hoffset]
    exact roundRobin_eq (by omega) (by omega)
  refine ⟨_, _, innerOrder_perm (Nat.mod_lt
    (u32 (u32 (id % c + u32 (2 * (id / c))) + u32 (512 / P * (id % 8)))) hN).le,
    rotatedColumns_perm (Nat.mod_lt (u32 (2 * (id / c)) / (512 * 8 / P)) hwindow).le,
    max 1 (q / 4), fun fuel hfuel => ?_⟩
  unfold matMulUnrolled4x4ConflictOptParallel
  simp only [h.div_rows, udiv_eq h.windows_pos, h.div_windows, if_neg hone, udiv_eq h.slices_pos,
    h.div_cols, umod_eq h.slices_pos, h.div_slices, udiv_eq hN, udiv_eq hPpos, hjump,
    udiv_eq hconflict, roundRobin_eq hk hN, roundRobin_eq hj hwindow, Option.bind_eq_bind,
    Option.bind_some, htime', hround, rowLoop_eq h hMP hid _ _ (show 0 < fuel by omega), hstart,
    hend, Nat.div_one, conflictOptBody, hi]
  rw [midLoop_eq h.dvd hlt (Nat.mod_lt _ hwindow).le (by omega)]
  rfl

end Loops

/-! ## When both kernels are exact -/

theorem udiv_zero (a : Nat) : udiv a 0 = none := if_pos rfl

theorem TiledExact.ends {A B : Nat → Int32} {M N P numThreads : Nat}
    {kernel : Nat → Nat → Option TileTrace} (h : TiledExact A B M N P numThreads kernel)
    (hpos : 0 < numThreads) : ∃ fuel, kernel 0 fuel ≠ none := by
  obtain ⟨t, hends, -⟩ := h
  obtain ⟨bound, hbound⟩ := hends 0 hpos
  exact ⟨bound, by rw [hbound bound (Nat.le_refl _)]; exact Option.some_ne_none _⟩

section Divisions

variable {A B : Nat → Int32} {M N P id numThreads fuel : Nat}

/-- With fewer threads than windows, or without rows, the plain kernel divides by zero. -/
theorem matMulUnrolled4x4Parallel_none (h : M / 4 = 0 ∨ numThreads < M / 4) :
    matMulUnrolled4x4Parallel A B M N P id numThreads fuel = none := by
  unfold matMulUnrolled4x4Parallel
  rcases Nat.eq_zero_or_pos (M / 4) with hzero | hpos
  · rw [hzero, udiv_zero, Option.bind_eq_bind, Option.bind_none]
  · rw [udiv_eq hpos, Nat.div_eq_of_lt (by omega), Option.bind_eq_bind, Option.bind_some,
      udiv_zero, Option.bind_eq_bind, Option.bind_none]

/-- Without columns, or with rows longer than the banks of eight groups, the conflict-optimised
kernel divides by zero. -/
theorem matMulUnrolled4x4ConflictOptParallel_none (hle : M / 4 ≤ numThreads) (hpos : 0 < M / 4)
    (h : N = 0 ∨ P = 0 ∨ 4096 < P) :
    matMulUnrolled4x4ConflictOptParallel A B M N P id numThreads fuel = none := by
  have hc : 0 < numThreads / (M / 4) := Nat.div_pos hle hpos
  unfold matMulUnrolled4x4ConflictOptParallel
  rw [udiv_eq hpos, Option.bind_eq_bind, Option.bind_some]
  dsimp only
  have hc : 0 < if u32 (numThreads * 4) < M then 1 else numThreads / (M / 4) := by
    split
    · exact Nat.one_pos
    · exact hc
  generalize (if u32 (numThreads * 4) < M then 1 else numThreads / (M / 4)) = c at hc
  rw [udiv_eq hc, Option.bind_eq_bind, Option.bind_some, umod_eq hc,
    Option.bind_some]
  rcases Nat.eq_zero_or_pos N with rfl | hN
  · rw [udiv_zero, Option.bind_none]
  · rw [udiv_eq hN, Option.bind_some]
    rcases Nat.eq_zero_or_pos P with rfl | hP
    · rw [udiv_zero, Option.bind_none]
    · rw [udiv_eq hP, Option.bind_some, udiv_eq hc, Option.bind_some, udiv_eq hP,
        show 512 * 8 / P = 0 from Nat.div_eq_of_lt (by omega), Option.bind_some, udiv_zero,
        Option.bind_none]

end Divisions

section BothKernels

variable {A B : Nat → Int32} {M N P numThreads windows c q : Nat}
  (h : Slices M P numThreads windows c q) (hMN : M * N * 4 ≤ 2 ^ 32) (hNP : N * P * 4 ≤ 2 ^ 32)
  (hMP : M * P * 4 ≤ 2 ^ 32)

include h hMN hNP hMP

theorem matMulUnrolled4x4Parallel_exact : TiledExact A B M N P numThreads fun id fuel =>
    matMulUnrolled4x4Parallel A B M N P id numThreads fuel := by
  refine (tiledExact_iff h hMN hNP hMP (fun id hid => ?_) (fun _ _ => List.Perm.refl _)
    (fun _ _ => List.Perm.refl _)
    fun id hid => matMulUnrolled4x4Parallel_ends h hMP hid).mpr fun s hs w hw => ⟨w, hw, ?_⟩
  · have := h.row_lt hid
    have := h.rows
    omega
  · dsimp only
    rw [Nat.mul_comm w, Nat.mul_add_div h.slices_pos, Nat.div_eq_of_lt hs, Nat.add_zero]

theorem matMulUnrolled4x4ConflictOptParallel_exact (hN : 0 < N) (hP : P ≤ 4096) :
    (TiledExact A B M N P numThreads fun id fuel =>
      matMulUnrolled4x4ConflictOptParallel A B M N P id numThreads fuel) ↔
    ∀ s < c, ∀ w < windows, ∃ r < windows,
      (4 * r + max (512 / N) 4 * ((r * c + s) % 8)) % M = 4 * w := by
  have hM : 0 < M := by
    have := h.windows_pos
    have := h.rows
    omega
  choose! ks js hks hjs hends using fun id (hid : id < numThreads) =>
    matMulUnrolled4x4ConflictOptParallel_ends (A := A) (B := B) h hMP hid hN hP
  rw [tiledExact_iff h hMN hNP hMP (fun id _ => Nat.mod_lt _ hM) hks hjs hends]
  refine forall₄_congr fun s hs w hw => exists_congr fun r => and_congr_right fun hr => ?_
  have hdiv : (r * c + s) / c = r := by
    rw [Nat.mul_comm, Nat.mul_add_div h.slices_pos, Nat.div_eq_of_lt hs, Nat.add_zero]
  dsimp only
  rw [hdiv]

end BothKernels

/-- Both tiled kernels are exact if and only if no division is by zero and the rotation of the
rows only permutes the windows of every slice. -/
theorem matMulTiled_exact_iff {A B : Nat → Int32} {M N P numThreads : Nat} (hM : 4 ∣ M)
    (hpos : 0 < numThreads) (hshare : M / 4 ∣ numThreads ∨ numThreads ∣ M / 4)
    (hcols : 4 * max 1 (numThreads / (M / 4)) ∣ P) (hMN : M * N * 4 ≤ 2 ^ 32)
    (hNP : N * P * 4 ≤ 2 ^ 32) (hMP : M * P * 4 ≤ 2 ^ 32) :
    ((TiledExact A B M N P numThreads fun id fuel =>
        matMulUnrolled4x4Parallel A B M N P id numThreads fuel) ∧
      TiledExact A B M N P numThreads fun id fuel =>
        matMulUnrolled4x4ConflictOptParallel A B M N P id numThreads fuel) ↔
    0 < M ∧ M / 4 ≤ numThreads ∧ 0 < N ∧ 0 < P ∧ P ≤ 4096 ∧
      ∀ s < numThreads / (M / 4), ∀ w < M / 4, ∃ r < M / 4,
        (4 * r + max (512 / N) 4 * ((r * (numThreads / (M / 4)) + s) % 8)) % M = 4 * w := by
  by_cases hdiv : 0 < M / 4 ∧ M / 4 ≤ numThreads
  · obtain ⟨hwindows, hle⟩ := hdiv
    have hdvd : M / 4 ∣ numThreads := by
      rcases hshare with h | h
      · exact h
      · exact (Nat.le_antisymm hle (Nat.le_of_dvd hwindows h)) ▸ dvd_rfl
    have hc : 0 < numThreads / (M / 4) := Nat.div_pos hle hwindows
    generalize hcdef : numThreads / (M / 4) = c at *
    by_cases hsmall : 0 < N ∧ 0 < P ∧ P ≤ 4096
    · obtain ⟨hN, hP, hP4096⟩ := hsmall
      rw [max_eq_right hc] at hcols
      have h : Slices M P numThreads (M / 4) c (P / c) := by
        refine ⟨by omega, by rw [← hcdef, Nat.mul_div_cancel' hdvd],
          (Nat.div_mul_cancel ((Nat.dvd_mul_left c 4).trans hcols)).symm,
          Nat.dvd_div_of_mul_dvd (Nat.mul_comm c 4 ▸ hcols), hwindows, hc, ?_⟩
        exact Nat.div_pos (Nat.le_of_dvd hP ((Nat.dvd_mul_left c 4).trans hcols)) hc
      rw [matMulUnrolled4x4ConflictOptParallel_exact h hMN hNP hMP hN hP4096]
      exact ⟨fun hexact => ⟨by omega, hle, hN, hP, hP4096, hexact.2⟩, fun hcond =>
        ⟨matMulUnrolled4x4Parallel_exact h hMN hNP hMP, hcond.2.2.2.2.2⟩⟩
    · refine ⟨fun hexact => ?_, fun hcond => absurd ⟨hcond.2.2.1, hcond.2.2.2.1, hcond.2.2.2.2.1⟩
        hsmall⟩
      obtain ⟨fuel, hfuel⟩ := hexact.2.ends hpos
      exact absurd (matMulUnrolled4x4ConflictOptParallel_none hle hwindows (by omega)) hfuel
  · refine ⟨fun hexact => ?_, fun hcond => absurd ⟨by omega, hcond.2.1⟩ hdiv⟩
    obtain ⟨fuel, hfuel⟩ := hexact.1.ends hpos
    exact absurd (matMulUnrolled4x4Parallel_none (by omega)) hfuel

theorem matMulTiled_exact_two_windows :
    (TiledExact (fun i => (i : Int32)) (fun i => ((i * i : Nat) : Int32)) 8 4 4 2 fun id fuel =>
      matMulUnrolled4x4Parallel (fun i => (i : Int32)) (fun i => ((i * i : Nat) : Int32)) 8 4 4 id 2
        fuel) ∧
    TiledExact (fun i => (i : Int32)) (fun i => ((i * i : Nat) : Int32)) 8 4 4 2 fun id fuel =>
      matMulUnrolled4x4ConflictOptParallel (fun i => (i : Int32))
        (fun i => ((i * i : Nat) : Int32)) 8
        4 4 id 2 fuel :=
  (matMulTiled_exact_iff (by decide) (by decide) (by decide) (by decide) (by decide) (by decide)
    (by decide)).mpr (by decide)

/-- Both threads compute the first window. -/
theorem matMulTiled_window_twice :
    ¬TiledExact (fun i => (i : Int32)) (fun i => (i : Int32)) 8 128 4 2 fun id fuel =>
      matMulUnrolled4x4ConflictOptParallel (fun i => (i : Int32))
        (fun i => (i : Int32)) 8 128 4 id 2
        fuel := by
  have h : Slices 8 4 2 2 1 4 := ⟨rfl, rfl, rfl, by decide, by decide, by decide, by decide⟩
  rw [matMulUnrolled4x4ConflictOptParallel_exact h (by decide) (by decide) (by decide) (by decide)
    (by decide)]
  decide

end TeraNoC.Kernels
