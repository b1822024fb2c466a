import TeraNoC.Kernels.Conv2d
import TeraNoC.Lib.Interleave
import TeraNoC.Proofs.Matmul

/-!
# The 2D convolutions

A thread writes whole columns, so only the columns that it takes matter. Three kernels deal
them out in turn. The third one cuts the row into slices of equal length and moves the borders
up by the remainder, the end of a slice and the start of the next one not by the same number:
the column in between is lost.
-/

namespace TeraNoC.Kernels

open TeraNoC.Lib TeraNoC.Runtime

theorem castU32_eq {n : Nat} {z : Int} (hz : z = n) (hn : n < 2 ^ 32) : castU32 z = n := by
  rw [castU32, hz]
  omega

section Pixels

variable {input k : Nat → Int32} {inX inY x y : Nat}

theorem convWeight_eq (k : Nat → Int32) (taps : Nat) :
    convWeight k taps = ∑ i ∈ Finset.range taps, k i := by
  induction taps with
  | zero => rfl
  | succ taps ih =>
      rw [convWeight, List.range_succ, List.foldl_append, Finset.sum_range_succ, ← ih]
      rfl

/-- The weighted sum, written out. -/
theorem convSum_eq (F : Nat → Nat → Int32) : ∑ m ∈ Finset.range 3, ∑ n ∈ Finset.range 3, F m n =
    F 0 0 + F 0 1 + F 0 2 + F 1 0 + F 1 1 + F 1 2 + F 2 0 + F 2 1 + F 2 2 := by
  simp only [Finset.sum_range_succ, Finset.sum_range_zero, zero_add]
  ring

variable (hfit : inX * inY ≤ 2 ^ 32) (hx : x + 2 < inX) (hy : y + 2 < inY)

theorem pixel_lt {r c : Nat} (hr : r < inY) (hc : c < inX) : r * inX + c < inX * inY := by
  have := Nat.mul_le_mul_left inX (show r + 1 ≤ inY from hr)
  rw [Nat.mul_succ, Nat.mul_comm inX r] at this
  omega

include hfit in
theorem pixel_eq {r c : Nat} (hr : r < inY) (hc : c < inX) :
    u32 (u32 (r * inX) + c) = r * inX + c := by
  have := pixel_lt hr hc
  rw [u32_eq (show r * inX < 2 ^ 32 by omega), u32_eq (by omega)]

include hfit in
theorem width_lt (hy : 3 ≤ inY) : inX < 2 ^ 31 := by
  have := Nat.mul_le_mul_left inX hy
  omega

include hfit in
theorem height_lt (hx : 3 ≤ inX) : inY < 2 ^ 31 := by
  have := Nat.mul_le_mul_right inY hx
  omega

include hfit hx hy in
/-- The unrolled sum, with any spelling of the rows and the columns. -/
theorem taps_eq {r0 r1 r2 c0 c1 c2 : Nat} (hr0 : r0 = y) (hr1 : r1 = y + 1) (hr2 : r2 = y + 2)
    (hc0 : c0 = x) (hc1 : c1 = x + 1) (hc2 : c2 = x + 2) :
    div32 (0 + tap input k inX r0 c0 0 + tap input k inX r0 c1 1 + tap input k inX r0 c2 2 +
      tap input k inX r1 c0 3 + tap input k inX r1 c1 4 + tap input k inX r1 c2 5 +
      tap input k inX r2 c0 6 + tap input k inX r2 c1 7 + tap input k inX r2 c2 8)
      (convWeight k 9) = convPixel input k inX x y := by
  subst hr0 hr1 hr2 hc0 hc1 hc2
  rw [convPixel, convSum_eq, convWeight_eq]
  simp only [tap, pixel_eq hfit (show r0 < inY by omega) (show c0 < inX by omega),
    pixel_eq hfit (show r0 < inY by omega) (show c0 + 1 < inX by omega),
    pixel_eq hfit (show r0 < inY by omega) hx,
    pixel_eq hfit (show r0 + 1 < inY by omega) (show c0 < inX by omega),
    pixel_eq hfit (show r0 + 1 < inY by omega) (show c0 + 1 < inX by omega),
    pixel_eq hfit (show r0 + 1 < inY by omega) hx,
    pixel_eq hfit hy (show c0 < inX by omega), pixel_eq hfit hy (show c0 + 1 < inX by omega),
    pixel_eq hfit hy hx, zero_add, Nat.add_zero, Nat.zero_mul, Nat.one_mul]

end Pixels

section Columns

variable {input k : Nat → Int32} {inX inY x : Nat} (hfit : inX * inY ≤ 2 ^ 32) (hx : x + 2 < inX)
  (hy : 3 ≤ inY)

include hfit hx hy

theorem conv2d3x3UnrolledColumn_eq :
    conv2d3x3UnrolledColumn input k inX inY (x + 1) = convColumn input k inX inY x := by
  have hX := width_lt hfit hy
  have hY := height_lt hfit (by omega)
  unfold conv2d3x3UnrolledColumn convColumn
  rw [sub32_eq (show 1 ≤ inY by omega) (by omega), List.range'_eq_map_range, List.map_map,
    Nat.sub_sub]
  refine List.map_congr_left fun y hy => ?_
  have hy := List.mem_range.mp hy
  dsimp only [Function.comp]
  rw [Nat.add_comm 1 y]
  refine Prod.ext (pixel_eq hfit (by omega) (by omega))
    (taps_eq hfit hx (by omega) ?_ ?_ ?_ ?_ ?_ ?_)
  · exact sub32_eq (Nat.le_add_left 1 y) (by omega)
  · exact u32_eq (by omega)
  · exact u32_eq (by omega)
  · exact sub32_eq (Nat.le_add_left 1 x) (by omega)
  · exact u32_eq (by omega)
  · exact u32_eq (by omega)

theorem conv2d3x3ShiftedUnrolledColumn_eq :
    conv2d3x3ShiftedUnrolledColumn input k inX inY x = convColumn input k inX inY x := by
  have hX := width_lt hfit hy
  have hY := height_lt hfit (by omega)
  unfold conv2d3x3ShiftedUnrolledColumn convColumn
  rw [sub32_eq (show 2 ≤ inY by omega) (by omega)]
  refine List.map_congr_left fun y hy => ?_
  have hy := List.mem_range.mp hy
  refine Prod.ext ?_ (taps_eq hfit hx (by omega) ?_ ?_ ?_ ?_ ?_ ?_)
  · dsimp only
    rw [u32_eq (show y + 1 < 2 ^ 32 by omega), u32_eq (show x + 1 < 2 ^ 32 by omega),
      pixel_eq hfit (by omega) (by omega)]
  · exact u32_eq (show y + 0 < 2 ^ 32 by omega)
  · exact u32_eq (show y + 1 < 2 ^ 32 by omega)
  · exact u32_eq (show y + 2 < 2 ^ 32 by omega)
  · exact u32_eq (show x + 0 < 2 ^ 32 by omega)
  · exact u32_eq (show x + 1 < 2 ^ 32 by omega)
  · exact u32_eq (show x + 2 < 2 ^ 32 by omega)

theorem conv2dShiftedColumn_eq :
    conv2dShiftedColumn input k inX inY 3 3 x = convColumn input k inX inY x := by
  have hX := width_lt hfit hy
  have hY := height_lt hfit (by omega)
  unfold conv2dShiftedColumn convColumn
  rw [show u32 (2 * (3 / 2)) = 2 from rfl, sub32_eq (show 2 ≤ inY by omega) (by omega)]
  refine List.map_congr_left fun y hy => ?_
  have hy := List.mem_range.mp hy
  refine Prod.ext ?_ (taps_eq hfit hx (by omega) ?_ ?_ ?_ ?_ ?_ ?_)
  · dsimp only
    rw [show 3 / 2 = 1 from rfl, u32_eq (show y + 1 < 2 ^ 32 by omega),
      u32_eq (show x + 1 < 2 ^ 32 by omega), pixel_eq hfit (by omega) (by omega)]
  · exact u32_eq (show y + 0 < 2 ^ 32 by omega)
  · exact u32_eq (show y + 1 < 2 ^ 32 by omega)
  · exact u32_eq (show y + 2 < 2 ^ 32 by omega)
  · exact u32_eq (show x + 0 < 2 ^ 32 by omega)
  · exact u32_eq (show x + 1 < 2 ^ 32 by omega)
  · exact u32_eq (show x + 2 < 2 ^ 32 by omega)

theorem conv2dColumn_eq :
    conv2dColumn input k inX inY 3 3 ((x + 1 : Nat) : Int) = convColumn input k inX inY x := by
  have hX := width_lt hfit hy
  have hY := height_lt hfit (by omega)
  have hone : i32 ((3 / 2 : Nat) : Int) = 1 := by decide
  have hrange : intRange (-1) (i32 (i32 ((3 : Nat) : Int) - 1)) = [-1, 0, 1] := by decide
  have hrows : intRange 1 (i32 (i32 inY - 1)) =
      (List.range (inY - 2)).map fun y : Nat => (1 : Int) + y := by
    rw [i32_eq (show -2 ^ 31 ≤ (inY : Int) by omega) (by omega),
      i32_eq (show -2 ^ 31 ≤ (inY : Int) - 1 by omega) (by omega), intRange,
      show ((inY : Int) - 1 - 1).toNat = inY - 2 by omega]
  unfold conv2dColumn convColumn conv2dSum
  dsimp only
  rw [hone, hrange, hrows, List.map_map]
  refine List.map_congr_left fun y hy => ?_
  have hy := List.mem_range.mp hy
  have hnine : u32 (3 * 3) = 9 := rfl
  dsimp only [Function.comp, List.foldl]
  rw [hnine]
  refine Prod.ext ?_ (taps_eq hfit hx (by omega) ?_ ?_ ?_ ?_ ?_ ?_)
  · rw [castU32_eq (show (1 : Int) + y = ((y + 1 : Nat) : Int) by omega) (by omega),
      castU32_eq rfl (by omega), pixel_eq hfit (by omega) (by omega)]
  all_goals exact castU32_eq (by omega) (by omega)

end Columns

section Threads

variable {input k : Nat → Int32} {inX inY id numThreads : Nat} {cols : Nat → List Nat}
  {kernel : Nat → Nat → Option (List (Nat × Int32))} (hfit : inX * inY ≤ 2 ^ 32)
  (hx : 3 ≤ inX) (hy : 3 ≤ inY)

/-- What a thread writes that takes some columns. -/
def columnWrites (input k : Nat → Int32) (inX inY : Nat) (cols : List Nat) : List (Nat × Int32) :=
  cols.flatMap (convColumn input k inX inY)

theorem convExact_of_columns
    (hends : ∀ id < numThreads, Ends (kernel id) (columnWrites input k inX inY (cols id)))
    (hcols : ((List.range numThreads).flatMap cols).Perm (List.range (inX - 2))) :
    ConvExact input k inX inY numThreads kernel := by
  refine ⟨_, hends, ?_⟩
  have hassoc : ((List.range numThreads).flatMap fun id => columnWrites input k inX inY (cols id)) =
      ((List.range numThreads).flatMap cols).flatMap (convColumn input k inX inY) :=
    List.flatMap_assoc.symm
  rw [hassoc]
  exact hcols.flatMap_right _

/-- The columns that a counter goes through. -/
theorem columns_foldl {n : Nat} {column : Nat → List (Nat × Int32)} {i x : Nat → Nat}
    (hcol : ∀ t < n, column (i t) = convColumn input k inX inY (x t)) :
    (List.range n).foldl (fun writes t => writes ++ column (i t)) [] =
      columnWrites input k inX inY ((List.range n).map x) := by
  have happ := foldl_appends (fun writes => writes) (fun t => column (i t)) (fun _ _ => rfl)
    (List.range n) []
  rw [happ, List.nil_append, columnWrites, List.flatMap_map]
  exact List.flatMap_congr fun t ht => hcol t (List.mem_range.mp ht)

/-- The columns of a thread that starts at `id` and goes on in steps of `numThreads`. -/
def dealtColumns (inX numThreads id : Nat) : List Nat :=
  (List.range (turns id (inX - 2) numThreads)).map fun t => id + t * numThreads

theorem perm_dealtColumns (hthreads : 0 < numThreads) :
    ((List.range numThreads).flatMap (dealtColumns inX numThreads)).Perm
      (List.range (inX - 2)) := by
  refine perm_range_of_owner (fun x => x % numThreads) (fun id _ => nodup_counter hthreads)
    (fun id hid x => ?_) (fun x _ => Nat.mod_lt x hthreads)
  rw [dealtColumns, mem_counter hthreads, Nat.mod_eq_of_lt hid]
  refine ⟨fun ⟨hlt, _, hmod⟩ => ⟨hlt, hmod⟩, fun ⟨hlt, hmod⟩ => ⟨hlt, ?_, hmod⟩⟩
  exact hmod ▸ Nat.mod_le x numThreads

/-- A kernel that deals the columns out in turn. -/
theorem dealt_ends {column : Nat → List (Nat × Int32)} (hid : id < numThreads)
    (hwrap : inX + numThreads ≤ 2 ^ 31)
    (hcol : ∀ x, x + 2 < inX → column x = convColumn input k inX inY x) :
    Ends (fun fuel => forLoop (fun i => i < inX - 2) (fun i => u32 (i + numThreads))
      (fun i writes => writes ++ column i) fuel id [])
      (columnWrites input k inX inY (dealtColumns inX numThreads id)) := by
  have hpos : 0 < numThreads := by omega
  refine ⟨turns id (inX - 2) numThreads, fun fuel hfuel => ?_⟩
  have hlt : ∀ t < turns id (inX - 2) numThreads, id + t * numThreads < inX - 2 := fun t ht =>
    (lt_turns hpos).mp ht
  have hend := turns_lt (a := id) (b := inX - 2) hpos
  refine (forLoop_add hlt (le_turns hpos) (show _ < 2 ^ 32 by omega) hfuel).trans
    (congrArg some (columns_foldl fun t ht => hcol _ ?_))
  have := hlt t ht
  omega

include hfit hx hy

theorem conv2dShiftedParallel_exact (hthreads : 0 < numThreads)
    (hwrap : inX + numThreads ≤ 2 ^ 31) :
    ConvExact input k inX inY numThreads fun id fuel =>
      conv2dShiftedParallel input k inX inY 3 3 id numThreads fuel := by
  refine convExact_of_columns (fun id hid => ?_) (perm_dealtColumns hthreads)
  have hbound : sub32 inX (u32 (2 * (3 / 2))) = inX - 2 :=
    sub32_eq (show 2 ≤ inX by omega) ((width_lt hfit hy).trans (by decide))
  have hcol : ∀ x, x + 2 < inX →
      conv2dShiftedColumn input k inX inY 3 3 x = convColumn input k inX inY x :=
    fun x h => conv2dShiftedColumn_eq hfit h hy
  unfold conv2dShiftedParallel
  rw [hbound]
  exact dealt_ends hid hwrap hcol

theorem conv2d3x3ShiftedUnrolledParallel_exact (hthreads : 0 < numThreads)
    (hwrap : inX + numThreads ≤ 2 ^ 31) :
    ConvExact input k inX inY numThreads fun id fuel =>
      conv2d3x3ShiftedUnrolledParallel input k inX inY id numThreads fuel := by
  refine convExact_of_columns (fun id hid => ?_) (perm_dealtColumns hthreads)
  have hbound : sub32 inX 2 = inX - 2 :=
    sub32_eq (show 2 ≤ inX by omega) ((width_lt hfit hy).trans (by decide))
  have hcol : ∀ x, x + 2 < inX →
      conv2d3x3ShiftedUnrolledColumn input k inX inY x = convColumn input k inX inY x :=
    fun x h => conv2d3x3ShiftedUnrolledColumn_eq hfit h hy
  unfold conv2d3x3ShiftedUnrolledParallel
  rw [hbound]
  exact dealt_ends hid hwrap hcol

/-- The first interior column of a thread of `conv2d_parallel`. -/
def firstColumn (numThreads id : Nat) : Nat := (if id = 0 then numThreads else id) - 1

omit hfit hx hy in
theorem firstColumn_eq (hid : id < numThreads) {x : Nat} :
    firstColumn numThreads id ≤ x ∧ x % numThreads = firstColumn numThreads id % numThreads ↔
      (x + 1) % numThreads = id := by
  have hpos : 0 < numThreads := by omega
  have hlt := Nat.mod_lt x hpos
  have hle := Nat.mod_le x numThreads
  have hfirst : firstColumn numThreads id % numThreads = firstColumn numThreads id := by
    refine Nat.mod_eq_of_lt ?_
    rw [firstColumn]
    split <;> omega
  rw [hfirst, firstColumn, ← Nat.mod_add_mod]
  rcases Nat.lt_or_eq_of_le (Nat.succ_le_of_lt hlt) with hr | hr
  · rw [Nat.mod_eq_of_lt hr]
    split <;> omega
  · rw [show x % numThreads + 1 = numThreads from hr, Nat.mod_self]
    split <;> omega

omit hfit hx hy in
/-- Thread 0 leaves the border to the others. -/
theorem firstColumn_ends (hthreads : 0 < numThreads) (hlt : numThreads < 2 ^ 32) :
    Ends (fun fuel => whileLoop (fun id => decide (id < 1)) (fun id => u32 (id + numThreads)) fuel
      id) (firstColumn numThreads id + 1) := by
  refine ⟨1, fun fuel hfuel => ?_⟩
  obtain ⟨fuel, rfl⟩ : ∃ f, fuel = f + 1 := ⟨fuel - 1, by omega⟩
  rcases Nat.eq_zero_or_pos id with rfl | hpos
  · have hturn : whileLoop (fun id => decide (id < 1)) (fun id => u32 (id + numThreads)) (fuel + 1)
        0 = whileLoop (fun id => decide (id < 1)) (fun id => u32 (id + numThreads)) fuel _ :=
      whileLoop_turn (decide_eq_true Nat.one_pos)
    rw [Nat.zero_add, u32_eq hlt] at hturn
    rw [firstColumn, if_pos rfl, Nat.sub_add_cancel hthreads]
    exact hturn.trans (whileLoop_done (decide_eq_false (by omega)))
  · rw [firstColumn, if_neg (by omega), Nat.sub_add_cancel hpos]
    exact whileLoop_done (decide_eq_false (by omega))

/-- The loop of `conv2d_parallel` over the columns. -/
theorem conv2dLoop_ends {a : Nat} (hthreads : 0 < numThreads)
    (hwrap : max (a + 1) (inX - 2 + numThreads) < 2 ^ 31) :
    Ends (fun fuel => whileLoop
      (fun s : Int × List (Nat × Int32) => s.1 < ((inX - 1 : Nat) : Int))
      (fun s => (i32 (s.1 + numThreads), s.2 ++ conv2dColumn input k inX inY 3 3 s.1)) fuel
      (((a + 1 : Nat) : Int), []))
      (((a + turns a (inX - 2) numThreads * numThreads + 1 : Nat) : Int),
        columnWrites input k inX inY
          ((List.range (turns a (inX - 2) numThreads)).map fun t => a + t * numThreads)) := by
  have hend := turns_lt (a := a) (b := inX - 2) hthreads
  have hlt : ∀ t < turns a (inX - 2) numThreads, a + t * numThreads < inX - 2 := fun t ht =>
    (lt_turns hthreads).mp ht
  have hge := le_turns (a := a) (b := inX - 2) hthreads
  refine ⟨turns a (inX - 2) numThreads, fun fuel hfuel => ?_⟩
  have hloop : whileLoop (fun s : Int × List (Nat × Int32) => s.1 < ((inX - 1 : Nat) : Int))
      (fun s => (i32 (s.1 + numThreads), s.2 ++ conv2dColumn input k inX inY 3 3 s.1)) fuel
      (((a + 0 * numThreads + 1 : Nat) : Int), columnWrites input k inX inY []) = _ :=
    whileLoop_through (fun t => (((a + t * numThreads + 1 : Nat) : Int),
      columnWrites input k inX inY ((List.range t).map fun t => a + t * numThreads)))
    (fun t ht => decide_eq_true (by have := hlt t ht; omega)) (decide_eq_false (by omega))
    (fun t ht => ?_) hfuel
  · rw [Nat.zero_mul] at hloop
    exact hloop
  · have hcol := hlt t ht
    have hnext := Nat.mul_le_mul_right numThreads (Nat.succ_le_of_lt ht)
    rw [Nat.succ_mul] at hnext
    refine Prod.ext ?_ ?_
    · dsimp only
      rw [i32_eq (by omega) (by omega), Nat.succ_mul]
      omega
    · dsimp only
      rw [conv2dColumn_eq hfit (by omega) hy, List.range_succ, List.map_append, columnWrites,
        columnWrites, List.flatMap_append, List.map_singleton, List.flatMap_singleton]

theorem conv2dParallel_exact (hthreads : 0 < numThreads) (hwrap : inX + numThreads ≤ 2 ^ 31) :
    ConvExact input k inX inY numThreads fun id fuel =>
      conv2dParallel input k inX inY 3 3 id numThreads fuel := by
  refine convExact_of_columns (show ∀ id < numThreads, Ends _ (columnWrites input k inX inY
    ((List.range (turns (firstColumn numThreads id) (inX - 2) numThreads)).map fun t =>
      firstColumn numThreads id + t * numThreads)) from fun id hid => ?_) ?_
  · have hX := width_lt hfit hy
    have hone : i32 ((3 / 2 : Nat) : Int) = 1 := by decide
    have hcast : castU32 1 = 1 := by decide
    have hbound : i32 (i32 inX - 1) = ((inX - 1 : Nat) : Int) := by
      rw [i32_eq (show -2 ^ 31 ≤ (inX : Int) by omega) (by omega),
        i32_eq (show -2 ^ 31 ≤ (inX : Int) - 1 by omega) (by omega)]
      omega
    have hstep : i32 numThreads = numThreads := i32_eq (by omega) (by omega)
    have hfirst : firstColumn numThreads id + 1 < 2 ^ 31 := by
      rw [firstColumn]
      split <;> omega
    have hstart : i32 ((firstColumn numThreads id + 1 : Nat) : Int) =
      ((firstColumn numThreads id + 1 : Nat) : Int) := i32_eq (by omega) (by omega)
    unfold conv2dParallel
    simp only [hone, hcast, hbound, hstep]
    refine (firstColumn_ends hthreads (by omega)).bind ?_
    rw [hstart]
    have hmax : max (firstColumn numThreads id + 1) (inX - 2 + numThreads) < 2 ^ 31 :=
      max_lt hfirst (by omega)
    exact (conv2dLoop_ends hfit hx hy hthreads hmax).bind ⟨0, fun _ _ => rfl⟩
  · refine perm_range_of_owner (fun x => (x + 1) % numThreads)
      (fun id _ => nodup_counter hthreads) (fun id hid x => ?_)
      (fun x _ => Nat.mod_lt _ hthreads)
    rw [mem_counter hthreads, firstColumn_eq hid]

/-- The first column of a thread and the end of its columns, before they are clipped. -/
def columnSlice (inX numThreads id : Nat) : Nat × Nat :=
  (inX / numThreads * id + min id (inX % numThreads),
    inX / numThreads * (id + 1) + min id (inX % numThreads))

omit hfit hx hy in
theorem columnSlice_le (hid : id < numThreads) : (columnSlice inX numThreads id).1 ≤ inX ∧
    (columnSlice inX numThreads id).2 ≤ inX := by
  have hdiv := Nat.div_add_mod' inX numThreads
  have hmul := Nat.mul_le_mul_left (inX / numThreads) (Nat.succ_le_of_lt hid)
  have hmin := Nat.min_le_right id (inX % numThreads)
  rw [Nat.mul_succ] at hmul
  have hadd := Nat.le_add_right (inX / numThreads * id) (inX / numThreads)
  rw [columnSlice, Nat.mul_succ]
  constructor <;> dsimp only <;> omega

omit hfit hy in
theorem unrolledColumns_eq (hX : inX < 2 ^ 31) (hthreads : numThreads < 2 ^ 32)
    (hid : id < numThreads) : unrolledColumns inX id numThreads =
      (max 1 (columnSlice inX numThreads id).1,
        min (inX - 1) (columnSlice inX numThreads id).2) := by
  have ⟨hstart, hend⟩ : (columnSlice inX numThreads id).1 ≤ inX ∧
    (columnSlice inX numThreads id).2 ≤ inX := columnSlice_le hid
  have hmin : (if id < inX % numThreads then id else inX % numThreads) =
      min id (inX % numThreads) := by
    split <;> omega
  rw [columnSlice] at hstart hend
  dsimp only at hstart hend
  have hmax : ∀ a, (if a < 1 then 1 else a) = max 1 a := fun a => by split <;> omega
  have hclip : ∀ a, (if inX - 1 < a then inX - 1 else a) = min (inX - 1) a := fun a => by
    split <;> omega
  unfold unrolledColumns columnSlice
  dsimp only
  rw [hmin, u32_eq (show id + 1 < 2 ^ 32 by omega),
    u32_eq (show inX / numThreads * id < 2 ^ 32 by omega),
    u32_eq (show inX / numThreads * (id + 1) < 2 ^ 32 by omega), u32_eq (by omega),
    u32_eq (by omega), sub32_eq (show 1 ≤ inX by omega) (by omega), hmax, hclip]

/-- The interior columns of a thread. -/
def slicedColumns (inX numThreads id : Nat) : List Nat :=
  let start := max 1 (columnSlice inX numThreads id).1 - 1
  let end_ := min (inX - 1) (columnSlice inX numThreads id).2 - 1
  (List.range (turns start end_ 1)).map fun t => start + t * 1

omit hfit hx hy in
theorem mem_slicedColumns {x : Nat} : x ∈ slicedColumns inX numThreads id ↔
    x < inX - 2 ∧ (columnSlice inX numThreads id).1 ≤ x + 1 ∧
    x + 1 < (columnSlice inX numThreads id).2 := by
  rw [slicedColumns, mem_counter Nat.one_pos, Nat.mod_one, Nat.mod_one]
  omega

theorem conv2d3x3UnrolledParallel_ends (hthreads : numThreads < 2 ^ 32) (hid : id < numThreads) :
    Ends (fun fuel => conv2d3x3UnrolledParallel input k inX inY id numThreads fuel)
      (columnWrites input k inX inY (slicedColumns inX numThreads id)) := by
  have hX := width_lt hfit hy
  have hstart : (columnSlice inX numThreads id).1 ≤ inX := (columnSlice_le hid).1
  unfold conv2d3x3UnrolledParallel slicedColumns
  rw [unrolledColumns_eq hx hX hthreads hid]
  dsimp only
  generalize (columnSlice inX numThreads id).1 = a at hstart
  generalize (columnSlice inX numThreads id).2 = b
  have hlt : ∀ t < turns (max 1 a - 1) (min (inX - 1) b - 1) 1,
      max 1 a - 1 + t * 1 < min (inX - 1) b - 1 := fun t ht => (lt_turns Nat.one_pos).mp ht
  have hge := le_turns (a := max 1 a - 1) (b := min (inX - 1) b - 1) Nat.one_pos
  have hend := turns_lt (a := max 1 a - 1) (b := min (inX - 1) b - 1) Nat.one_pos
  refine ⟨turns (max 1 a - 1) (min (inX - 1) b - 1) 1, fun fuel hfuel => ?_⟩
  refine (forLoop_add (fun t ht => ?_) (by omega) (show _ < 2 ^ 32 by omega) hfuel).trans
    (congrArg some (columns_foldl fun t ht => ?_))
  · have := hlt t ht
    omega
  · have := hlt t ht
    rw [show max 1 a + t * 1 = max 1 a - 1 + t * 1 + 1 by omega]
    exact conv2d3x3UnrolledColumn_eq hfit (by omega) hy

omit hfit hx hy in
theorem perm_slicedColumns (hpos : 0 < inX) (hdvd : numThreads ∣ inX) :
    ((List.range numThreads).flatMap (slicedColumns inX numThreads)).Perm
      (List.range (inX - 2)) := by
  have hthreads : 0 < numThreads := Nat.pos_of_dvd_of_pos hdvd hpos
  have hdiv : 0 < inX / numThreads := Nat.div_pos (Nat.le_of_dvd hpos hdvd) hthreads
  have hmod : inX % numThreads = 0 := Nat.mod_eq_zero_of_dvd hdvd
  refine perm_range_of_owner (fun x => (x + 1) / (inX / numThreads))
    (fun id _ => nodup_counter Nat.one_pos) (fun id _ x => ?_) (fun x hlt => ?_)
  · rw [mem_slicedColumns, columnSlice, hmod, Nat.min_zero, Nat.add_zero, Nat.add_zero,
      Nat.div_eq_iff hdiv, Nat.mul_succ, Nat.mul_comm id]
    omega
  · rw [Nat.div_lt_iff_lt_mul hdiv, Nat.mul_div_cancel' hdvd]
    omega

omit hfit hy in
/-- The column between the first two slices. -/
theorem lost_column (hdvd : ¬numThreads ∣ inX) :
    ∃ x < inX - 2, ∀ id, x ∉ slicedColumns inX numThreads id := by
  have hdiv := Nat.div_add_mod' inX numThreads
  have hmod : 0 < inX % numThreads := Nat.emod_pos_of_not_dvd hdvd
  have hone : numThreads ≠ 1 := fun h => hdvd (h ▸ Nat.one_dvd inX)
  refine ⟨inX / numThreads - 1, ?_, fun id hmem => ?_⟩
  · have hhalf : inX / numThreads * 2 ≤ inX / numThreads * numThreads ∨ numThreads = 0 := by
      rcases Nat.eq_zero_or_pos numThreads with h | h
      · exact Or.inr h
      · exact Or.inl (Nat.mul_le_mul_left _ (by omega))
    rcases hhalf with h | h
    · omega
    · rw [h, Nat.div_zero]
      omega
  · rw [mem_slicedColumns, columnSlice] at hmem
    obtain ⟨-, hlo, hhi⟩ := hmem
    dsimp only at hlo hhi
    generalize inX / numThreads = q at *
    cases id with
    | zero => omega
    | succ id =>
        rw [Nat.mul_succ] at hlo hhi
        have := Nat.zero_le (q * id)
        rcases Nat.eq_zero_or_pos q with rfl | hq <;> omega

omit hfit hx hy in
/-- A pixel that is written lies in a column that is taken. -/
theorem column_of_write {cols : List Nat} {x y : Nat} (hcols : ∀ x' ∈ cols, x' + 2 < inX)
    (hx : x + 2 < inX)
    (hmem : ((y + 1) * inX + (x + 1), convPixel input k inX x y) ∈
      columnWrites input k inX inY cols) : x ∈ cols := by
  obtain ⟨x', hx', hw⟩ := List.mem_flatMap.mp hmem
  obtain ⟨y', -, heq⟩ := List.mem_map.mp hw
  have hmod := congrArg (· % inX) (congrArg Prod.fst heq)
  have hlt := hcols x' hx'
  dsimp only at hmod
  rw [Nat.mul_add_mod_self_right, Nat.mul_add_mod_self_right, Nat.mod_eq_of_lt (by omega),
    Nat.mod_eq_of_lt (by omega)] at hmod
  exact Nat.succ.inj hmod ▸ hx'

theorem conv2d3x3UnrolledParallel_exact (hthreads : numThreads < 2 ^ 32) :
    (ConvExact input k inX inY numThreads fun id fuel =>
      conv2d3x3UnrolledParallel input k inX inY id numThreads fuel) ↔ numThreads ∣ inX := by
  have hends := fun id (hid : id < numThreads) =>
    @conv2d3x3UnrolledParallel_ends input k _ _ _ _ hfit hx hy hthreads hid
  constructor
  · rintro ⟨writes, hwrites, hperm⟩
    by_contra hdvd
    obtain ⟨x, hlt, hlost⟩ := lost_column hx hdvd
    have hpixel : ((0 + 1) * inX + (x + 1), convPixel input k inX x 0) ∈
        (List.range (inX - 2)).flatMap (convColumn input k inX inY) :=
      List.mem_flatMap.mpr ⟨x, List.mem_range.mpr hlt,
        List.mem_map.mpr ⟨0, List.mem_range.mpr (by omega), rfl⟩⟩
    obtain ⟨id, hid, hmem⟩ := List.mem_flatMap.mp (hperm.mem_iff.mpr hpixel)
    have hid := List.mem_range.mp hid
    rw [(hwrites id hid).unique (hends id hid)] at hmem
    refine hlost id (column_of_write (fun x' hx' => ?_) (by omega) hmem)
    have := (mem_slicedColumns.mp hx').1
    omega
  · exact fun hdvd => convExact_of_columns hends (perm_slicedColumns (by omega) hdvd)

end Threads

/-- On an image that fits the address space, all four convolutions are exact if and only if the
number of threads divides the width. -/
theorem conv2d_exact_iff {input k : Nat → Int32} {inX inY numThreads : Nat}
    (hfit : inX * inY * 4 ≤ 2 ^ 32) (hx : 3 ≤ inX) (hy : 3 ≤ inY) (hthreads : numThreads < 2 ^ 32) :
    ((ConvExact input k inX inY numThreads fun id fuel =>
        conv2dParallel input k inX inY 3 3 id numThreads fuel) ∧
      (ConvExact input k inX inY numThreads fun id fuel =>
        conv2dShiftedParallel input k inX inY 3 3 id numThreads fuel) ∧
      (ConvExact input k inX inY numThreads fun id fuel =>
        conv2d3x3UnrolledParallel input k inX inY id numThreads fuel) ∧
      ConvExact input k inX inY numThreads fun id fuel =>
        conv2d3x3ShiftedUnrolledParallel input k inX inY id numThreads fuel) ↔
    numThreads ∣ inX := by
  have hmul := Nat.mul_le_mul_left inX hy
  have hfit : inX * inY ≤ 2 ^ 32 := by omega
  refine ⟨fun h => (conv2d3x3UnrolledParallel_exact hfit hx hy hthreads).mp h.2.2.1,
    fun hdvd => ?_⟩
  have hpos : 0 < numThreads := Nat.pos_of_dvd_of_pos hdvd (by omega)
  have hle : numThreads ≤ inX := Nat.le_of_dvd (by omega) hdvd
  have hwrap : inX + numThreads ≤ 2 ^ 31 := by omega
  exact ⟨conv2dParallel_exact hfit hx hy hpos hwrap,
    conv2dShiftedParallel_exact hfit hx hy hpos hwrap,
    (conv2d3x3UnrolledParallel_exact hfit hx hy hthreads).mpr hdvd,
    conv2d3x3ShiftedUnrolledParallel_exact hfit hx hy hpos hwrap⟩

theorem conv2d_exact_four_by_three :
    (ConvExact (fun i => ((i * i : Nat) : Int32)) (fun i => (i : Int32)) 4 3 2 fun id fuel =>
      conv2dParallel (fun i => ((i * i : Nat) : Int32)) (fun i => (i : Int32)) 4 3 3 3 id 2 fuel) ∧
    (ConvExact (fun i => ((i * i : Nat) : Int32)) (fun i => (i : Int32)) 4 3 2 fun id fuel =>
      conv2dShiftedParallel (fun i => ((i * i : Nat) : Int32)) (fun i => (i : Int32)) 4 3 3 3 id 2
        fuel) ∧
    (ConvExact (fun i => ((i * i : Nat) : Int32)) (fun i => (i : Int32)) 4 3 2 fun id fuel =>
      conv2d3x3UnrolledParallel (fun i => ((i * i : Nat) : Int32)) (fun i => (i : Int32)) 4 3 id 2
        fuel) ∧
    ConvExact (fun i => ((i * i : Nat) : Int32)) (fun i => (i : Int32)) 4 3 2 fun id fuel =>
      conv2d3x3ShiftedUnrolledParallel (fun i => ((i * i : Nat) : Int32)) (fun i => (i : Int32)) 4 3
        id 2 fuel :=
  (conv2d_exact_iff (by decide) (by decide) (by decide) (by decide)).mpr (by decide)

/-- On two threads an image of width three loses its only interior column. -/
theorem conv2d_column_lost :
    (∑ i ∈ Finset.range 9, (fun _ => 1 : Nat → Int32) i) ≠ 0 ∧
    ¬ConvExact (fun i => (i : Int32)) (fun _ => 1) 3 3 2 fun id fuel =>
      conv2d3x3UnrolledParallel (fun i => (i : Int32)) (fun _ => 1) 3 3 id 2 fuel :=
  ⟨by decide, fun h => absurd
    ((conv2d3x3UnrolledParallel_exact (by decide) (by decide) (by decide) (by decide)).mp h)
    (by decide)⟩

end TeraNoC.Kernels
