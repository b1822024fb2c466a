import TeraNoC.Kernels.Conv2dI8
import TeraNoC.Lib.Tiling
import TeraNoC.Proofs.Conv2d

/-!
# The 2D convolutions of bytes

The two scalar kernels leave the weighted means of the interior pixels. The two vector kernels
take the number of rows for the length of a row and load the line below the last one. One of
the two shows on every image: with more columns than rows, a pixel of the left border is written,
and otherwise the line loaded last starts at the end of the image.
-/

namespace TeraNoC.Kernels

open TeraNoC.Lib TeraNoC.Runtime

theorem sub32_succ (j : Nat) : sub32 (j + 1) 1 = u32 j := by
  rw [sub32, show j + 1 + 2 ^ 32 - 1 = j + 2 ^ 32 by omega]
  exact Nat.add_mod_right j _

theorem u32_idem (x : Nat) : u32 (u32 x) = u32 x := Nat.mod_mod x _

-- The bounds of the loops are never to be evaluated.
attribute [local irreducible] sub32 u32

/-! ## Traces -/

section Traces

theorem foldl_append_writes (ts : List ConvTrace) (t : ConvTrace) :
    (ts.foldl ConvTrace.append t).writes = t.writes ++ ts.flatMap ConvTrace.writes := by
  induction ts generalizing t with
  | nil => exact (List.append_nil _).symm
  | cons u ts ih => exact (ih _).trans (List.append_assoc ..)

theorem foldl_append_reads (ts : List ConvTrace) (t : ConvTrace) :
    (ts.foldl ConvTrace.append t).reads = t.reads ++ ts.flatMap ConvTrace.reads := by
  induction ts generalizing t with
  | nil => exact (List.append_nil _).symm
  | cons u ts ih => exact (ih _).trans (List.append_assoc ..)

theorem trace_subset {ts : List ConvTrace} {u t : ConvTrace} (h : u ∈ ts) :
    u.writes ⊆ (ts.foldl ConvTrace.append t).writes ∧
      u.reads ⊆ (ts.foldl ConvTrace.append t).reads := by
  rw [foldl_append_writes, foldl_append_reads]
  exact ⟨fun x hx => List.mem_append_right _ (List.mem_flatMap.mpr ⟨u, h, hx⟩),
    fun x hx => List.mem_append_right _ (List.mem_flatMap.mpr ⟨u, h, hx⟩)⟩

section Loop

variable {σ : Type} {turn : σ × ConvTrace → Nat → σ × ConvTrace} {state : Nat → σ}
  {out : Nat → ConvTrace} (hturn : ∀ j t, turn (state j, t) j = (state (j + 1), t.append (out j)))
  (a n : Nat) (t : ConvTrace)

include hturn

/-- A loop that goes from state to state and adds to the trace. -/
theorem foldl_turns :
    (List.range' a n).foldl turn (state a, t) =
      (state (a + n), ((List.range' a n).map out).foldl ConvTrace.append t) := by
  induction n generalizing a t with
  | zero => rfl
  | succ n ih =>
      rw [List.range'_succ, List.foldl_cons, hturn, ih, List.map_cons, List.foldl_cons,
        Nat.add_assoc, Nat.add_comm 1 n]

theorem turnsTrace_writes (bound : Nat) : (turnsTrace turn bound (state 1, t)).writes =
    t.writes ++ (counter bound).flatMap fun j => (out j).writes := by
  rw [turnsTrace, counter, foldl_turns hturn, foldl_append_writes, List.flatMap_map]

theorem turnsTrace_reads (bound : Nat) : (turnsTrace turn bound (state 1, t)).reads =
    t.reads ++ (counter bound).flatMap fun j => (out j).reads := by
  rw [turnsTrace, counter, foldl_turns hturn, foldl_append_reads, List.flatMap_map]

end Loop

theorem mem_counter_iff {bound i : Nat} : i ∈ counter bound ↔ 1 ≤ i ∧ i < bound := by
  rw [counter, List.mem_range'_1]
  omega

end Traces

/-! ## Scalar kernels -/

section Scalar

variable {input k : Nat → BitVec 8} {inX inY x : Nat}

theorem elemSum_row (row i t : Nat) (sum : Int32) :
    elemSum k ((windowRow inX row i).map input) t sum =
      sum + tap (pixelI8 input) (coeffI8 k) inX row (sub32 i 1) t +
        tap (pixelI8 input) (coeffI8 k) inX row (u32 (i + 0)) (t + 1) +
        tap (pixelI8 input) (coeffI8 k) inX row (u32 (i + 1)) (t + 2) := rfl

/-- The elements that are kept at row `j`. -/
def elemsAt (input : Nat → BitVec 8) (inX i j : Nat) : Elems :=
  ⟨(windowRow inX (sub32 j 1) i).map input, (windowRow inX (u32 (j + 0)) i).map input⟩

/-- What `conv2d_3x3_unrolled2_i8_rv32im` does in the turn of row `j`. -/
def unrolled2Out (input k : Nat → BitVec 8) (inX i j : Nat) : ConvTrace :=
  let sum := elemSum k (elemsAt input inX i j).row0 0 0
  let sum := elemSum k (elemsAt input inX i j).row1 3 sum
  let sum := elemSum k ((windowRow inX (u32 (j + 1)) i).map input) 6 sum
  ⟨[(u32 (u32 (j * inX) + i), div32 sum (convWeight (coeffI8 k) 9))],
    windowRow inX (u32 (j + 1)) i⟩

theorem unrolled2Turn_eq (i j : Nat) (t : ConvTrace) :
    unrolled2Turn input k inX i (elemsAt input inX i j, t) j =
      (elemsAt input inX i (j + 1), t.append (unrolled2Out input k inX i j)) := by
  have hnext : elemsAt input inX i (j + 1) =
      ⟨(elemsAt input inX i j).row1, (windowRow inX (u32 (j + 1)) i).map input⟩ := by
    rw [elemsAt, sub32_succ]
    rfl
  rw [hnext]
  rfl

theorem elemsAt_one (i : Nat) : elemsAt input inX i 1 =
    ⟨(windowRow inX 0 i).map input, (windowRow inX 1 i).map input⟩ := by
  rw [elemsAt, sub32_eq (Nat.le_refl 1) (by decide), u32_eq (by decide)]

theorem unrolled2Column_writes (i : Nat) :
    (unrolled2Column input k inX inY i).writes =
      conv2d3x3UnrolledColumn (pixelI8 input) (coeffI8 k) inX inY i := by
  rw [unrolled2Column, ← elemsAt_one, turnsTrace_writes (unrolled2Turn_eq i), List.nil_append,
    conv2d3x3UnrolledColumn, List.map_eq_flatMap]
  simp only [unrolled2Out, elemsAt, elemSum_row]
  rfl

theorem unrolled2Column_reads (i : Nat) :
    (unrolled2Column input k inX inY i).reads =
      windowRow inX 0 i ++ windowRow inX 1 i ++
        (counter (sub32 inY 1)).flatMap fun j => windowRow inX (u32 (j + 1)) i := by
  rw [unrolled2Column, ← elemsAt_one, turnsTrace_reads (unrolled2Turn_eq i)]
  rfl

theorem mem_interiorWrites {f k : Nat → Int32} {index : Nat} {v : Int32} :
    (index, v) ∈ (List.range (inX - 2)).flatMap (convColumn f k inX inY) ↔
      Interior inX inY index ∧ v = convPixel f k inX (index % inX - 1) (index / inX - 1) := by
  simp only [List.mem_flatMap, convColumn, List.mem_map, List.mem_range, Prod.mk.injEq]
  constructor
  · rintro ⟨x, hx, y, hy, rfl, rfl⟩
    obtain ⟨hrow, hcol⟩ := cell_div_mod (P := inX) (i := y + 1) (j := x + 1) (by omega)
    rw [hrow, hcol, Nat.add_sub_cancel, Nat.add_sub_cancel]
    exact ⟨⟨y + 1, x + 1, by omega, by omega, by omega, by omega, rfl⟩, rfl⟩
  · rintro ⟨⟨r, c, hr, hr', hc, hc', rfl⟩, rfl⟩
    obtain ⟨hrow, hcol⟩ := cell_div_mod (P := inX) (i := r) (j := c) (by omega)
    rw [hrow, hcol]
    exact ⟨c - 1, by omega, r - 1, by omega,
      by rw [Nat.sub_add_cancel hr, Nat.sub_add_cancel hc], rfl⟩

variable (hfit : inX * inY ≤ 2 ^ 32) (hX : 3 ≤ inX) (hY : 3 ≤ inY)

include hfit hX hY

theorem counter_columns : counter (sub32 inX 1) = (List.range (inX - 2)).map (1 + ·) := by
  have hlt := width_lt hfit hY
  rw [counter, sub32_eq (by omega) (by omega), Nat.sub_sub, List.range'_eq_map_range]

theorem columns_eq : ((counter (sub32 inX 1)).flatMap fun i =>
      conv2d3x3UnrolledColumn (pixelI8 input) (coeffI8 k) inX inY i) =
    (List.range (inX - 2)).flatMap (convColumn (pixelI8 input) (coeffI8 k) inX inY) := by
  rw [counter_columns hfit hX hY, List.flatMap_map]
  refine List.flatMap_congr fun x hx => ?_
  have hx := List.mem_range.mp hx
  rw [Nat.add_comm 1 x]
  exact conv2d3x3UnrolledColumn_eq hfit (by omega) hY

theorem windowRow_inside {row i : Nat} (hrow : row < inY) (hi : i ∈ counter (sub32 inX 1)) :
    ∀ index ∈ windowRow inX row i, index < inX * inY := by
  have hlt := width_lt hfit hY
  rw [mem_counter_iff, sub32_eq (by omega) (by omega)] at hi
  have hcol {c : Nat} (hc : c < inX) : u32 (u32 (row * inX) + c) < inX * inY := by
    rw [pixel_eq hfit hrow hc]
    exact pixel_lt hrow hc
  intro index hindex
  simp only [windowRow, List.mem_cons, List.not_mem_nil, or_false] at hindex
  rw [sub32_eq hi.1 (by omega), u32_eq (show i + 0 < 2 ^ 32 by omega),
    u32_eq (show i + 1 < 2 ^ 32 by omega)] at hindex
  rcases hindex with h | h | h
  · exact h ▸ hcol (by omega)
  · exact h ▸ hcol (by omega)
  · exact h ▸ hcol (by omega)

theorem rv32im_inside {index : Nat}
    (h : index ∈ (conv2d3x3UnrolledI8Rv32im input k inX inY).reads) : index < inX * inY := by
  have hlt := height_lt hfit hX
  simp only [conv2d3x3UnrolledI8Rv32im, List.mem_flatMap, List.mem_append] at h
  obtain ⟨i, hi, j, hj, hread⟩ := h
  rw [mem_counter_iff, sub32_eq (by omega) (by omega)] at hj
  rw [sub32_eq hj.1 (by omega), u32_eq (by omega), u32_eq (by omega)] at hread
  rcases hread with (hread | hread) | hread
  · exact windowRow_inside hfit hX hY (by omega) hi _ hread
  · exact windowRow_inside hfit hX hY (by omega) hi _ hread
  · exact windowRow_inside hfit hX hY (by omega) hi _ hread

omit hfit hX hY in
theorem unrolled2_writes : (conv2d3x3Unrolled2I8Rv32im input k inX inY).writes =
    (conv2d3x3UnrolledI8Rv32im input k inX inY).writes := by
  rw [conv2d3x3Unrolled2I8Rv32im, foldl_append_writes, List.flatMap_map, List.nil_append,
    conv2d3x3UnrolledI8Rv32im]
  exact List.flatMap_congr fun i _ => unrolled2Column_writes i

omit hfit hX hY in
theorem unrolled2_reads : (conv2d3x3Unrolled2I8Rv32im input k inX inY).reads =
    (counter (sub32 inX 1)).flatMap fun i => windowRow inX 0 i ++ windowRow inX 1 i ++
      (counter (sub32 inY 1)).flatMap fun j => windowRow inX (u32 (j + 1)) i := by
  rw [conv2d3x3Unrolled2I8Rv32im, foldl_append_reads, List.flatMap_map, List.nil_append]
  exact List.flatMap_congr fun i _ => unrolled2Column_reads i

theorem unrolled2_inside {index : Nat}
    (h : index ∈ (conv2d3x3Unrolled2I8Rv32im input k inX inY).reads) : index < inX * inY := by
  have hlt := height_lt hfit hX
  simp only [unrolled2_reads, List.mem_flatMap, List.mem_append] at h
  obtain ⟨i, hi, (hread | hread) | ⟨j, hj, hread⟩⟩ := h
  · exact windowRow_inside hfit hX hY (by omega) hi _ hread
  · exact windowRow_inside hfit hX hY (by omega) hi _ hread
  · rw [mem_counter_iff, sub32_eq (by omega) (by omega)] at hj
    rw [u32_eq (by omega)] at hread
    exact windowRow_inside hfit hX hY (by omega) hi _ hread

/-- The scalar kernels do the same and what they are there for. -/
theorem rv32im_agree :
    ConvI8Agree [conv2d3x3UnrolledI8Rv32im input k inX inY,
      conv2d3x3Unrolled2I8Rv32im input k inX inY] inX inY := by
  have hwrites : ∀ t ∈ [conv2d3x3UnrolledI8Rv32im input k inX inY,
      conv2d3x3Unrolled2I8Rv32im input k inX inY], t.writes =
        (List.range (inX - 2)).flatMap (convColumn (pixelI8 input) (coeffI8 k) inX inY) := by
    have hfirst : (conv2d3x3UnrolledI8Rv32im input k inX inY).writes = _ :=
      columns_eq hfit hX hY
    intro t ht
    rcases List.mem_pair.mp ht with rfl | rfl
    · exact hfirst
    · exact unrolled2_writes.trans hfirst
  refine ⟨fun t ht index => ?_, fun t ht t' ht' index v v' hv hv' => ?_, fun t ht index h => ?_⟩
  · rw [hwrites t ht, List.mem_map]
    constructor
    · rintro ⟨⟨_, v⟩, hmem, rfl⟩
      exact (mem_interiorWrites.mp hmem).1
    · intro hin
      exact ⟨_, mem_interiorWrites.mpr ⟨hin, rfl⟩, rfl⟩
  · rw [hwrites t ht, mem_interiorWrites] at hv
    rw [hwrites t' ht', mem_interiorWrites] at hv'
    rw [hv.2, hv'.2]
  · rcases List.mem_pair.mp ht with rfl | rfl
    · exact rv32im_inside hfit hX hY h
    · exact unrolled2_inside hfit hX hY h

end Scalar

/-! ## Vector kernels -/

section Vector

variable {input k : Nat → BitVec 8} {R C : Nat} {cs : List Nat}

/-- The window of column `c` at row `r`. -/
def windowAt (input : Nat → BitVec 8) (R r c : Nat) : Window :=
  ⟨imgRow input (u32 (sub32 r 1 * R)) c, imgRow input (u32 (u32 r * R)) c,
    imgRow input (u32 (u32 (r + 1) * R)) c⟩

/-- What the turn of row `r` does. -/
def vectorOut (input k : Nat → BitVec 8) (R : Nat) (cs : List Nat) (r : Nat) : ConvTrace :=
  ⟨cs.map fun c => (u32 (u32 (r * R) + c), windowValue k (windowAt input R r c)),
    cs.flatMap (imgReads (u32 (u32 (r + 2) * R)))⟩

theorem vectorTurn_eq (r : Nat) (t : ConvTrace) :
    vectorTurn input k R cs (windowAt input R r, t) r =
      (windowAt input R (r + 1), t.append (vectorOut input k R cs r)) := by
  have hnext : windowAt input R (r + 1) =
      fun c => moveWindow input R r c (windowAt input R r c) := by
    funext c
    unfold windowAt
    rw [sub32_succ]
    rfl
  rw [hnext]
  rfl

theorem windowAt_one (hR : R < 2 ^ 32) : windowAt input R 1 = firstWindow input R := by
  funext c
  unfold windowAt firstWindow
  rw [sub32_eq (Nat.le_refl 1) (by decide), u32_eq (show 1 < 2 ^ 32 by decide),
    u32_eq (show 1 + 1 < 2 ^ 32 by decide), Nat.sub_self, Nat.zero_mul, Nat.one_mul, u32_eq hR,
    u32_eq (show 0 < 2 ^ 32 by decide), Nat.mul_comm (1 + 1) R]

/-- The kernels go down the columns `cs` with `R` as the length of a row. -/
theorem vectorColumns_writes (hR : R < 2 ^ 32) :
    (vectorColumns input k R cs).writes =
      (counter (sub32 R 1)).flatMap fun r => (vectorOut input k R cs r).writes := by
  rw [vectorColumns, ← windowAt_one hR, turnsTrace_writes vectorTurn_eq]
  exact List.nil_append _

theorem vectorColumns_reads (hR : R < 2 ^ 32) :
    (vectorColumns input k R cs).reads = cs.flatMap (windowReads R) ++
      (counter (sub32 R 1)).flatMap fun r => (vectorOut input k R cs r).reads := by
  rw [vectorColumns, ← windowAt_one hR, turnsTrace_reads vectorTurn_eq]

variable (hfit : C * R ≤ 2 ^ 32) (hR : 3 ≤ R) (hC : 3 ≤ C)

include hfit hR hC

/-- The first pixel of the column next to the border is taken for the one at index `R + 1`. -/
theorem writes_beside (hcs : 1 ∈ cs) :
    R + 1 ∈ (vectorColumns input k R cs).writes.map Prod.fst := by
  have hlt := height_lt hfit hC
  rw [vectorColumns_writes (by omega), List.mem_map]
  refine ⟨(u32 (u32 (1 * R) + 1), _), List.mem_flatMap.mpr ⟨1, ?_, List.mem_map.mpr ⟨1, hcs, rfl⟩⟩,
    ?_⟩
  · rw [mem_counter_iff, sub32_eq (by omega) (by omega)]
    omega
  · rw [Nat.one_mul, u32_eq (show R < 2 ^ 32 by omega), u32_eq (by omega)]

/-- With at least as many rows as columns, the line loaded after row `C - 2` begins where the
image ends. -/
theorem reads_beyond (hle : C ≤ R) (hcs : 1 ∈ cs) :
    u32 (C * R) ∈ (vectorColumns input k R cs).reads := by
  have hlt := height_lt hfit hC
  rw [vectorColumns_reads (by omega), List.mem_append]
  refine Or.inr (List.mem_flatMap.mpr ⟨C - 2, ?_, List.mem_flatMap.mpr ⟨1, hcs, ?_⟩⟩)
  · rw [mem_counter_iff, sub32_eq (by omega) (by omega)]
    omega
  · refine List.mem_map.mpr ⟨0, List.mem_range.mpr (by decide), ?_⟩
    rw [imgIndex, sub32_eq (Nat.le_refl 1) (by decide), Nat.sub_self, Nat.zero_add,
      show C - 2 + 2 = C by omega, u32_eq (show C < 2 ^ 32 by omega), u32_idem]

/-- The pixel at index `R + 1` is not an interior one, or index `C * R` is outside the image. -/
theorem vector_disagree {t : ConvTrace} (hcs : 1 ∈ cs) (hbeyond : C * R < 2 ^ 32)
    (hwrites : (vectorColumns input k R cs).writes ⊆ t.writes)
    (hreads : (vectorColumns input k R cs).reads ⊆ t.reads) : ¬ConvI8Agree [t] C R := by
  intro hagree
  rcases Nat.lt_or_ge R C with hlt | hge
  · have hmem : R + 1 ∈ t.writes.map Prod.fst :=
      List.map_subset _ hwrites (writes_beside hfit hR hC hcs)
    obtain ⟨r, c, hr, -, hc, -, heq⟩ :=
      (hagree.pixels t (List.mem_singleton_self t) _).mp hmem
    have hrow := Nat.mul_le_mul_right C hr
    omega
  · have hread := hagree.reads t (List.mem_singleton_self t) _
      (hreads (reads_beyond hfit hR hC hge hcs))
    rw [u32_eq hbeyond] at hread
    exact Nat.lt_irrefl _ hread

end Vector

theorem ConvI8Agree.subset {kernels kernels' : List ConvTrace} {w h : Nat}
    (hagree : ConvI8Agree kernels w h) (hsub : kernels' ⊆ kernels) : ConvI8Agree kernels' w h where
  pixels t ht := hagree.pixels t (hsub ht)
  values t ht t' ht' := hagree.values t (hsub ht) t' (hsub ht')
  reads t ht := hagree.reads t (hsub ht)

section Agree

variable {input k : Nat → BitVec 8} {w h : Nat} (hw : 3 ≤ w) (hh : 3 ≤ h)
  (hfit : w * h * 4 ≤ 2 ^ 32)

include hw hh hfit

theorem xpulpv2_disagree : ¬ConvI8Agree [conv2d3x3UnrolledI8Xpulpv2 input k h w] w h := by
  have hlt := width_lt (show w * h ≤ 2 ^ 32 by omega) hh
  have hcol : 1 ∈ counter (sub32 w 1) := by
    rw [mem_counter_iff, sub32_eq (by omega) (by omega)]
    omega
  have hmem : vectorColumns input k h [1] ∈
      (counter (sub32 w 1)).map fun c => vectorColumns input k h [c] :=
    List.mem_map.mpr ⟨1, hcol, rfl⟩
  obtain ⟨hwrites, hreads⟩ := trace_subset (t := ⟨[], []⟩) hmem
  exact vector_disagree (by omega) hh hw (List.mem_singleton_self 1) (by omega) hwrites hreads

/-- With three columns the kernel that takes two of them at a time takes none. -/
theorem unrolled2Xpulpv2_disagree :
    ¬ConvI8Agree [conv2d3x3Unrolled2I8Xpulpv2 input k h w] w h := by
  rcases Nat.eq_or_lt_of_le hw with rfl | hw4
  · intro hagree
    have hmem := (hagree.pixels _ (List.mem_singleton_self _) (1 * 3 + 1)).mpr
      ⟨1, 1, by decide, by omega, by decide, by decide, rfl⟩
    exact absurd hmem List.not_mem_nil
  · have hcol : 1 ∈ counter (w / 2) := by
      rw [mem_counter_iff]
      omega
    have hfirst : 1 ∈ [sub32 (u32 (2 * 1)) 1, u32 (2 * 1)] := by
      rw [u32_eq (by decide), sub32_eq (by decide) (by decide)]
      exact List.mem_cons_self
    have hmem : vectorColumns input k h [sub32 (u32 (2 * 1)) 1, u32 (2 * 1)] ∈
        (counter (w / 2)).map fun c =>
          vectorColumns input k h [sub32 (u32 (2 * c)) 1, u32 (2 * c)] :=
      List.mem_map.mpr ⟨1, hcol, rfl⟩
    obtain ⟨hwrites, hreads⟩ := trace_subset (t := ⟨[], []⟩) hmem
    exact vector_disagree (by omega) hh hw hfirst (by omega) hwrites hreads

end Agree

/-- The scalar kernels agree on every image and each of the vector kernels fails on every image:
it takes the number of rows for the length of a row and reads on below the image. -/
theorem conv2d_i8_agree_never {input k : Nat → BitVec 8} {w h : Nat} (hw : 3 ≤ w) (hh : 3 ≤ h)
    (hfit : w * h * 4 ≤ 2 ^ 32) :
    ConvI8Agree [conv2d3x3UnrolledI8Rv32im input k w h, conv2d3x3Unrolled2I8Rv32im input k w h]
      w h ∧
    ¬ConvI8Agree [conv2d3x3UnrolledI8Xpulpv2 input k h w] w h ∧
    ¬ConvI8Agree [conv2d3x3Unrolled2I8Xpulpv2 input k h w] w h ∧
    ¬ConvI8Agree (convI8Kernels input k w h) w h := by
  have hvector : ¬ConvI8Agree [conv2d3x3UnrolledI8Xpulpv2 input k h w] w h :=
    xpulpv2_disagree hw hh hfit
  refine ⟨rv32im_agree (by omega) hw hh, hvector, unrolled2Xpulpv2_disagree hw hh hfit,
    fun hagree => hvector (hagree.subset fun t ht => ?_)⟩
  rw [List.mem_singleton.mp ht]
  exact List.mem_cons_of_mem _ (List.mem_cons_of_mem _ List.mem_cons_self)

theorem conv2d_i8_four_by_three :
    ¬ConvI8Agree (convI8Kernels (fun i => BitVec.ofNat 8 i) (fun _ => 1) 4 3) 4 3 :=
  (conv2d_i8_agree_never (by decide) (by decide) (by decide)).2.2.2

/-- An image of four columns and three rows: index 4 is the first pixel of the second row. -/
theorem conv2d_i8_border_written : ¬ConvI8Agree
    (convI8Kernels (fun i => BitVec.ofNat 8 (i * i)) (fun _ => 1) 4 3) 4 3 := by
  intro hagree
  have hmem : 4 ∈ (conv2d3x3UnrolledI8Xpulpv2 (fun i => BitVec.ofNat 8 (i * i)) (fun _ => 1) 3
      4).writes.map Prod.fst := by decide +kernel
  obtain ⟨r, c, hr, -, hc, -, heq⟩ := (hagree.pixels _ (List.mem_cons_of_mem _
    (List.mem_cons_of_mem _ List.mem_cons_self)) 4).mp hmem
  omega

end TeraNoC.Kernels
