import TeraNoC.Proofs.HeapFrame
import TeraNoC.Proofs.SystolicMatmul
import TeraNoC.Systolic.Memory

/-!
# The multiplication in the heap

Where no size wraps and no pointer is NULL, the records and the arrays are blocks of their
own: a store to one leaves the others (`Wrote`), and so does an allocation (`Extends`). Then
every access of an element goes to a word of its array, and the machine that works on the
heap does what the one on the arrays does (`Follows`).

A request for 2^24 bytes returns NULL however much is free, and the first store to the array
goes through it.
-/

namespace TeraNoC.Systolic

open TeraNoC.Lib TeraNoC.Runtime

/-! ## The arrays in the heap -/

section Heap

variable {R : Region} {s t : Heap} {free : List Nat} {l : Live} {fuel n : Nat}
  {a matrix : Nat → BitVec 32}

/-- The array is what the first words of the block hold. -/
def Holds (s : Heap) (array n : Nat) (a : Nat → BitVec 32) : Prop :=
  ∀ i < n, BitVec.ofNat 32 (s.alloc.mem (element array i)) = a i

/-- A store to an element. -/
theorem store_element (h : HeapInv R s free) (hfuel : R.size / 8 < fuel) (hl : l ∈ s.live)
    (hn : 4 * n ≤ l.size) (hholds : Holds s l.ptr n a) {i : Nat} (hi : i < n) (v : BitVec 32) :
    ∃ t, s.store (element l.ptr i) v.toNat = some t ∧ Wrote R fuel l s t ∧
      Holds t l.ptr n (Function.update a i v) := by
  obtain ⟨hstore, hwrote⟩ := h.store_word hfuel hl (show 4 * i + 4 ≤ l.size by omega) v.toNat
  refine ⟨_, hstore, hwrote, fun j hj => ?_⟩
  rw [element, (h.word hl (show 4 * j + 4 ≤ l.size by omega)).1]
  by_cases hij : j = i
  · rw [hij, Function.update_self, Heap.write, Alloc.write_same, BitVec.ofNat_toNat]
    exact BitVec.setWidth_eq v
  · rw [Function.update_of_ne hij, ← hholds j hj, element,
      (h.word hl (show 4 * j + 4 ≤ l.size by omega)).1, Heap.write, Alloc.write_of_ne (by omega)]

/-- The record is where the pointer says. -/
def Describes (s : Heap) (ptr : Nat) (r : MatrixRecord) : Prop :=
  s.alloc.mem ptr = r.matrix ∧ s.alloc.mem (u32 (ptr + 4)) = r.numRows ∧
    s.alloc.mem (u32 (ptr + 8)) = r.numCols

/-- What is in a block, later blocks leave. -/
theorem Holds.extend {new : List Live} (hholds : Holds s l.ptr n a) (h : Extends R s t new)
    (hs : HeapInv R s free) (hl : l ∈ s.live) (hn : 4 * n ≤ l.size) : Holds t l.ptr n a := by
  intro i hi
  obtain ⟨hat, hvalid⟩ := hs.word hl (show 4 * i + 4 ≤ l.size by omega)
  rw [← hholds i hi, element, hat, h.kept _ hvalid]

theorem Describes.extend {new : List Live} {ptr : Nat} {r : MatrixRecord} (hr : Describes s ptr r)
    (h : Extends R s t new) (hs : HeapInv R s free) (hl : ⟨ptr, recordBytes⟩ ∈ s.live) :
    Describes t ptr r := by
  have hword (i : Nat) (hi : i < 3) :
      t.alloc.mem (u32 (ptr + 4 * i)) = s.alloc.mem (u32 (ptr + 4 * i)) := by
    obtain ⟨hat, hvalid⟩ := hs.word hl (show 4 * i + 4 ≤ 12 by omega)
    rw [hat, h.kept _ hvalid]
  have h0 : u32 ptr = ptr := (hs.word hl (i := 0) (show 4 * 0 + 4 ≤ 12 by decide)).1
  have hfirst : t.alloc.mem ptr = s.alloc.mem ptr := h0 ▸ hword 0 (by decide)
  exact ⟨hfirst.trans hr.1, (hword 1 (by decide)).trans hr.2.1, (hword 2 (by decide)).trans hr.2.2⟩

/-! ## Allocation -/

variable {numRows numCols array : Nat} {sizes : List Nat}

/-- The size of an array that does not wrap. -/
theorem arrayBytes_eq (hfit : padded numRows * padded numCols * 4 < 2 ^ 32) :
    arrayBytes numRows numCols = 4 * (padded numRows * padded numCols) := by
  rw [arrayBytes, u32_eq hfit, Nat.mul_comm]

end Heap

/-! ## The elements -/

section Elements

variable {R : Region} {c : SystolicCall} {fuel : Nat} {lA lB lC : Live} {h₀ : Heap}

/-- The record describes a block of the heap with room for its array. -/
structure MatrixRecord.In (r : MatrixRecord) (l : Live) (h : Heap) : Prop where
  live : l ∈ h.live
  ptr : r.matrix = l.ptr
  room : 4 * (r.numRows * r.numCols) ≤ l.size

/-- The arrays of a call are in the heap, and what is stored to `C` is not in the others. -/
structure Laid (R : Region) (c : SystolicCall) (lA lB lC : Live) (h : Heap) : Prop where
  inv : ∃ free, HeapInv R h free
  A : c.A.In lA h
  B : c.B.In lB h
  C : c.C.In lC h
  apartA : lA.Apart lC
  apartB : lB.Apart lC
  rowsA : c.A.numRows = c.C.numRows
  rowsB : c.B.numRows = c.A.numCols

/-- The elements of an array that the stores leave. -/
theorem MatrixRecord.In.kept {r : MatrixRecord} {l : Live} {h : Heap} (hr : r.In l h₀)
    (h₀inv : ∃ free, HeapInv R h₀ free) (hapart : l.Apart lC) (hwrote : Wrote R fuel lC h₀ h)
    {i : Nat} (hi : i < r.numRows * r.numCols) :
    h.valid (element r.matrix i) = true ∧
      (r.view h).matrix i = (r.view h₀).matrix i := by
  obtain ⟨free, hinv⟩ := h₀inv
  have hroom := hr.room
  obtain ⟨hat, hvalid⟩ := hinv.word hr.live (show 4 * i + 4 ≤ l.size by omega)
  have hword : element r.matrix i = l.ptr + 4 * i := by rw [hr.ptr, element, hat]
  simp only [view, hword]
  refine ⟨Heap.valid_mono (by rw [hwrote.live]; exact List.Subset.refl _) hvalid, ?_⟩
  rw [hwrote.outside _ fun hin => hapart _ (by omega) (by omega) (by omega) hin.2]

/-- Four elements of a matrix, in the order in which they are loaded. -/
def blockOf (M : SystolicMatrix) (y x : Nat) : Entry (BitVec 32) :=
  ![M.matrix (index M.numCols y x), M.matrix (index M.numCols y (x + 1)),
    M.matrix (index M.numCols (y + 1) x), M.matrix (index M.numCols (y + 1) (x + 1))]

theorem MatrixRecord.In.block {r : MatrixRecord} {l : Live} {h : Heap} (hr : r.In l h₀)
    (h₀inv : ∃ free, HeapInv R h₀ free) (hapart : l.Apart lC) (hwrote : Wrote R fuel lC h₀ h)
    (hrows : r.numRows ≤ 65534) (hcols : r.numCols ≤ 65534) {y x : Nat} (hy : y + 1 < r.numRows)
    (hx : x + 1 < r.numCols) :
    (SystolicCall.block r y x).all h.valid = true ∧
      blockOf (r.view h) y x = blockOf (r.view h₀) y x := by
  have hkept {y x : Nat} (hy : y < r.numRows) (hx : x < r.numCols) :=
    hr.kept h₀inv hapart hwrote (index_lt hcols hrows hy hx)
  have h₁ := hkept (show y < r.numRows by omega) (show x < r.numCols by omega)
  have h₂ := hkept (show y < r.numRows by omega) hx
  have h₃ := hkept hy (show x < r.numCols by omega)
  have h₄ := hkept hy hx
  constructor
  · simp only [SystolicCall.block, List.map_cons, List.map_nil, List.all_cons, h₁.1, h₂.1, h₃.1,
      h₄.1, List.all_nil, Bool.and_self]
  · simp only [blockOf]
    rw [show (r.view h).numCols = r.numCols from rfl, show (r.view h₀).numCols = r.numCols from rfl,
      h₁.2, h₂.2, h₃.2, h₄.2]

/-- Every load of an element goes to its array, and finds what was there at the start. -/
theorem Laid.load (h : Laid R c lA lB lC h₀) {t : Heap} (hwrote : Wrote R fuel lC h₀ t)
    (hp : (c.params h₀).Sized) {row col : Nat} (hrow : row < c.systolicSize)
    (hcol : col < c.systolicSize) {pe : Pe} (hpe : PeInv (c.params h₀) row col pe)
    (hop : pe.op = .load) :
    let prog := peProgram c.systolicSize row col
    (c.loads prog pe).all t.valid = true ∧
      (c.params t).stepLocal prog pe = (c.params h₀).stepLocal prog pe := by
  intro prog
  have hplace := hpe.place
  rw [hop] at hplace
  obtain ⟨ty, tx, it, hat, hit, hin⟩ := hplace
  have hy : SystolicParams.shiftedY prog pe = (c.params h₀).side * ty + 2 * row :=
    shiftedY_eq hp hrow hat.ty_lt hat.y
  have hx : SystolicParams.shiftedX prog pe = (c.params h₀).side * tx + 2 * col :=
    shiftedX_eq hp hcol hat.tx_lt hat.x
  have hside : (c.params h₀).side = 2 * c.systolicSize := rfl
  have hrows : c.C.numRows ≤ 65534 ∧ c.C.numRows % 2 = 0 := ⟨hp.rows_le, hp.rows_even⟩
  have hcols : c.C.numCols ≤ 65534 ∧ c.C.numCols % 2 = 0 := ⟨hp.cols_le, hp.cols_even⟩
  have hrep : 2 * c.repCount ≤ 65534 := hp.repCount_le
  have hcolsA : c.A.numCols = 2 * c.repCount := hp.numColsA
  have hcolsB : c.B.numCols = c.C.numCols := hp.numColsB
  have hrowsA := h.rowsA
  have hrowsB := h.rowsB
  have hit : it < c.repCount := hit
  have hin' : (c.params h₀).side * ty + 2 * row < c.C.numRows ∧
    (c.params h₀).side * tx + 2 * col < c.C.numCols := hin
  rw [hside, Nat.mul_assoc, Nat.mul_assoc] at hin'
  rw [hside, Nat.mul_assoc] at hx hy
  have hi (hedge : row = 0 ∨ col = 0) : pe.i = 2 * it := by
    rw [(hat.inside hin).2.1, peProgram_eq hp.two_le, if_pos hedge]
  have hA (hc : prog.loadsHorz = true) :
      (SystolicCall.block c.A (SystolicParams.shiftedY prog pe) pe.i).all t.valid = true ∧
        (c.params t).loadHorz prog pe = (c.params h₀).loadHorz prog pe := by
    have hedge : col = 0 := by
      rw [show prog = _ from peProgram_eq hp.two_le row col] at hc
      exact of_decide_eq_true hc
    have hi := hi (.inr hedge)
    exact h.A.block h.inv h.apartA hwrote (by omega) (by omega) (by omega) (by omega)
  have hB (hr : prog.loadsVert = true) :
      (SystolicCall.block c.B pe.i (SystolicParams.shiftedX prog pe)).all t.valid = true ∧
        (c.params t).loadVert prog pe = (c.params h₀).loadVert prog pe := by
    have hedge : row = 0 := by
      rw [show prog = _ from peProgram_eq hp.two_le row col] at hr
      exact of_decide_eq_true hr
    have hi := hi (.inl hedge)
    exact h.B.block h.inv h.apartB hwrote (by omega) (by omega) (by omega) (by omega)
  constructor
  · rw [SystolicCall.loads, List.all_append, Bool.and_eq_true]
    refine ⟨?_, ?_⟩
    · split
      · exact (hA ‹_›).1
      · rfl
    · split
      · exact (hB ‹_›).1
      · rfl
  · simp only [SystolicParams.stepLocal, hop]
    refine congrArg₂ (fun dataHorz dataVert =>
      { pe with op := .popHorz, dataHorz := dataHorz, dataVert := dataVert }) ?_ ?_
    · split
      · exact (hA ‹_›).2
      · rfl
    · split
      · exact (hB ‹_›).2
      · rfl

/-- The state of the machine on the heap is one of the machine on the arrays. -/
structure Follows (R : Region) (fuel : Nat) (c : SystolicCall) (lC : Live) (h₀ : Heap)
    (s : MemoryState) (a : SystolicState) : Prop where
  pe : s.pe = a.pe
  horz : s.horz = a.horz
  vert : s.vert = a.vert
  wrote : Wrote R fuel lC h₀ s.heap
  cells : Holds s.heap lC.ptr (c.C.numRows * c.C.numCols) a.matrixC

/-- Elements that do the same by themselves do the same. -/
theorem step_congr {p q : SystolicParams} {s t : SystolicState} (rc : Nat × Nat)
    (hsize : q.systolicSize = p.systolicSize) (hqueue : q.xqueueSize = p.xqueueSize)
    (hpe : t.pe = s.pe) (hhorz : t.horz = s.horz) (hvert : t.vert = s.vert)
    (hlocal : q.stepLocal (peProgram p.systolicSize rc.1 rc.2) (s.pe rc) =
      p.stepLocal (peProgram p.systolicSize rc.1 rc.2) (s.pe rc)) :
    (q.step t rc).pe = (p.step s rc).pe ∧ (q.step t rc).horz = (p.step s rc).horz ∧
      (q.step t rc).vert = (p.step s rc).vert := by
  simp only [SystolicParams.step, hsize, hqueue, hpe, hhorz, hvert, hlocal]
  cases (s.pe rc).op <;> simp only [and_self] <;> split <;> simp

/-- The local computation looks at the arrays in a load alone. -/
theorem stepLocal_params (t : Heap) (prog : PeProgram) {pe : Pe} (hop : pe.op ≠ .load) :
    (c.params t).stepLocal prog pe = (c.params h₀).stepLocal prog pe := by
  simp only [SystolicParams.stepLocal]
  cases hop' : pe.op with
  | load => exact absurd hop' hop
  | _ => rfl

/-- What a step does to the array of `C`. -/
theorem step_matrixC (p : SystolicParams) (a : SystolicState) (rc : Nat × Nat) :
    (p.step a rc).matrixC = match (a.pe rc).op with
      | .store k => Function.update a.matrixC
          (p.anchor (peProgram p.systolicSize rc.1 rc.2) (a.pe rc) k) ((a.pe rc).curr k)
      | _ => a.matrixC := by
  rw [SystolicParams.step]
  cases (a.pe rc).op with
  | popHorz | popVert | pushHorz | pushVert =>
      simp only
      split <;> rfl
  | _ => rfl

/-- A step of the machine on the arrays is one of the machine on the heap. -/
theorem Follows.step {s : MemoryState} {a : SystolicState} (h : Follows R fuel c lC h₀ s a)
    (hfuel : R.size / 8 < fuel) (hlaid : Laid R c lA lB lC h₀) (hp : (c.params h₀).Sized)
    (hinv : SystolicInv (c.params h₀) a) {row col : Nat} (hrow : row < c.systolicSize)
    (hcol : col < c.systolicSize) :
    ∃ s', c.step s (row, col) = some s' ∧
      Follows R fuel c lC h₀ s' ((c.params h₀).step a (row, col)) := by
  have hpe := hinv.pe row col hrow hcol
  have hmatrix := step_matrixC (c.params h₀) a (row, col)
  have hmove (hlocal : (c.params s.heap).stepLocal (peProgram c.systolicSize row col)
      (a.pe (row, col)) =
        (c.params h₀).stepLocal (peProgram c.systolicSize row col) (a.pe (row, col))) :=
    step_congr (p := c.params h₀) (q := c.params s.heap) (s := a) (t := c.view s) (row, col)
      rfl rfl h.pe h.horz h.vert hlocal
  rw [SystolicCall.step]
  simp only [h.pe]
  cases hop : (a.pe (row, col)).op with
  | load =>
      obtain ⟨hvalid, hlocal⟩ := hlaid.load h.wrote hp hrow hcol hpe hop
      obtain ⟨hpes, hhorz, hvert⟩ := hmove hlocal
      simp only [if_pos hvalid, Option.map_some]
      refine ⟨_, rfl, hpes, hhorz, hvert, h.wrote, ?_⟩
      rw [hmatrix, hop]
      exact h.cells
  | store k =>
      obtain ⟨hpes, hhorz, hvert⟩ := hmove (stepLocal_params _ _ (by rw [hop]; exact nofun))
      have hplace := hpe.place
      rw [hop] at hplace
      obtain ⟨ty, tx, hat, hin⟩ := hplace
      have hcell := Inside.cell hp hin k
      have hlt : (c.params h₀).anchor (peProgram c.systolicSize row col) (a.pe (row, col)) k <
          c.C.numRows * c.C.numCols :=
        (anchor_eq hp hrow hcol hat k).trans_lt (index_lt hp.cols_le hp.rows_le hcell.1 hcell.2)
      obtain ⟨free, hheap⟩ := h.wrote.inv
      obtain ⟨u, hstore, hwrote, hholds⟩ := store_element hheap hfuel
        (h.wrote.live ▸ hlaid.C.live) hlaid.C.room h.cells hlt ((a.pe (row, col)).curr k)
      have hstore : s.heap.store (element c.C.matrix ((c.params s.heap).anchor
          (peProgram c.systolicSize row col) (a.pe (row, col)) k))
            ((a.pe (row, col)).curr k).toNat = some u := by
        rw [hlaid.C.ptr]
        exact hstore
      simp only [hstore, Option.map_some]
      refine ⟨_, rfl, hpes, hhorz, hvert, h.wrote.trans hwrote, ?_⟩
      rw [hmatrix, hop]
      exact hholds
  | _ =>
      obtain ⟨hpes, hhorz, hvert⟩ := hmove (stepLocal_params _ _ (by rw [hop]; exact nofun))
      simp only [Option.map_some]
      refine ⟨_, rfl, hpes, hhorz, hvert, h.wrote, ?_⟩
      rw [hmatrix, hop]
      exact h.cells

theorem Follows.run {s : MemoryState} {a : SystolicState} (h : Follows R fuel c lC h₀ s a)
    (hfuel : R.size / 8 < fuel) (hlaid : Laid R c lA lB lC h₀) (hp : (c.params h₀).Sized)
    (hinv : SystolicInv (c.params h₀) a)
    (schedule : List (Fin c.systolicSize × Fin c.systolicSize)) :
    ∃ s', c.run s schedule = some s' ∧
      Follows R fuel c lC h₀ s' ((c.params h₀).run a schedule) := by
  induction schedule generalizing s a with
  | nil => exact ⟨s, rfl, h⟩
  | cons rc schedule ih =>
      obtain ⟨s₁, hstep, h₁⟩ := h.step hfuel hlaid hp hinv rc.1.isLt rc.2.isLt
      obtain ⟨s₂, hrun, h₂⟩ := ih h₁ (hinv.step hp rc.1.isLt rc.2.isLt)
      refine ⟨s₂, ?_, h₂⟩
      rw [SystolicCall.run, List.foldlM_cons, hstep]
      exact hrun

end Elements

/-! ## The application -/

/-- Every array has a size, and every call returns a pointer. -/
def Matmul.Allocated (m : Matmul) (fuel : Nat) (h : Heap) : Prop :=
  (padded m.dimM * padded m.dimN * 4 < 2 ^ 32 ∧ padded m.dimN * padded m.dimP * 4 < 2 ^ 32 ∧
    padded m.dimM * padded m.dimP * 4 < 2 ^ 32) ∧
  ∃ ptrs, h.mallocs fuel m.requests = some ptrs ∧ 0 ∉ ptrs

section Matmul

variable (m : Matmul) {R : Region} {h : Heap} {free : List Nat} {fuel : Nat}

theorem Matmul.Allocated.serves (hall : m.Allocated fuel h) : h.Serves fuel m.requests := by
  refine ⟨?_, hall.2⟩
  have heven (r c : Nat) (hfit : padded r * padded c * 4 < 2 ^ 32) (hr : r ≤ 65534)
      (hc : c ≤ 65534) : arrayBytes r c + 11 < 2 ^ 32 := by
    rw [arrayBytes_eq hfit]
    rw [padded_eq hr, padded_eq hc] at hfit ⊢
    rw [Nat.mul_mul_mul_comm] at hfit ⊢
    omega
  intro size hsize
  simp only [requests, List.mem_cons, List.not_mem_nil, or_false] at hsize
  rcases hsize with rfl | rfl | rfl | rfl | rfl | rfl
  · exact heven _ _ hall.1.1 m.dimM_le m.dimN_le
  · decide
  · exact heven _ _ hall.1.2.1 m.dimN_le m.dimP_le
  · decide
  · exact heven _ _ hall.1.2.2 m.dimM_le m.dimP_le
  · decide

end Matmul

/-- What a state of a run is like: as long as an element has not returned, some element can
take a step, and the run can be carried on until all have. Then the queues are empty, and
`C` is the product. -/
structure Matmul.Correct (m : Matmul) (c : SystolicCall) (s : MemoryState) : Prop where
  not_stuck : ¬ c.Done s → ∃ (rc : Fin c.systolicSize × Fin c.systolicSize) (s' : MemoryState),
    c.step s (rc.1, rc.2) = some s' ∧ s' ≠ s
  completes : ∃ more s', c.run s more = some s' ∧ c.Done s'
  horz_empty : c.Done s → ∀ row col, row < m.systolicSize → col + 1 < m.systolicSize →
    (s.horz (row, col)).contents m.xqueueSize = []
  vert_empty : c.Done s → ∀ row col, row + 1 < m.systolicSize → col < m.systolicSize →
    (s.vert (row, col)).contents m.xqueueSize = []
  product : c.Done s → ∀ row col, row < m.dimM → col < m.dimP →
    (c.C.view s.heap).matrix (index c.C.numCols row col) =
      ∑ k ∈ Finset.range m.dimN, m.matrixA (row * m.dimN + k) * m.matrixB (k * m.dimP + col)

end TeraNoC.Systolic
