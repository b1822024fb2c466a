import TeraNoC.Runtime.Alloc
import TeraNoC.Systolic.Matmul

/-!
# The matrices in the heap (`kernels/systolic/matmul.h`, `apps/systolic/matmul/main.c`)

A systolic matrix is a record and an array, both from `simple_malloc`, and both written
through pointers that nobody compares with NULL. The elements load what is in the arrays of
`A` and `B` at the time, and store to the array of `C`.

The matrices that are copied belong to the caller, and the heap may hold them and other
blocks when the first array is asked for. The queues are as `systolic_init` leaves them; their
memory is that of the tiles.
-/

namespace TeraNoC.Systolic

open TeraNoC.Runtime

/-- `&array[i]`. -/
def element (array i : Nat) : Nat := u32 (array + 4 * i)

/-! ## Records -/

/-- `systolic_matrix_t`. -/
structure MatrixRecord where
  matrix : Nat
  numRows : Nat
  numCols : Nat

/-- `sizeof(systolic_matrix_t)`. -/
def recordBytes : Nat := 12

namespace MatrixRecord

def store (r : MatrixRecord) (h : Heap) (ptr : Nat) : Option Heap := do
  let h ← h.store ptr r.matrix
  let h ← h.store (u32 (ptr + 4)) r.numRows
  h.store (u32 (ptr + 8)) r.numCols

def load (h : Heap) (ptr : Nat) : Option MatrixRecord := do
  let matrix ← h.load ptr
  let numRows ← h.load (u32 (ptr + 4))
  let numCols ← h.load (u32 (ptr + 8))
  some { matrix, numRows, numCols }

/-- The matrix that a record describes. -/
def view (r : MatrixRecord) (h : Heap) : SystolicMatrix where
  matrix i := BitVec.ofNat 32 (h.alloc.mem (element r.matrix i))
  numRows := r.numRows
  numCols := r.numCols

end MatrixRecord

/-! ## Allocation -/

/-- What is asked for an array. -/
def arrayBytes (numRows numCols : Nat) : Nat := u32 (padded numRows * padded numCols * 4)

/-- `new_matrix`, and the heap with it. -/
def newMatrix (fuel : Nat) (h : Heap) (array numRows numCols : Nat) : Option (Heap × Nat) := do
  let (h, new) ← h.simpleMalloc fuel recordBytes
  let h ← MatrixRecord.store ⟨array, padded numRows, padded numCols⟩ h new
  some (h, new)

def systolicMatrixAllocate (fuel : Nat) (h : Heap) (numRows numCols : Nat) :
    Option (Heap × Nat) := do
  let (h, array) ← h.simpleMalloc fuel (arrayBytes numRows numCols)
  newMatrix fuel h array numRows numCols

/-- The loops that fill an array. -/
def fillArray (h : Heap) (array : Nat) (matrix : Nat → BitVec 32) (numRows numCols : Nat) :
    Option Heap := do
  let systNumRows := padded numRows
  let systNumCols := padded numCols
  let set := fun (h : Heap) y x (v : BitVec 32) =>
    h.store (element array (index systNumCols y x)) v.toNat
  let h ← (List.range numRows).foldlM (fun h y =>
    (List.range numCols).foldlM (fun h x => set h y x (matrix (index numCols y x))) h) h
  let h ← (if systNumCols ≠ numCols then
      (List.range systNumRows).foldlM (fun h y => set h y (systNumCols - 1) 0) h
    else some h)
  if systNumRows ≠ numRows then
    (List.range systNumCols).foldlM (fun h x => set h (systNumRows - 1) x 0) h
  else some h

def systolicMatrixCreate (fuel : Nat) (h : Heap) (matrix : Nat → BitVec 32)
    (numRows numCols : Nat) : Option (Heap × Nat) := do
  let (h, array) ← h.simpleMalloc fuel (arrayBytes numRows numCols)
  let h ← fillArray h array matrix numRows numCols
  newMatrix fuel h array numRows numCols

/-! ## The elements -/

/-- What the elements are called with. -/
structure SystolicCall where
  systolicSize : Nat
  xqueueSize : Nat
  repCount : Nat
  A : MatrixRecord
  B : MatrixRecord
  C : MatrixRecord

/-- All elements, the queues after each of them to the right and down, and the heap. -/
structure MemoryState where
  pe : Nat × Nat → Pe
  horz : Nat × Nat → MultiQueue (BitVec 32)
  vert : Nat × Nat → MultiQueue (BitVec 32)
  heap : Heap

namespace SystolicCall

variable (c : SystolicCall)

def params (h : Heap) : SystolicParams where
  systolicSize := c.systolicSize
  xqueueSize := c.xqueueSize
  repCount := c.repCount
  A := c.A.view h
  B := c.B.view h
  numRowsC := c.C.numRows
  numColsC := c.C.numCols

def view (s : MemoryState) : SystolicState where
  pe := s.pe
  horz := s.horz
  vert := s.vert
  matrixC := (c.C.view s.heap).matrix

/-- The four elements of a matrix that goes into `data_horz` or `data_vert`. -/
def block (r : MatrixRecord) (y x : Nat) : List Nat :=
  [(y, x), (y, x + 1), (y + 1, x), (y + 1, x + 1)].map fun (y, x) =>
    element r.matrix (index r.numCols y x)

/-- What an element loads before a MAC. -/
def loads (prog : PeProgram) (pe : Pe) : List Nat :=
  (if prog.loadsHorz then block c.A (SystolicParams.shiftedY prog pe) pe.i else []) ++
    if prog.loadsVert then block c.B pe.i (SystolicParams.shiftedX prog pe) else []

/-- A step of the element at row `r` and column `c`, `none` if an access of it is undefined. -/
def step (s : MemoryState) (rc : Nat × Nat) : Option MemoryState :=
  let p := c.params s.heap
  let prog := peProgram c.systolicSize rc.1 rc.2
  let pe := s.pe rc
  let next := p.step (c.view s) rc
  let heap := match pe.op with
    | .load => if (c.loads prog pe).all s.heap.valid then some s.heap else none
    | .store k => s.heap.store (element c.C.matrix (p.anchor prog pe k)) (pe.curr k).toNat
    | _ => some s.heap
  heap.map fun heap => { pe := next.pe, horz := next.horz, vert := next.vert, heap }

/-- The elements take steps in any order. -/
def run (s : MemoryState) (schedule : List (Fin c.systolicSize × Fin c.systolicSize)) :
    Option MemoryState :=
  schedule.foldlM (fun s rc => c.step s (rc.1, rc.2)) s

/-- All elements have returned. -/
def Done (s : MemoryState) : Prop :=
  ∀ row col, row < c.systolicSize → col < c.systolicSize → (s.pe (row, col)).op = .done

end SystolicCall

/-! ## The application -/

/-- The dimensions, the matrices of the caller, and what is in the memory that nobody has
written. `main` checks that there are as many cores as elements, and `num_cores` is a
`uint32_t`. The buffer of a queue has room in memory. -/
structure Matmul where
  systolicSize : Nat
  two_le : 2 ≤ systolicSize
  cores : systolicSize * systolicSize < 2 ^ 32
  xqueueSize : Nat
  xqueueSize_pos : 0 < xqueueSize
  fits : xqueueSize * dataSize < 2 ^ 32
  dimM : Nat
  dimM_pos : 0 < dimM
  dimM_le : dimM ≤ 65534
  dimN : Nat
  dimN_pos : 0 < dimN
  dimN_le : dimN ≤ 65534
  dimP : Nat
  dimP_pos : 0 < dimP
  dimP_le : dimP ≤ 65534
  matrixA : Nat → BitVec 32
  matrixB : Nat → BitVec 32
  buffer : Nat × Nat → Nat → BitVec 32
  data : Nat × Nat → Entry (BitVec 32)

namespace Matmul

variable (m : Matmul)

/-- `rep_count`, and what else the elements are called with. -/
def call (A B C : MatrixRecord) : SystolicCall where
  systolicSize := m.systolicSize
  xqueueSize := m.xqueueSize
  repCount := A.numCols / 2
  A := A
  B := B
  C := C

def start (h : Heap) : MemoryState where
  pe rc := .start (m.data rc) (m.data rc) (m.data rc)
  horz rc := .create (m.buffer rc) (m.data rc)
  vert rc := .create (m.buffer rc) (m.data rc)
  heap := h

/-- What `main` does before the elements start, and what they start with. -/
def setUp (fuel : Nat) (h : Heap) : Option (SystolicCall × MemoryState) := do
  let (h, systMatrixA) ← systolicMatrixCreate fuel h m.matrixA m.dimM m.dimN
  let (h, systMatrixB) ← systolicMatrixCreate fuel h m.matrixB m.dimN m.dimP
  let (h, systMatrixC) ← systolicMatrixAllocate fuel h m.dimM m.dimP
  let A ← MatrixRecord.load h systMatrixA
  let B ← MatrixRecord.load h systMatrixB
  let C ← MatrixRecord.load h systMatrixC
  some (m.call A B C, m.start h)

/-- What is asked of `simple_malloc`, in this order. -/
def requests : List Nat :=
  [arrayBytes m.dimM m.dimN, recordBytes, arrayBytes m.dimN m.dimP, recordBytes,
    arrayBytes m.dimM m.dimP, recordBytes]

end Matmul

end TeraNoC.Systolic
