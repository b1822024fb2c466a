import Mathlib.Data.BitVec
import Mathlib.Data.Fin.VecNotation
import TeraNoC.Systolic.Queue

/-!
# Systolic matrix multiplication (`kernels/systolic/matmul.h`)

A square of processing elements, connected by queues to the right and down. Rows of
`A` enter from the left and columns of `B` from above, in blocks of two by two; every
element multiplies what passes by and passes it on, and stores its four sums at the end
of a tile of `C`.

The four kinds of elements run the same program, with or without their queues and loads:
`PeProgram` says which they have. A step of an element is one step of a queue, one store
to `C`, or the local computation up to the next of them.
-/

namespace TeraNoC.Systolic

open TeraNoC.Runtime

/-! ## Matrices -/

/-- A `systolic_matrix_t`, with what is in its array. -/
structure SystolicMatrix where
  matrix : Nat → BitVec 32
  numRows : Nat
  numCols : Nat

/-- `(n + 1) & 0xFFFE`. -/
def padded (n : Nat) : Nat := (n + 1) &&& 0xFFFE

/-- `y * num_cols + x`. -/
def index (numCols y x : Nat) : Nat := u32 (y * numCols + x)

/-! ## The processing elements -/

/-- What an element has: its queues, whether it loads its data itself, whether it checks
its row and its column against `C`, and by how much `i` grows in the loop over MACs. -/
structure PeProgram where
  rowIdx : Nat
  colIdx : Nat
  prevHorz : Bool
  prevVert : Bool
  nextHorz : Bool
  nextVert : Bool
  loadsHorz : Bool
  loadsVert : Bool
  checksRow : Bool
  checksCol : Bool
  iStep : Nat

def systolicRcpPe : PeProgram where
  rowIdx := 0
  colIdx := 0
  prevHorz := false
  prevVert := false
  nextHorz := true
  nextVert := true
  loadsHorz := true
  loadsVert := true
  checksRow := false
  checksCol := false
  iStep := 2

def systolicCpPe (systolicSize colIdx : Nat) : PeProgram where
  rowIdx := 0
  colIdx := colIdx
  prevHorz := true
  prevVert := false
  nextHorz := colIdx != systolicSize - 1
  nextVert := true
  loadsHorz := false
  loadsVert := true
  checksRow := false
  checksCol := true
  iStep := 2

def systolicRpPe (systolicSize rowIdx : Nat) : PeProgram where
  rowIdx := rowIdx
  colIdx := 0
  prevHorz := false
  prevVert := true
  nextHorz := true
  nextVert := rowIdx != systolicSize - 1
  loadsHorz := true
  loadsVert := false
  checksRow := true
  checksCol := false
  iStep := 2

def systolicNpPe (systolicSize rowIdx colIdx : Nat) : PeProgram where
  rowIdx := rowIdx
  colIdx := colIdx
  prevHorz := true
  prevVert := true
  nextHorz := colIdx != systolicSize - 1
  nextVert := rowIdx != systolicSize - 1
  loadsHorz := false
  loadsVert := false
  checksRow := true
  checksCol := true
  iStep := 1

/-- What `main` runs on the core of a row and column. -/
def peProgram (systolicSize rowIdx colIdx : Nat) : PeProgram :=
  if rowIdx = 0 then
    if colIdx = 0 then systolicRcpPe else systolicCpPe systolicSize colIdx
  else
    if colIdx = 0 then systolicRpPe systolicSize rowIdx
    else systolicNpPe systolicSize rowIdx colIdx

/-- Where an element is. -/
inductive PeOp where
  | popHorz
  | popVert
  | pushHorz
  | pushVert
  | mac
  | rowLoop
  | colLoop
  | repLoop
  | load
  | store (k : Fin 4)
  | done
  deriving DecidableEq

/-- Before the loops, in a tile that has a part in `C`, or in one that has not. -/
inductive PeStage where
  | start
  | inside
  | outside
  deriving DecidableEq

/-- `rounds` counts the passes over the queues, and `tiles` the tiles that are done. -/
structure Pe where
  op : PeOp
  stage : PeStage
  y : Nat
  x : Nat
  i : Nat
  dataHorz : Entry (BitVec 32)
  dataVert : Entry (BitVec 32)
  curr : Fin 4 → BitVec 32
  rounds : Nat
  tiles : Nat

structure SystolicParams where
  systolicSize : Nat
  xqueueSize : Nat
  repCount : Nat
  A : SystolicMatrix
  B : SystolicMatrix
  numRowsC : Nat
  numColsC : Nat

/-- All elements, by row and column, the queues after each of them to the right and down,
and the array of `C`. -/
structure SystolicState where
  pe : Nat × Nat → Pe
  horz : Nat × Nat → MultiQueue (BitVec 32)
  vert : Nat × Nat → MultiQueue (BitVec 32)
  matrixC : Nat → BitVec 32

namespace SystolicParams

variable (p : SystolicParams)

def shiftedX (prog : PeProgram) (pe : Pe) : Nat := u32 (pe.x + 2 * prog.colIdx)

def shiftedY (prog : PeProgram) (pe : Pe) : Nat := u32 (pe.y + 2 * prog.rowIdx)

/-- Whether the element is currently within `C`. -/
def within (prog : PeProgram) (pe : Pe) : Bool :=
  (!prog.checksCol || decide (shiftedX prog pe < p.numColsC)) &&
    (!prog.checksRow || decide (shiftedY prog pe < p.numRowsC))

/-- `data_horz` of the next MACs. -/
def loadHorz (prog : PeProgram) (pe : Pe) : Entry (BitVec 32) :=
  let y := shiftedY prog pe
  let at' := fun y x => p.A.matrix (index p.A.numCols y x)
  ![at' y pe.i, at' y (pe.i + 1), at' (y + 1) pe.i, at' (y + 1) (pe.i + 1)]

def loadVert (prog : PeProgram) (pe : Pe) : Entry (BitVec 32) :=
  let x := shiftedX prog pe
  let at' := fun y x => p.B.matrix (index p.B.numCols y x)
  ![at' pe.i x, at' pe.i (x + 1), at' (pe.i + 1) x, at' (pe.i + 1) (x + 1)]

/-- The eight MACs. -/
def macs (h v : Fin 4 → BitVec 32) (curr : Fin 4 → BitVec 32) : Fin 4 → BitVec 32 :=
  ![curr 0 + h 1 * v 2 + h 0 * v 0, curr 1 + h 1 * v 3 + h 0 * v 1,
    curr 2 + h 3 * v 2 + h 2 * v 0, curr 3 + h 3 * v 3 + h 2 * v 1]

/-- Where `curr_element_k_C` is stored. -/
def anchor (prog : PeProgram) (pe : Pe) (k : Fin 4) : Nat :=
  let anchorRow0 := index p.numColsC (shiftedY prog pe) (shiftedX prog pe)
  let anchorRow1 := u32 (anchorRow0 + p.numColsC)
  ![anchorRow0, u32 (anchorRow0 + 1), anchorRow1, u32 (anchorRow1 + 1)] k

/-- The next tile of the row. -/
def nextTile (pe : Pe) : Pe :=
  { pe with op := .colLoop, x := u32 (pe.x + 2 * p.systolicSize), tiles := pe.tiles + 1 }

/-- The local computation of an element. -/
def stepLocal (prog : PeProgram) (pe : Pe) : Pe :=
  match pe.op with
  | .rowLoop =>
      if pe.y < p.numRowsC then { pe with op := .colLoop, x := 0 } else { pe with op := .done }
  | .colLoop =>
      if pe.x < p.numColsC then
        if p.within prog pe then
          { pe with op := .repLoop, stage := .inside, i := 0, curr := fun _ => 0 }
        else { pe with op := .repLoop, stage := .outside, i := 0 }
      else { pe with op := .rowLoop, y := u32 (pe.y + 2 * p.systolicSize) }
  | .repLoop =>
      if pe.stage = .inside then
        if pe.i < u32 (prog.iStep * p.repCount) then { pe with op := .load }
        else { pe with op := .store 0 }
      else
        if pe.i < p.repCount then { pe with op := .popHorz } else p.nextTile pe
  | .load =>
      { pe with
        op := .popHorz
        dataHorz := if prog.loadsHorz then p.loadHorz prog pe else pe.dataHorz
        dataVert := if prog.loadsVert then p.loadVert prog pe else pe.dataVert }
  -- an element without the queue
  | .popHorz => { pe with op := .popVert }
  | .popVert => { pe with op := .pushHorz }
  | .pushHorz => { pe with op := .pushVert }
  | .pushVert => { pe with op := .mac }
  | .mac =>
      let pe := { pe with rounds := pe.rounds + 1 }
      match pe.stage with
      | .start => { pe with op := .rowLoop, y := 0 }
      | .inside =>
          { pe with
            op := .repLoop
            curr := macs pe.dataHorz pe.dataVert pe.curr
            i := u32 (pe.i + prog.iStep) }
      | .outside => { pe with op := .repLoop, i := u32 (pe.i + 1) }
  | .store k => if h : k.val + 1 < 4 then { pe with op := .store ⟨k + 1, h⟩ } else p.nextTile pe
  | .done => pe

/-- A step of the element at row `r` and column `c`. -/
def step (s : SystolicState) (rc : Nat × Nat) : SystolicState :=
  let prog := peProgram p.systolicSize rc.1 rc.2
  let pe := s.pe rc
  let setPe := fun pe => Function.update s.pe rc pe
  match pe.op with
  | .popHorz =>
      if prog.prevHorz then
        let q := s.horz (rc.1, rc.2 - 1)
        { s with
          horz := Function.update s.horz (rc.1, rc.2 - 1) (q.stepPop p.xqueueSize true)
          pe := match q.consumer with
            | .fetchSub data => setPe { p.stepLocal prog pe with dataHorz := data }
            | _ => s.pe }
      else { s with pe := setPe (p.stepLocal prog pe) }
  | .popVert =>
      if prog.prevVert then
        let q := s.vert (rc.1 - 1, rc.2)
        { s with
          vert := Function.update s.vert (rc.1 - 1, rc.2) (q.stepPop p.xqueueSize true)
          pe := match q.consumer with
            | .fetchSub data => setPe { p.stepLocal prog pe with dataVert := data }
            | _ => s.pe }
      else { s with pe := setPe (p.stepLocal prog pe) }
  | .pushHorz =>
      if prog.nextHorz then
        let q := s.horz rc
        { s with
          horz := Function.update s.horz rc (q.stepPush p.xqueueSize true pe.dataHorz)
          pe := match q.producer with
            | .fetchAdd _ => setPe (p.stepLocal prog pe)
            | _ => s.pe }
      else { s with pe := setPe (p.stepLocal prog pe) }
  | .pushVert =>
      if prog.nextVert then
        let q := s.vert rc
        { s with
          vert := Function.update s.vert rc (q.stepPush p.xqueueSize true pe.dataVert)
          pe := match q.producer with
            | .fetchAdd _ => setPe (p.stepLocal prog pe)
            | _ => s.pe }
      else { s with pe := setPe (p.stepLocal prog pe) }
  | .store k =>
      { s with
        matrixC := Function.update s.matrixC (p.anchor prog pe k) (pe.curr k)
        pe := setPe (p.stepLocal prog pe) }
  | _ => { s with pe := setPe (p.stepLocal prog pe) }

end SystolicParams

/-- What an element finds in its registers and on its stack at the call. -/
def Pe.start (dataHorz dataVert : Entry (BitVec 32)) (curr : Fin 4 → BitVec 32) : Pe where
  op := .popHorz
  stage := .start
  y := 0
  x := 0
  i := 0
  dataHorz := dataHorz
  dataVert := dataVert
  curr := curr
  rounds := 0
  tiles := 0

/-- After `systolic_init`, with anything in the memory that nobody has written. -/
def SystolicState.start (buffer : Nat × Nat → Nat → BitVec 32)
    (data : Nat × Nat → Entry (BitVec 32)) (matrixC : Nat → BitVec 32) : SystolicState where
  pe rc := .start (data rc) (data rc) (data rc)
  horz rc := .create (buffer rc) (data rc)
  vert rc := .create (buffer rc) (data rc)
  matrixC := matrixC

end TeraNoC.Systolic
