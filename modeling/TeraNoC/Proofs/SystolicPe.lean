import Mathlib.Algebra.BigOperators.Group.Finset.Basic
import TeraNoC.Proofs.SystolicMatrix

/-!
# The program of a processing element

`C` is cut into tiles of two rows and two columns for each element. For every tile an
element makes `rep_count` rounds, and in round `it` it needs the two columns `2 * it` and
`2 * it + 1` of its rows of `A`, and the same two rows of its columns of `B`. The rounds of
all tiles are counted through (`roundOf`), after one round before the first tile.

`PeInv` says where an element is by its loops, and what its data and sums are there. An
element that lies outside of `C` in the current tile passes on whatever it has; what it
passes is only ever used by elements that are outside as well (`HorzOk`, `VertOk`).
-/

namespace TeraNoC.Systolic

open TeraNoC.Runtime TeraNoC.Lib

/-! ## What each element has -/

theorem peProgram_eq {systolicSize : Nat} (hsize : 2 ≤ systolicSize) (r c : Nat) :
    peProgram systolicSize r c =
      { rowIdx := r
        colIdx := c
        prevHorz := decide (c ≠ 0)
        prevVert := decide (r ≠ 0)
        nextHorz := decide (c ≠ systolicSize - 1)
        nextVert := decide (r ≠ systolicSize - 1)
        loadsHorz := decide (c = 0)
        loadsVert := decide (r = 0)
        checksRow := decide (r ≠ 0)
        checksCol := decide (c ≠ 0)
        iStep := if r = 0 ∨ c = 0 then 2 else 1 } := by
  have hlast : 0 ≠ systolicSize - 1 := by omega
  have hbne : ∀ n : Nat, (n != systolicSize - 1) = decide (n ≠ systolicSize - 1) := fun n => by
    by_cases h : n = systolicSize - 1 <;> simp [h]
  rcases Nat.eq_zero_or_pos r with rfl | hr
  · rcases Nat.eq_zero_or_pos c with rfl | hc
    · simp [peProgram, systolicRcpPe, hlast]
    · simp [peProgram, systolicCpPe, hlast, hbne, Nat.ne_of_gt hc]
  · rcases Nat.eq_zero_or_pos c with rfl | hc
    · simp [peProgram, systolicRpPe, hlast, hbne, Nat.ne_of_gt hr]
    · simp [peProgram, systolicNpPe, hbne, Nat.ne_of_gt hr, Nat.ne_of_gt hc]

namespace SystolicParams

variable (p : SystolicParams)

/-- An element is a core, `main` checks that there are `SYSTOLIC_SIZE` squared of them, and
their number is a `uint32_t`. The dimensions are even, and the columns of `A` are two for
each round. -/
structure Sized : Prop where
  two_le : 2 ≤ p.systolicSize
  cores : p.systolicSize * p.systolicSize < 2 ^ 32
  xqueueSize_pos : 0 < p.xqueueSize
  xqueueSize_lt : p.xqueueSize * dataSize < 2 ^ 32
  repCount_pos : 0 < p.repCount
  repCount_le : 2 * p.repCount ≤ 65534
  numColsA : p.A.numCols = 2 * p.repCount
  numColsB : p.B.numCols = p.numColsC
  rows_pos : 0 < p.numRowsC
  rows_le : p.numRowsC ≤ 65534
  rows_even : p.numRowsC % 2 = 0
  cols_pos : 0 < p.numColsC
  cols_le : p.numColsC ≤ 65534
  cols_even : p.numColsC % 2 = 0

/-- The rows, and the columns, of a tile. -/
def side : Nat := 2 * p.systolicSize

def tilesY : Nat := (p.numRowsC + p.side - 1) / p.side

def tilesX : Nat := (p.numColsC + p.side - 1) / p.side

/-- The number of round `it` of a tile. Round 0 is before the tiles. -/
def roundOf (ty tx it : Nat) : Nat := 1 + ((ty * p.tilesX + tx) * p.repCount + it)

def atA (y x : Nat) : BitVec 32 := p.A.matrix (index p.A.numCols y x)

def atB (y x : Nat) : BitVec 32 := p.B.matrix (index p.B.numCols y x)

def dot (row col n : Nat) : BitVec 32 := ∑ k ∈ Finset.range n, p.atA row k * p.atB k col

/-- What passes along the rows `y` and `y + 1` in round `it`. -/
def rowBlock (y it : Nat) : Entry (BitVec 32) :=
  ![p.atA y (2 * it), p.atA y (2 * it + 1), p.atA (y + 1) (2 * it), p.atA (y + 1) (2 * it + 1)]

def colBlock (x it : Nat) : Entry (BitVec 32) :=
  ![p.atB (2 * it) x, p.atB (2 * it) (x + 1), p.atB (2 * it + 1) x, p.atB (2 * it + 1) (x + 1)]

/-- Entry number `k` along the elements of row `r`. -/
def HorzOk (r k : Nat) (e : Entry (BitVec 32)) : Prop :=
  ∀ ty tx it, tx < p.tilesX → it < p.repCount → k = p.roundOf ty tx it →
    p.side * ty + 2 * r < p.numRowsC → e = p.rowBlock (p.side * ty + 2 * r) it

/-- Entry number `k` down the elements of column `c`. -/
def VertOk (c k : Nat) (e : Entry (BitVec 32)) : Prop :=
  ∀ ty tx it, tx < p.tilesX → it < p.repCount → k = p.roundOf ty tx it →
    p.side * tx + 2 * c < p.numColsC → e = p.colBlock (p.side * tx + 2 * c) it

variable {p} {r c ty tx it : Nat}

namespace Sized

theorem size_lt (h : p.Sized) : p.systolicSize < 65536 := by
  by_contra hle
  have := Nat.mul_le_mul (Nat.le_of_not_lt hle) (Nat.le_of_not_lt hle)
  have := h.cores
  omega

theorem side_pos (h : p.Sized) : 0 < p.side := by
  have := h.two_le
  rw [side]
  omega

theorem side_lt (h : p.Sized) : p.side < 131072 := by
  have := h.size_lt
  rw [side]
  omega

theorem lt_tilesY (h : p.Sized) : ty < p.tilesY ↔ p.side * ty < p.numRowsC := by
  have := h.side_pos
  rw [tilesY, Nat.lt_iff_add_one_le, Nat.le_div_iff_mul_le h.side_pos, Nat.succ_mul, Nat.mul_comm]
  omega

theorem lt_tilesX (h : p.Sized) : tx < p.tilesX ↔ p.side * tx < p.numColsC := by
  have := h.side_pos
  rw [tilesX, Nat.lt_iff_add_one_le, Nat.le_div_iff_mul_le h.side_pos, Nat.succ_mul, Nat.mul_comm]
  omega

end Sized

theorem roundOf_tile : p.roundOf ty tx p.repCount = p.roundOf ty (tx + 1) 0 := by
  rw [roundOf, roundOf, ← Nat.add_assoc (ty * p.tilesX), Nat.succ_mul, Nat.add_zero]

theorem roundOf_row : p.roundOf ty p.tilesX 0 = p.roundOf (ty + 1) 0 0 := by
  rw [roundOf, roundOf, Nat.succ_mul, Nat.add_zero (_ + _)]

/-- A round is of one tile. -/
theorem roundOf_inj {ty' tx' it' : Nat} (htx : tx < p.tilesX) (htx' : tx' < p.tilesX)
    (hit : it < p.repCount) (hit' : it' < p.repCount)
    (h : p.roundOf ty tx it = p.roundOf ty' tx' it') : ty = ty' ∧ tx = tx' ∧ it = it' := by
  have h := Nat.add_left_cancel h
  rw [Nat.mul_comm _ p.repCount, Nat.mul_comm _ p.repCount] at h
  obtain ⟨htile, rfl⟩ := Ring.word_inj hit hit' h
  rw [Nat.mul_comm ty, Nat.mul_comm ty'] at htile
  obtain ⟨rfl, rfl⟩ := Ring.word_inj htx htx' htile
  exact ⟨rfl, rfl, rfl⟩

/-- The two columns of a round are two more terms of the product. -/
theorem macs_dot (y x it : Nat) (k : Fin 4) :
    macs (p.rowBlock y it) (p.colBlock x it)
        (fun k => p.dot (y + k.val / 2) (x + k.val % 2) (2 * it)) k =
      p.dot (y + k.val / 2) (x + k.val % 2) (2 * (it + 1)) := by
  have hdot : ∀ row col, p.dot row col (2 * (it + 1)) =
      p.dot row col (2 * it) + p.atA row (2 * it + 1) * p.atB (2 * it + 1) col +
        p.atA row (2 * it) * p.atB (2 * it) col := by
    intro row col
    rw [dot, Nat.mul_add, Finset.sum_range_succ, Finset.sum_range_succ, ← dot, add_right_comm]
  rw [hdot]
  match k with
  | 0 => rfl
  | 1 => rfl
  | 2 => rfl
  | 3 => rfl

end SystolicParams

/-! ## Where an element is -/

/-- The element has a part of `C` in the tile. -/
def SystolicParams.Inside (p : SystolicParams) (r c ty tx : Nat) : Prop :=
  p.side * ty + 2 * r < p.numRowsC ∧ p.side * tx + 2 * c < p.numColsC

/-- The element has made `it` rounds of a tile. -/
structure Pe.At (p : SystolicParams) (r c : Nat) (pe : Pe) (ty tx it : Nat) : Prop where
  ty_lt : ty < p.tilesY
  tx_lt : tx < p.tilesX
  it_le : it ≤ p.repCount
  y : pe.y = p.side * ty
  x : pe.x = p.side * tx
  rounds : pe.rounds = p.roundOf ty tx it
  tiles : pe.tiles = ty * p.tilesX + tx
  inside : p.Inside r c ty tx → pe.stage = .inside ∧
    pe.i = (peProgram p.systolicSize r c).iStep * it ∧
    ∀ k : Fin 4, pe.curr k =
      p.dot (p.side * ty + 2 * r + k.val / 2) (p.side * tx + 2 * c + k.val % 2) (2 * it)
  outside : ¬ p.Inside r c ty tx → pe.stage = .outside ∧ pe.i = it

/-- Where the operations are. -/
def Pe.Place (p : SystolicParams) (r c : Nat) (pe : Pe) : PeOp → Prop
  | .rowLoop => ∃ ty, ty ≤ p.tilesY ∧ pe.y = p.side * ty ∧ pe.rounds = p.roundOf ty 0 0 ∧
      pe.tiles = ty * p.tilesX
  | .colLoop => ∃ ty tx, ty < p.tilesY ∧ tx ≤ p.tilesX ∧ pe.y = p.side * ty ∧ pe.x = p.side * tx ∧
      pe.rounds = p.roundOf ty tx 0 ∧ pe.tiles = ty * p.tilesX + tx
  | .repLoop => ∃ ty tx it, pe.At p r c ty tx it
  | .load => ∃ ty tx it, pe.At p r c ty tx it ∧ it < p.repCount ∧ p.Inside r c ty tx
  | .store _ => ∃ ty tx, pe.At p r c ty tx p.repCount ∧ p.Inside r c ty tx
  | .done => pe.rounds = p.roundOf p.tilesY 0 0 ∧ pe.tiles = p.tilesY * p.tilesX
  -- the operations on the queues
  | _ => (pe.stage = .start ∧ pe.rounds = 0 ∧ pe.tiles = 0) ∨
      ∃ ty tx it, pe.At p r c ty tx it ∧ it < p.repCount

/-- The element has the data of its round: it loads it before the first pop, or pops it. -/
def PeOp.horzReady (c : Nat) : PeOp → Prop
  | .popHorz => c = 0
  | .popVert | .pushHorz | .pushVert | .mac => True
  | _ => False

def PeOp.vertReady (r : Nat) : PeOp → Prop
  | .popHorz | .popVert => r = 0
  | .pushHorz | .pushVert | .mac => True
  | _ => False

structure PeInv (p : SystolicParams) (r c : Nat) (pe : Pe) : Prop where
  place : pe.Place p r c pe.op
  horz : pe.op.horzReady c → p.HorzOk r pe.rounds pe.dataHorz
  vert : pe.op.vertReady r → p.VertOk c pe.rounds pe.dataVert

section Pe

variable {p : SystolicParams} {r c ty tx it : Nat} {pe : Pe}

theorem Pe.At.moved (h : pe.At p r c ty tx it) (op : PeOp) (dataHorz dataVert : Entry (BitVec 32)) :
    Pe.At p r c { pe with op := op, dataHorz := dataHorz, dataVert := dataVert } ty tx it :=
  ⟨h.ty_lt, h.tx_lt, h.it_le, h.y, h.x, h.rounds, h.tiles, h.inside, h.outside⟩

theorem shiftedY_eq (hp : p.Sized) (hr : r < p.systolicSize) (hty : ty < p.tilesY)
    (hy : pe.y = p.side * ty) :
    SystolicParams.shiftedY (peProgram p.systolicSize r c) pe = p.side * ty + 2 * r := by
  have := hp.lt_tilesY.mp hty
  have := hp.rows_le
  have := hp.size_lt
  rw [SystolicParams.shiftedY, peProgram_eq hp.two_le, hy]
  exact u32_eq (a := p.side * ty + 2 * r) (by omega)

theorem shiftedX_eq (hp : p.Sized) (hc : c < p.systolicSize) (htx : tx < p.tilesX)
    (hx : pe.x = p.side * tx) :
    SystolicParams.shiftedX (peProgram p.systolicSize r c) pe = p.side * tx + 2 * c := by
  have := hp.lt_tilesX.mp htx
  have := hp.cols_le
  have := hp.size_lt
  rw [SystolicParams.shiftedX, peProgram_eq hp.two_le, hx]
  exact u32_eq (a := p.side * tx + 2 * c) (by omega)

/-- The check against `C`. The elements of the first row need not make it for the rows, nor
those of the first column for the columns. -/
theorem within_eq (hp : p.Sized) (hr : r < p.systolicSize) (hc : c < p.systolicSize)
    (hty : ty < p.tilesY) (htx : tx < p.tilesX) (hy : pe.y = p.side * ty)
    (hx : pe.x = p.side * tx) :
    p.within (peProgram p.systolicSize r c) pe = true ↔ p.Inside r c ty tx := by
  have hrow := hp.lt_tilesY.mp hty
  have hcol := hp.lt_tilesX.mp htx
  rw [SystolicParams.within, shiftedY_eq hp hr hty hy, shiftedX_eq hp hc htx hx,
    peProgram_eq hp.two_le, SystolicParams.Inside]
  simp only [Bool.and_eq_true, Bool.or_eq_true, Bool.not_eq_true', decide_eq_true_eq,
    decide_eq_false_iff_not]
  omega

/-- An element outside of `C` owes its neighbours nothing, where it has no queue to them. -/
theorem horzOk_of_outside (hp : p.Sized) (hat : pe.At p r 0 ty tx it) (hit : it < p.repCount)
    (hout : ¬ p.Inside r 0 ty tx) (data : Entry (BitVec 32)) : p.HorzOk r pe.rounds data := by
  intro ty' tx' it' htx' hit' heq hrow
  obtain ⟨rfl, rfl, rfl⟩ := SystolicParams.roundOf_inj hat.tx_lt htx' hit hit' (hat.rounds ▸ heq)
  exact absurd ⟨hrow, hp.lt_tilesX.mp hat.tx_lt⟩ hout

theorem vertOk_of_outside (hp : p.Sized) (hat : pe.At p 0 c ty tx it) (hit : it < p.repCount)
    (hout : ¬ p.Inside 0 c ty tx) (data : Entry (BitVec 32)) : p.VertOk c pe.rounds data := by
  intro ty' tx' it' htx' hit' heq hcol
  obtain ⟨rfl, rfl, rfl⟩ := SystolicParams.roundOf_inj hat.tx_lt htx' hit hit' (hat.rounds ▸ heq)
  exact absurd ⟨hp.lt_tilesY.mp hat.ty_lt, hcol⟩ hout

/-- Round 0 is of no tile. -/
theorem horzOk_zero (data : Entry (BitVec 32)) : p.HorzOk r 0 data := by
  intro ty tx it _ _ heq
  rw [SystolicParams.roundOf] at heq
  omega

theorem vertOk_zero (data : Entry (BitVec 32)) : p.VertOk c 0 data := by
  intro ty tx it _ _ heq
  rw [SystolicParams.roundOf] at heq
  omega

/-- The data of the round that the element is in. -/
theorem Pe.At.horz_eq (hat : pe.At p r c ty tx it) (hit : it < p.repCount)
    (hin : p.Inside r c ty tx) {data : Entry (BitVec 32)} (h : p.HorzOk r pe.rounds data) :
    data = p.rowBlock (p.side * ty + 2 * r) it :=
  h ty tx it hat.tx_lt hit hat.rounds hin.1

theorem Pe.At.vert_eq (hat : pe.At p r c ty tx it) (hit : it < p.repCount)
    (hin : p.Inside r c ty tx) {data : Entry (BitVec 32)} (h : p.VertOk c pe.rounds data) :
    data = p.colBlock (p.side * tx + 2 * c) it :=
  h ty tx it hat.tx_lt hit hat.rounds hin.2

/-! ### Passing on -/

theorem PeInv.popHorz (h : PeInv p r c pe) (hop : pe.op = .popHorz) {data : Entry (BitVec 32)}
    (hdata : p.HorzOk r pe.rounds data) :
    PeInv p r c { pe with op := .popVert, dataHorz := data } := by
  obtain ⟨hplace, -, hvert⟩ := h
  rw [hop] at hplace hvert
  refine ⟨?_, fun _ => hdata, hvert⟩
  rcases hplace with hstart | ⟨ty, tx, it, hat, hit⟩
  · exact .inl hstart
  · exact .inr ⟨ty, tx, it, hat.moved _ _ _, hit⟩

theorem PeInv.popVert (h : PeInv p r c pe) (hop : pe.op = .popVert) {data : Entry (BitVec 32)}
    (hdata : p.VertOk c pe.rounds data) :
    PeInv p r c { pe with op := .pushHorz, dataVert := data } := by
  obtain ⟨hplace, hhorz, -⟩ := h
  rw [hop] at hplace hhorz
  refine ⟨?_, hhorz, fun _ => hdata⟩
  rcases hplace with hstart | ⟨ty, tx, it, hat, hit⟩
  · exact .inl hstart
  · exact .inr ⟨ty, tx, it, hat.moved _ _ _, hit⟩

theorem PeInv.pushHorz (h : PeInv p r c pe) (hop : pe.op = .pushHorz) :
    PeInv p r c { pe with op := .pushVert } := by
  obtain ⟨hplace, hhorz, hvert⟩ := h
  rw [hop] at hplace hhorz hvert
  refine ⟨?_, hhorz, hvert⟩
  rcases hplace with hstart | ⟨ty, tx, it, hat, hit⟩
  · exact .inl hstart
  · exact .inr ⟨ty, tx, it, hat.moved _ _ _, hit⟩

theorem PeInv.pushVert (h : PeInv p r c pe) (hop : pe.op = .pushVert) :
    PeInv p r c { pe with op := .mac } := by
  obtain ⟨hplace, hhorz, hvert⟩ := h
  rw [hop] at hplace hhorz hvert
  refine ⟨?_, hhorz, hvert⟩
  rcases hplace with hstart | ⟨ty, tx, it, hat, hit⟩
  · exact .inl hstart
  · exact .inr ⟨ty, tx, it, hat.moved _ _ _, hit⟩

theorem PeInv.mac (h : PeInv p r c pe) (hp : p.Sized) (hop : pe.op = .mac) :
    PeInv p r c (p.stepLocal (peProgram p.systolicSize r c) pe) := by
  obtain ⟨hplace, hhorz, hvert⟩ := h
  rw [hop] at hplace hhorz hvert
  rw [SystolicParams.stepLocal, hop]
  rcases hplace with ⟨hstage, hrounds, htiles⟩ | ⟨ty, tx, it, hat, hit⟩
  · simp only [hstage]
    refine ⟨⟨0, Nat.zero_le _, rfl, ?_, ?_⟩, False.elim, False.elim⟩
    · simp [hrounds, SystolicParams.roundOf]
    · simp [htiles]
  · have hround : pe.rounds + 1 = p.roundOf ty tx (it + 1) := by rw [hat.rounds]; rfl
    have hrep := hp.repCount_le
    by_cases hin : p.Inside r c ty tx
    · obtain ⟨hstage, hi, hcurr⟩ := hat.inside hin
      have hstep : (peProgram p.systolicSize r c).iStep ≤ 2 := by
        rw [peProgram_eq hp.two_le]
        show (if r = 0 ∨ c = 0 then 2 else 1) ≤ 2
        split <;> omega
      simp only [hstage]
      refine ⟨⟨ty, tx, it + 1, hat.ty_lt, hat.tx_lt, hit, hat.y, hat.x, hround, hat.tiles,
        fun _ => ⟨rfl, ?_, fun k => ?_⟩, fun hout => absurd hin hout⟩, False.elim, False.elim⟩
      · have := Nat.mul_le_mul hstep hit
        rw [Nat.mul_succ] at this
        show u32 (pe.i + _) = _
        rw [hi, u32_eq (by omega), Nat.mul_succ]
      · show SystolicParams.macs pe.dataHorz pe.dataVert pe.curr k = _
        rw [hat.horz_eq hit hin (hhorz trivial), hat.vert_eq hit hin (hvert trivial),
          funext hcurr]
        exact SystolicParams.macs_dot _ _ it k
    · obtain ⟨hstage, hi⟩ := hat.outside hin
      simp only [hstage]
      refine ⟨⟨ty, tx, it + 1, hat.ty_lt, hat.tx_lt, hit, hat.y, hat.x, hround, hat.tiles,
        fun hin' => absurd hin' hin, fun _ => ⟨rfl, ?_⟩⟩, False.elim, False.elim⟩
      show u32 (pe.i + 1) = it + 1
      rw [hi, u32_eq (by omega)]

theorem PeInv.nextTile (hp : p.Sized) (hat : pe.At p r c ty tx p.repCount) :
    PeInv p r c (p.nextTile pe) := by
  have := hp.lt_tilesX.mp hat.tx_lt
  have := hp.cols_le
  have := hp.side_lt
  refine ⟨⟨ty, tx + 1, hat.ty_lt, hat.tx_lt, hat.y, ?_, ?_, ?_⟩, False.elim, False.elim⟩
  · show u32 (pe.x + p.side) = _
    rw [hat.x, u32_eq (by omega), Nat.mul_succ]
  · rw [← SystolicParams.roundOf_tile]
    exact hat.rounds
  · show pe.tiles + 1 = _
    rw [hat.tiles, Nat.add_assoc]

theorem PeInv.rowLoop (h : PeInv p r c pe) (hp : p.Sized) (hop : pe.op = .rowLoop) :
    PeInv p r c (p.stepLocal (peProgram p.systolicSize r c) pe) := by
  obtain ⟨hplace, -, -⟩ := h
  rw [hop] at hplace
  obtain ⟨ty, hty, hy, hrounds, htiles⟩ := hplace
  rw [SystolicParams.stepLocal, hop]
  have hiff : ty < p.tilesY ↔ pe.y < p.numRowsC := by
    rw [hy]
    exact hp.lt_tilesY
  by_cases hlt : pe.y < p.numRowsC
  · simp only [if_pos hlt]
    exact ⟨⟨ty, 0, hiff.mpr hlt, Nat.zero_le _, hy, rfl, hrounds, htiles⟩, False.elim, False.elim⟩
  · simp only [if_neg hlt]
    obtain rfl : ty = p.tilesY := Nat.le_antisymm hty (Nat.le_of_not_lt fun h => hlt (hiff.mp h))
    exact ⟨⟨hrounds, htiles⟩, False.elim, False.elim⟩

theorem PeInv.colLoop (h : PeInv p r c pe) (hp : p.Sized) (hr : r < p.systolicSize)
    (hc : c < p.systolicSize) (hop : pe.op = .colLoop) :
    PeInv p r c (p.stepLocal (peProgram p.systolicSize r c) pe) := by
  obtain ⟨hplace, -, -⟩ := h
  rw [hop] at hplace
  obtain ⟨ty, tx, hty, htx, hy, hx, hrounds, htiles⟩ := hplace
  rw [SystolicParams.stepLocal, hop]
  have hiff : tx < p.tilesX ↔ pe.x < p.numColsC := by
    rw [hx]
    exact hp.lt_tilesX
  by_cases hlt : pe.x < p.numColsC
  · have htx := hiff.mpr hlt
    have hin := within_eq hp hr hc hty htx hy hx
    simp only [if_pos hlt]
    by_cases hw : p.within (peProgram p.systolicSize r c) pe = true
    · simp only [if_pos hw]
      exact ⟨⟨ty, tx, 0, hty, htx, Nat.zero_le _, hy, hx, hrounds, htiles,
        fun _ => ⟨rfl, rfl, fun _ => rfl⟩, fun hout => absurd (hin.mp hw) hout⟩,
        False.elim, False.elim⟩
    · simp only [if_neg hw]
      exact ⟨⟨ty, tx, 0, hty, htx, Nat.zero_le _, hy, hx, hrounds, htiles,
        fun hin' => absurd (hin.mpr hin') hw, fun _ => ⟨rfl, rfl⟩⟩, False.elim, False.elim⟩
  · simp only [if_neg hlt]
    obtain rfl : tx = p.tilesX := Nat.le_antisymm htx (Nat.le_of_not_lt fun h => hlt (hiff.mp h))
    have := hp.lt_tilesY.mp hty
    have := hp.rows_le
    have := hp.side_lt
    refine ⟨⟨ty + 1, hty, ?_, ?_, ?_⟩, False.elim, False.elim⟩
    · show u32 (pe.y + p.side) = _
      rw [hy, u32_eq (by omega), Nat.mul_succ]
    · rw [← SystolicParams.roundOf_row]
      exact hrounds
    · exact htiles.trans (Nat.succ_mul _ _).symm

theorem PeInv.repLoop (h : PeInv p r c pe) (hp : p.Sized) (hop : pe.op = .repLoop) :
    PeInv p r c (p.stepLocal (peProgram p.systolicSize r c) pe) := by
  obtain ⟨hplace, -, -⟩ := h
  rw [hop] at hplace
  obtain ⟨ty, tx, it, hat⟩ := hplace
  have hle := hat.it_le
  rw [SystolicParams.stepLocal, hop]
  by_cases hin : p.Inside r c ty tx
  · obtain ⟨hstage, hi, -⟩ := hat.inside hin
    have hlt : pe.i < u32 ((peProgram p.systolicSize r c).iStep * p.repCount) ↔
        it < p.repCount := by
      have := hp.repCount_le
      rw [hi, peProgram_eq hp.two_le]
      show (if r = 0 ∨ c = 0 then 2 else 1) * it < u32 ((if r = 0 ∨ c = 0 then 2 else 1) * _) ↔ _
      split <;> rw [u32_eq (by omega)] <;> omega
    simp only [if_pos hstage]
    by_cases hit : it < p.repCount
    · simp only [if_pos (hlt.mpr hit)]
      exact ⟨⟨ty, tx, it, hat.moved _ _ _, hit, hin⟩, False.elim, False.elim⟩
    · simp only [if_neg fun hi => hit (hlt.mp hi)]
      obtain rfl : it = p.repCount := by omega
      exact ⟨⟨ty, tx, hat.moved _ _ _, hin⟩, False.elim, False.elim⟩
  · obtain ⟨hstage, hi⟩ := hat.outside hin
    have hne : pe.stage ≠ .inside := by
      rw [hstage]
      decide
    have hlt : pe.i < p.repCount ↔ it < p.repCount := by rw [hi]
    simp only [if_neg hne]
    by_cases hit : it < p.repCount
    · simp only [if_pos (hlt.mpr hit)]
      refine ⟨.inr ⟨ty, tx, it, hat.moved _ _ _, hit⟩, fun hready => ?_, fun hready => ?_⟩
      · obtain rfl : c = 0 := hready
        exact horzOk_of_outside hp hat hit hin _
      · obtain rfl : r = 0 := hready
        exact vertOk_of_outside hp hat hit hin _
    · simp only [if_neg fun hi => hit (hlt.mp hi)]
      obtain rfl : it = p.repCount := by omega
      exact .nextTile hp hat

theorem PeInv.load (h : PeInv p r c pe) (hp : p.Sized) (hr : r < p.systolicSize)
    (hc : c < p.systolicSize) (hop : pe.op = .load) :
    PeInv p r c (p.stepLocal (peProgram p.systolicSize r c) pe) := by
  obtain ⟨hplace, -, -⟩ := h
  rw [hop] at hplace
  obtain ⟨ty, tx, it, hat, hit, hin⟩ := hplace
  rw [SystolicParams.stepLocal, hop]
  refine ⟨.inr ⟨ty, tx, it, hat.moved _ _ _, hit⟩, fun hready => ?_, fun hready => ?_⟩
  · obtain rfl : c = 0 := hready
    intro ty' tx' it' htx' hit' heq hrow
    obtain ⟨rfl, rfl, rfl⟩ := SystolicParams.roundOf_inj hat.tx_lt htx' hit hit' (hat.rounds ▸ heq)
    have hi : pe.i = 2 * it := by
      rw [(hat.inside hin).2.1, peProgram_eq hp.two_le]
      simp
    have hload : (peProgram p.systolicSize r 0).loadsHorz = true := by
      rw [peProgram_eq hp.two_le]
      rfl
    simp only [if_pos hload]
    rw [SystolicParams.loadHorz, shiftedY_eq hp hr hat.ty_lt hat.y, hi]
    rfl
  · obtain rfl : r = 0 := hready
    intro ty' tx' it' htx' hit' heq hrow
    obtain ⟨rfl, rfl, rfl⟩ := SystolicParams.roundOf_inj hat.tx_lt htx' hit hit' (hat.rounds ▸ heq)
    have hi : pe.i = 2 * it := by
      rw [(hat.inside hin).2.1, peProgram_eq hp.two_le]
      simp
    have hload : (peProgram p.systolicSize 0 c).loadsVert = true := by
      rw [peProgram_eq hp.two_le]
      rfl
    simp only [if_pos hload]
    rw [SystolicParams.loadVert, shiftedX_eq hp hc hat.tx_lt hat.x, hi]
    rfl

theorem PeInv.store (h : PeInv p r c pe) (hp : p.Sized) {k : Fin 4} (hop : pe.op = .store k) :
    PeInv p r c (p.stepLocal (peProgram p.systolicSize r c) pe) := by
  obtain ⟨hplace, -, -⟩ := h
  rw [hop] at hplace
  obtain ⟨ty, tx, hat, hin⟩ := hplace
  rw [SystolicParams.stepLocal, hop]
  by_cases hk : k.val + 1 < 4
  · simp only [dif_pos hk]
    exact ⟨⟨ty, tx, hat.moved _ _ _, hin⟩, False.elim, False.elim⟩
  · simp only [dif_neg hk]
    exact .nextTile hp hat

end Pe

end TeraNoC.Systolic
