import TeraNoC.Kernels.Cholesky
import TeraNoC.Kernels.Mmse
import TeraNoC.Lib.Recurrence

/-!
# Decomposition and solver of halfwords (`kernels/baremetal/mempool_cholesky_q16s.h`,
`kernels/baremetal/mempool_linearsolver_q16s.h`)

An array is a function from the index of a halfword. A complex number is two of them, the real
part first.
-/

namespace TeraNoC.Kernels

open TeraNoC.Lib TeraNoC.Runtime

section Halfwords

variable (p : Nat → BitVec 16) (i : Nat)

/-- `*(v2s *)&p[i]`. -/
def loadHalves : V2s := p (u32 (i + 1)) ++ p i

/-- `*(v2s *)&p[i] = v`. -/
def storeHalves (v : V2s) : Nat → BitVec 16 :=
  Function.update (Function.update p i (lane v 0)) (u32 (i + 1)) (lane v 1)

/-- `(int32_t)p[i]`. -/
def loadHalf : Int32 := (p i).signExtend 32

end Halfwords

/-- `folded ? NUM_BANKS : n`. -/
def q16Offset (numBanks n folded : Nat) : Nat := if folded ≠ 0 then numBanks else n

/-- `2 * (i * offset + j)`. -/
def halfIdx (offset i j : Nat) : Nat := u32 (2 * matIdx offset i j)

/-! ## The decomposition -/

section Cholesky

variable (pSrc : Nat → BitVec 16) (numBanks n folded fuel : Nat)

/-- `sum` after the loop over `k` of an element on the diagonal. -/
def q16DiagonalSum (pL : Nat → BitVec 16) (offset j : Nat) : Int32 :=
  (List.range j).foldl (fun _ k =>
    let ab := loadHalves pL (halfIdx offset j k)
    pClip ((dotspH ab ab).sshiftRight 8) 0x16) 0

/-- `ndc`, `as` and `bs` after the loop over `k` of an element below the diagonal. -/
def q16RowSums (pL : Nat → BitVec 16) (offset i j : Nat) (ndc : V2s) : V2s × Int32 × Int32 :=
  (List.range j).foldl (fun s k =>
    let ab := loadHalves pL (halfIdx offset i k)
    let cd := loadHalves pL (halfIdx offset j k)
    mmseTerm s.1 ab cd) (ndc, 0, 0)

/-- The body of the loop over the rows. It hands on `ndc` and `pL`. -/
def q16Element (offset j : Nat) (s : V2s × (Nat → BitVec 16)) (i : Nat) :
    V2s × (Nat → BitVec 16) :=
  let ap := loadHalf pSrc (halfIdx offset i j)
  let bp := loadHalf pSrc (u32 (halfIdx offset i j + 1))
  let diag := loadHalf s.2 (halfIdx offset j j)
  let sums := q16RowSums s.2 offset i j s.1
  let res := packH (div32 (ap - sums.2.1) diag) (div32 (bp - sums.2.2) diag)
  (sums.1, storeHalves s.2 (halfIdx offset i j) res)

/-- The body of the loop over the columns. -/
def q16Column (s : V2s × (Nat → BitVec 16)) (j : Nat) : Option (V2s × (Nat → BitVec 16)) :=
  let offset := q16Offset numBanks n folded
  let diag := loadHalf pSrc (halfIdx offset j j)
  let sum := q16DiagonalSum s.2 offset j
  (mempoolSqrtQ32s 16 (diag - sum) fuel).map fun root =>
    (List.range' (j + 1) (n - (j + 1))).foldl (q16Element pSrc offset j)
      (s.1, Function.update s.2 (halfIdx offset j j) (lane root 0))

/-- `mempool_cholesky_q16vecs`. It leaves `pL`. -/
def mempoolCholeskyQ16vecs (pL : Nat → BitVec 16) : Option (Nat → BitVec 16) :=
  ((List.range n).foldl (fun s j => s.bind fun s => q16Column pSrc numBanks n folded fuel s j)
    (some (0, pL))).map Prod.snd

end Cholesky

/-! ## The solver -/

section Ltrisol

variable (pL y : Nat → BitVec 16) (numBanks n transposed folded : Nat)

/-- `transposed ? (n - i - 1) : i`. -/
def q16Row (i : Nat) : Nat := if transposed ≠ 0 then sub32 (sub32 n i) 1 else i

/-- The element of the matrix for the loop over `j`. -/
def q16Lower (ridx cidx : Nat) : V2s :=
  if transposed = 0 then loadHalves pL (halfIdx (q16Offset numBanks n folded) ridx cidx)
  else loadHalves pL (halfIdx n cidx ridx)

/-- `ndc`, `as` and `bs` after the loop over `j`. -/
def q16SolverSums (i : Nat) (s : V2s × (Nat → BitVec 16)) : V2s × Int32 × Int32 :=
  (List.range i).foldl (fun sums j =>
    let cidx := q16Row n transposed j
    let ab := q16Lower pL numBanks n transposed folded (q16Row n transposed i) cidx
    let cd := loadHalves s.2 (u32 (2 * cidx))
    mmseTerm sums.1 ab cd) (s.1, 0, 0)

/-- The body of the loop over the variables. It hands on `ndc` and `x`. -/
def q16Variable (s : V2s × (Nat → BitVec 16)) (i : Nat) : V2s × (Nat → BitVec 16) :=
  let ridx := q16Row n transposed i
  let offset := q16Offset numBanks n folded
  let diag := loadHalf pL (halfIdx offset ridx ridx)
  let sums := q16SolverSums pL numBanks n transposed folded i s
  let as := sums.2.1 - loadHalf y (u32 (2 * ridx))
  let bs := sums.2.2 - loadHalf y (u32 (u32 (2 * ridx) + 1))
  (sums.1, storeHalves s.2 (u32 (2 * ridx)) (packH (div32 as diag) (div32 bs diag)))

/-- `mempool_Ltrisol_q16vecs`. It leaves `x`. -/
def mempoolLtrisolQ16vecs (x : Nat → BitVec 16) : Nat → BitVec 16 :=
  ((List.range n).foldl (q16Variable pL y numBanks n transposed folded) (0, x)).2

end Ltrisol

/-! ## What the kernels are for -/

/-- The complex number with an index. -/
def complexAt (p : Nat → BitVec 16) (e : Nat) : Int × Int :=
  ((p (2 * e)).toInt, (p (2 * e + 1)).toInt)

section Complex

variable (a b : Int × Int)

def conj : Int × Int := (a.1, -a.2)

/-- The product, scaled. -/
def mulScaled : Int × Int :=
  ((a.1 * b.1 - a.2 * b.2) / 2 ^ 8, (a.1 * b.2 + a.2 * b.1) / 2 ^ 8)

/-- The quotient by the real part, component by component. -/
def divReal : Int × Int := (a.1.tdiv b.1, a.2.tdiv b.1)

def rootReal : Int × Int := ((sqrtQ32s 16 (BitVec.ofInt 32 a.1)).toInt, 0)

end Complex

/-- An element of the lower triangle; only the real part of one on the diagonal counts. -/
def triangleAt (offset : Nat) (pL : Nat → BitVec 16) (e : Nat × Nat) : Int × Int :=
  let z := complexAt pL (e.1 * offset + e.2)
  if e.1 = e.2 then (z.1, 0) else z

/-- The elements of the lower triangle. -/
def LowerTriangle (n : Nat) (e : Nat × Nat) : Prop := e.2 ≤ e.1 ∧ e.1 < n

/-- The recurrence of the factor. -/
def choleskyRecurrence (offset : Nat) (pSrc : Nat → BitVec 16) (L : Nat × Nat → Int × Int)
    (e : Nat × Nat) : Int × Int :=
  let pivot := complexAt pSrc (e.1 * offset + e.2) -
    ∑ k ∈ Finset.range e.2, mulScaled (L (e.1, k)) (conj (L (e.2, k)))
  if e.1 = e.2 then rootReal pivot else divReal pivot (L (e.2, e.2))

/-- The recurrence of the solution. -/
def ltrisolRecurrence (offset n transposed : Nat) (pL y : Nat → BitVec 16) (x : Nat → Int × Int)
    (i : Nat) : Int × Int :=
  let L := fun i j => complexAt pL (i * offset + j)
  let sum :=
    if transposed = 0 then ∑ j ∈ Finset.range i, mulScaled (L i j) (x j)
    else ∑ j ∈ Finset.Ico (i + 1) n, mulScaled (conj (L j i)) (x j)
  divReal (complexAt y i - sum) (L i i)

/-- `pL` is left with the factor. -/
def CholeskyRight (pSrc pL : Nat → BitVec 16) (numBanks n folded : Nat) : Prop :=
  let offset := q16Offset numBanks n folded
  ∃ pL', Ends (fun fuel => mempoolCholeskyQ16vecs pSrc numBanks n folded fuel pL) pL' ∧
    Solves (LowerTriangle n) (choleskyRecurrence offset pSrc) (triangleAt offset pL')

/-- `x` is left with the solution. -/
def LtrisolRight (pL y x : Nat → BitVec 16) (numBanks n transposed folded : Nat) : Prop :=
  Solves (· < n) (ltrisolRecurrence (q16Offset numBanks n folded) n transposed pL y)
    (complexAt (mempoolLtrisolQ16vecs pL y numBanks n transposed folded x))

end TeraNoC.Kernels
