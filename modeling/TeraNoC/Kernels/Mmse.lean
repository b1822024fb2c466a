import Mathlib.Algebra.Order.Ring.Abs
import TeraNoC.Kernels.Chest

/-!
# MMSE front end (`kernels/baremetal/mempool_mimo_mmse_q16s.h`)

What the kernels store, in order. A complex number is a vector with the real part in the lower
halfword (`generate_qmmse` of `data/gendatalib.py`).
-/

namespace TeraNoC.Kernels

open TeraNoC.Lib TeraNoC.Runtime

/-- `p.clip` with an immediate. -/
def pClip (x : Int32) (is2 : Nat) : Int32 := clip x (is2 - 1)

/-- The assembly of the innermost loops, for one of the four columns: `as` and `bs`. `other` is
the register that takes the shuffled vector. -/
def mmseTerm (other ab cd : V2s) : V2s × Int32 × Int32 :=
  let as := dotspH ab cd
  let other := shuffle2H other cd 0x00020003
  let other := subH 0 other
  let bs := dotspH ab other
  (other, pClip (as.sshiftRight 8) 0x16, pClip (bs.sshiftRight 8) 0x16)

section Hermitian

variable (pH pS : Nat → V2s) (nRX nTX fuel : Nat)

/-- `as0`, `bs0`, … after the loop over `k`. -/
def hermitianSums (i j : Nat) : Nat → Int32 × Int32 :=
  (List.range nRX).foldl (fun _ k y =>
    let ab := pH (u32 (k * nTX + i))
    let cd := pH (u32 (k * nTX + j + y))
    -- the columns are shuffled in their own registers
    (mmseTerm cd ab cd).2) fun _ => (0, 0)

/-- The element of the diagonal gets the noise; at most one of the four conditions holds. -/
def addNoise (i j y : Nat) (s : Int32 × Int32) : Int32 × Int32 :=
  if i = u32 (j + y) then (s.1 + pS (u32 (2 * i)), 0) else s

/-- The body of the loop over `j`. -/
def hermitianTile (i j : Nat) : List (Nat × V2s) :=
  (List.range 4).map fun y =>
    let s := addNoise pS i j y (hermitianSums pH nRX nTX i j y)
    (u32 (i * nTX + j + y), packH s.1 s.2)

/-- The body of the loop over `i`; the loop over `j` makes its first turn without a test. -/
def hermitianRow (i : Nat) : Option (List (Nat × V2s)) :=
  forLoop (fun j => j < nTX) (fun j => u32 (j + 4))
    (fun j writes => writes ++ hermitianTile pH pS nRX nTX i j) fuel 4
    (hermitianTile pH pS nRX nTX i 0)

/-- `mempool_hermitian_q16vecs` -/
def mempoolHermitianQ16vecs : Option (List (Nat × V2s)) :=
  (List.range nTX).foldl (fun writes i =>
    writes.bind fun writes => (hermitianRow pH pS nRX nTX fuel i).map (writes ++ ·)) (some [])

end Hermitian

section Mvp

variable (pH px : Nat → V2s) (nRX nTX folded fuel : Nat)

/-- The variables that the turns of the loop over `i` hand on, and the stores. -/
structure MvpState where
  i : Nat
  ndc : V2s
  writes : List (Nat × V2s)

/-- `ndc`, and `as0`, `bs0`, … after the loop over `j`. All four columns use the same `ndc`. -/
def mvpSums (i : Nat) (ndc : V2s) : V2s × (Nat → Int32 × Int32) :=
  (List.range nRX).foldl (fun s j =>
    let cd := px j
    ((mmseTerm s.1 (pH (u32 (j * nTX + i))) cd).1,
      fun y => (mmseTerm s.1 (pH (u32 (j * nTX + i + y))) cd).2)) (ndc, fun _ => (0, 0))

/-- The body of the loop over `i`. -/
def mvpTurn (s : MvpState) : MvpState :=
  let sums := mvpSums pH px nRX nTX s.i s.ndc
  if folded = 0 then
    ⟨u32 (s.i + 4), sums.1, s.writes ++ (List.range 4).map fun y =>
      (u32 (s.i + y), packH (sums.2 y).1 (sums.2 y).2)⟩
  else { s with ndc := sums.1 }

/-- `mempool_MVP_conjtransp_q16vecs` -/
def mempoolMvpConjtranspQ16vecs : Option (List (Nat × V2s)) :=
  (whileLoop (fun s : MvpState => s.i < nTX) (mvpTurn pH px nRX nTX folded) fuel
    (mvpTurn pH px nRX nTX folded ⟨0, 0, []⟩)).map MvpState.writes

end Mvp

/-! ## What the front end is for -/

/-- An array after some stores. -/
def afterStores (array : Nat → V2s) (writes : List (Nat × V2s)) : Nat → V2s :=
  writes.foldl (fun array w => Function.update array w.1 w.2) array

/-- The parts of a number of `generate_qmmse`. -/
def mmseRe (x : V2s) : Int := (lane x 0).toInt
def mmseIm (x : V2s) : Int := (lane x 1).toInt

/-- The real and the imaginary part of `conj(h) * g`. -/
def conjMulRe (h g : V2s) : Int := mmseRe h * mmseRe g + mmseIm h * mmseIm g
def conjMulIm (h g : V2s) : Int := mmseRe h * mmseIm g - mmseIm h * mmseRe g

/-- A value is within `n` units of `exact / 2^8`. -/
def Near (n : Nat) (value exact : Int) : Prop := |2 ^ 8 * value - exact| ≤ (2 ^ 8 * n : Int)

/-- A stored number is within `n` units of `re / 2^8` and `im / 2^8`. -/
def WithinUnits (n : Nat) (x : V2s) (re im : Int) : Prop :=
  Near n (mmseRe x) re ∧ Near n (mmseIm x) im

/-- The noise term of the transmitter `i`, on the diagonal. -/
def noise (pS : Nat → V2s) (i j : Nat) : Int := if i = j then mmseRe (pS i) else 0

/-- `pG` is left with `H^H * H + S`. -/
def HermitianRight (pH pS : Nat → V2s) (nRX nTX : Nat) : Prop :=
  ∀ pG : Nat → V2s, ∃ writes, Ends (mempoolHermitianQ16vecs pH pS nRX nTX) writes ∧
    ∀ i < nTX, ∀ j < nTX, WithinUnits nRX (afterStores pG writes (i * nTX + j))
      (∑ k ∈ Finset.range nRX, conjMulRe (pH (k * nTX + i)) (pH (k * nTX + j)) +
        2 ^ 8 * noise pS i j)
      (∑ k ∈ Finset.range nRX, conjMulIm (pH (k * nTX + i)) (pH (k * nTX + j)))

/-- `py` is left with `H^H * x`. -/
def MvpRight (pH px : Nat → V2s) (nRX nTX folded : Nat) : Prop :=
  ∀ py : Nat → V2s, ∃ writes, Ends (mempoolMvpConjtranspQ16vecs pH px nRX nTX folded) writes ∧
    ∀ i < nTX, WithinUnits nRX (afterStores py writes i)
      (∑ j ∈ Finset.range nRX, conjMulRe (pH (j * nTX + i)) (px j))
      (∑ j ∈ Finset.range nRX, conjMulIm (pH (j * nTX + i)) (px j))

end TeraNoC.Kernels
