import TeraNoC.Kernels.Fft
import TeraNoC.Kernels.MatmulTiled

/-!
# Complex matrix multiplication (`kernels/baremetal/mempool_cmatmul_q16.h`)

The kernels that compute `C` in tiles of two by four, and their golden model
(`qcmatmul` of `data/qmath.py`). A complex number is a vector with the real part in the upper
halfword; the indices of the arrays are those of the halfwords.
-/

namespace TeraNoC.Kernels

open TeraNoC.Lib TeraNoC.Runtime

/-- `pv.shuffle2.h`: the halfwords are taken from `x` (selectors 2 and 3) or from `rd`. -/
def shuffle2H (rd x mask : V2s) : V2s :=
  let half (i : Nat) :=
    lane (if (lane mask i).getLsbD 1 then x else rd) ((lane mask i).toNat % 2)
  half 1 ++ half 0

/-- `pv.sdotsp.h` -/
def sumdotspH (x y : V2s) (z : Int32) : Int32 := dotspH x y + z

section Term

variable (ab0 ab1 cd0 cd1 : V2s)

/-- `im00` to `im13` before the shift. -/
def cmatmulIm : Int32 :=
  let temp0 := shuffle2H 0 ab0 0x00020003
  let temp1 := shuffle2H 0 ab1 0x00020003
  sumdotspH temp1 cd1 (dotspH temp0 cd0)

/-- `re00` to `re13` before the shift. -/
def cmatmulRe : Int32 :=
  let temp0 := addH (ab0 ^^^ 0x0000FFFF) 0x00000001
  let temp1 := addH (ab1 ^^^ 0x0000FFFF) 0x00000001
  sumdotspH temp1 cd1 (dotspH temp0 cd0)

/-- `c00` to `c13`. -/
def cmatmulTerm : V2s :=
  packH ((cmatmulRe ab0 ab1 cd0 cd1).sshiftRight 15) ((cmatmulIm ab0 ab1 cd0 cd1).sshiftRight 15)

end Term

section Cmatmul

variable (A B : Nat → V2s) (M N P coreId numThreads numCoresPerTile fuel : Nat)

/-- The values of `j`. -/
def cmatmulInner : List Nat := (List.range (turns 0 N 2)).map (2 * ·)

/-- `sum00` to `sum13`, after the loop over `j`. -/
def cmatmulElem (i k x y : Nat) : V2s :=
  (cmatmulInner N).foldl (fun sum j => addH sum (cmatmulTerm
    (A (u32 (2 * ((i + x) * N + j)))) (A (u32 (2 * ((i + x) * N + j + 1))))
    (B (u32 (2 * (j * P + k + y)))) (B (u32 (2 * ((j + 1) * P + k + y)))))) 0

/-- `CMATMUL_2x4_LOOP` -/
def cmatmul2x4Loop (i k : Nat) (t : TileTrace) : TileTrace where
  writes := t.writes ++ (List.range 2).flatMap fun x => (List.range 4).map fun y =>
    (u32 (2 * ((i + x) * P + (k + y))), cmatmulElem A B N P i k x y)
  loadsA := t.loadsA ++ (cmatmulInner N).flatMap fun j => (List.range 2).flatMap fun x =>
    (List.range 2).map fun z => u32 (2 * ((i + x) * N + (j + z)))
  loadsB := t.loadsB ++ (cmatmulInner N).flatMap fun j => (List.range 2).flatMap fun z =>
    (List.range 4).map fun y => u32 (2 * ((j + z) * P + (k + y)))

/-- `for (i = start; i < end_; i += 2)` -/
def cmatmulRows (start end_ k : Nat) (t : TileTrace) : Option TileTrace :=
  forLoop (fun i => i < end_) (fun i => u32 (i + 2)) (fun i t => cmatmul2x4Loop A B N P i k t) fuel
    start t

/-- `cmatmul_2x4_q16s` -/
def cmatmul2x4Q16s : Option TileTrace := do
  let t ← forLoop (fun k => k < P) (fun k => u32 (k + 4))
    (fun k t => t.bind (cmatmulRows A B N P fuel 0 M k)) fuel 0 (some {})
  t

/-- `cmatmul_2x4_q16p`, with `__SHIFT_A`. -/
def cmatmul2x4Q16p : Option TileTrace := do
  let shiftId := u32 (2 * (coreId % numCoresPerTile))
  let t ← forLoop (fun k => k < P) (fun k => u32 (k + u32 (4 * numThreads)))
    (fun k t => t.bind fun t => (cmatmulRows A B N P fuel shiftId M k t).bind
      (cmatmulRows A B N P fuel 0 shiftId k)) fuel (u32 (coreId * 4)) (some {})
  t

end Cmatmul

/-- What the parallel kernel does on all threads: every thread returns, together they do the
writes of the single-core kernel, which are one for every element of `C`, and nothing outside
of `A` and `B` is loaded. -/
def CmatmulExact (A B : Nat → V2s) (M N P numThreads numCoresPerTile : Nat) : Prop :=
  ∃ s : TileTrace, ∃ t : Nat → TileTrace, Ends (cmatmul2x4Q16s A B M N P) s ∧
    (s.writes.map Prod.fst).Perm ((List.range (M * P)).map (2 * ·)) ∧
    (∀ id < numThreads, Ends (cmatmul2x4Q16p A B M N P id numThreads numCoresPerTile) (t id)) ∧
    ((List.range numThreads).flatMap fun id => (t id).writes).Perm s.writes ∧
    ∀ id < numThreads, (∀ a ∈ (t id).loadsA, ∃ e < M * N, a = 2 * e) ∧
      ∀ b ∈ (t id).loadsB, ∃ e < N * P, b = 2 * e

/-- A component of `qcmatmul`: the sum of the products, each rounded down. -/
def qcmatmulSum (product : Nat → Int) (N fixedPoint : Nat) : Int :=
  (List.range N).foldl (fun c k => i32 (c + product k / 2 ^ fixedPoint)) 0

/-- `qcmatmul`, the real and the imaginary part of the element of row `i` and column `j`. -/
def qcmatmul (aReal aImag bReal bImag : Nat → Nat → Int) (N fixedPoint i j : Nat) : Int × Int :=
  (qcmatmulSum (fun k => aReal i k * bReal k j - aImag i k * bImag k j) N fixedPoint,
    qcmatmulSum (fun k => aReal i k * bImag k j + aImag i k * bReal k j) N fixedPoint)

end TeraNoC.Kernels
