import TeraNoC.Kernels.Fft

/-!
# Folded transforms (`kernels/baremetal/mempool_radix4_cfft_q16p.h`)

The kernels for `FOLDED` and `SCHEDULED`. The complex numbers of a transform are in four rows of
banks, and the four that a butterfly loads are in one column. A stage stores its results where
the next one loads them, in the other one of two buffers.
-/

namespace TeraNoC.Kernels

open TeraNoC.Lib TeraNoC.Runtime

/-- The pointers of a kernel. -/
structure Buffers where
  pSrc16 : Nat → FftLoc
  pDst16 : Nat → FftLoc
  pCoefSrc : Nat → FftLoc
  pCoefDst : Nat → FftLoc

/-- `p + d` -/
def shift (p : Nat → FftLoc) (d : Nat) : Nat → FftLoc := fun i => p (d + i)

section Folded

variable (NUM_BANKS : Nat) (foldedTwiddles : Bool)

/-- The swaps after a stage; those of the twiddle factors are for `FOLDED_TWIDDLES`. -/
def Buffers.swap (b : Buffers) : Buffers where
  pSrc16 := b.pDst16
  pDst16 := b.pSrc16
  pCoefSrc := if foldedTwiddles then b.pCoefDst else b.pCoefSrc
  pCoefDst := if foldedTwiddles then b.pCoefSrc else b.pCoefDst

/-! ## Twiddle factors -/

/-- A twiddle factor for the four wings of the next stage. -/
def storeTwiddlefact (pCoefDst : Nat → FftLoc) (CoSi : V2s) (icStore n2Store : Nat) :
    Prog FftLoc V2s Unit := do
  Prog.set (pCoefDst (u32 (2 * icStore))) CoSi
  Prog.set (pCoefDst (u32 (2 * u32 (u32 (n2Store * 1) + icStore)))) CoSi
  Prog.set (pCoefDst (u32 (2 * u32 (u32 (n2Store * 2) + icStore)))) CoSi
  Prog.set (pCoefDst (u32 (2 * u32 (u32 (n2Store * 3) + icStore)))) CoSi

/-- `LOAD_STORE_TWIDDLEFACT` and `SHUFFLE_TWIDDLEFACT` -/
def loadStoreTwiddlefact (b : Buffers) (ic icStore n2Store : Nat) :
    Prog FftLoc V2s Twiddles :=
  if foldedTwiddles then do
    let CoSi1 ← Prog.get (b.pCoefSrc (u32 (2 * ic)))
    let CoSi2 ← Prog.get (b.pCoefSrc (u32 (2 * u32 (ic + u32 (1 * NUM_BANKS)))))
    let CoSi3 ← Prog.get (b.pCoefSrc (u32 (2 * u32 (ic + u32 (2 * NUM_BANKS)))))
    if ic % 4 = 0 then do
      let icStore1 := u32 (icStore + NUM_BANKS)
      let icStore2 := u32 (icStore1 + NUM_BANKS)
      storeTwiddlefact b.pCoefDst CoSi1 icStore n2Store
      storeTwiddlefact b.pCoefDst CoSi2 icStore1 n2Store
      storeTwiddlefact b.pCoefDst CoSi3 icStore2 n2Store
      pure (shuffleTwiddlefact CoSi1 CoSi2 CoSi3)
    else pure (shuffleTwiddlefact CoSi1 CoSi2 CoSi3)
  else do
    let CoSi1 ← Prog.get (b.pCoefSrc (u32 (2 * ic)))
    let CoSi2 ← Prog.get (b.pCoefSrc (u32 (2 * u32 (ic * 2))))
    let CoSi3 ← Prog.get (b.pCoefSrc (u32 (2 * u32 (ic * 3))))
    pure (shuffleTwiddlefact CoSi1 CoSi2 CoSi3)

/-! ## Butterflies -/

/-- `radix4_butterfly_first` -/
def radix4ButterflyFirstFolded (w : Twiddles) (pIn pOut : Nat → FftLoc) (i0 n2 : Nat) :
    Prog FftLoc V2s Unit :=
  let i1 := u32 (i0 + n2)
  let i2 := u32 (i1 + n2)
  let i3 := u32 (i2 + n2)
  let n2Store := n2 >>> 2
  let i0Store := u32 (i0 % n2Store + u32 (i0 / n2Store * NUM_BANKS))
  let i1Store := u32 (i0Store + n2Store)
  let i2Store := u32 (i1Store + n2Store)
  let i3Store := u32 (i2Store + n2Store)
  radix4Butterfly (butterflyFirst w) pIn pOut i0 i1 i2 i3 i0Store i1Store i2Store i3Store

/-- `radix4_butterfly_middle` -/
def radix4ButterflyMiddleFolded (w : Twiddles) (pIn pOut : Nat → FftLoc) (i0 n2 : Nat) :
    Prog FftLoc V2s Unit :=
  let i1 := u32 (i0 + NUM_BANKS)
  let i2 := u32 (i1 + NUM_BANKS)
  let i3 := u32 (i2 + NUM_BANKS)
  let n2Store := n2 >>> 2
  let i0Store := u32 (u32 (i0 % n2Store + u32 (i0 / n2 * n2)) +
    u32 (i0 % n2 / n2Store * NUM_BANKS))
  let i1Store := u32 (i0Store + n2Store)
  let i2Store := u32 (i1Store + n2Store)
  let i3Store := u32 (i2Store + n2Store)
  radix4Butterfly (butterflyMiddle w) pIn pOut i0 i1 i2 i3 i0Store i1Store i2Store i3Store

/-- `radix4_butterfly_last` for `FOLDED` -/
def radix4ButterflyLastFolded (pIn pOut : Nat → FftLoc) (i0 : Nat) : Prog FftLoc V2s Unit :=
  let i1 := u32 (i0 + NUM_BANKS)
  let i2 := u32 (i1 + NUM_BANKS)
  let i3 := u32 (i2 + NUM_BANKS)
  let i0Store := u32 (i0 * 4)
  let i1Store := u32 (i0Store + 1)
  let i2Store := u32 (i1Store + 1)
  let i3Store := u32 (i2Store + 1)
  radix4Butterfly butterflyLast pIn pOut i0 i1 i2 i3 i0Store i1Store i2Store i3Store

/-- `radix4_butterfly_last` for `SCHEDULED`, without `BITREVERSETABLE` -/
def radix4ButterflyLastScheduled (pIn pOut : Nat → FftLoc) (i0 : Nat) : Prog FftLoc V2s Unit :=
  let i1 := u32 (i0 + NUM_BANKS)
  let i2 := u32 (i1 + NUM_BANKS)
  let i3 := u32 (i2 + NUM_BANKS)
  radix4Butterfly butterflyLast pIn pOut i0 i1 i2 i3 i0 i1 i2 i3

/-! ## The stages -/

section Stages

variable (first middle : Buffers → Twiddles → Nat → Nat → Prog FftLoc V2s Unit)
  (last : Buffers → Nat → Prog FftLoc V2s Unit) (fftLen coreId fuel : Nat)

/-- `for (i0 = core_id * 4; i0 < stop; i0++)` -/
def coreLoop (stop : Nat) (body : Nat → Prog FftLoc V2s Unit) : Prog FftLoc V2s Unit := do
  let _ ← Prog.forLoop (fun i0 => i0 < stop) (fun i0 => u32 (i0 + 1)) (fun i0 _ => body i0) fuel
    (u32 (coreId * 4)) ()
  pure ()

def firstFolded (b : Buffers) (n2 : Nat) : Prog FftLoc V2s Unit :=
  coreLoop coreId fuel (min (u32 (u32 (coreId * 4) + 4)) n2) fun i0 => do
    let ic := i0
    let w ← loadStoreTwiddlefact NUM_BANKS foldedTwiddles b ic (ic >>> 2) (n2 >>> 2)
    first b w i0 n2

def middleFolded (b : Buffers) (n2 twidCoefModifier : Nat) : Prog FftLoc V2s Unit :=
  coreLoop coreId fuel (u32 (u32 (coreId * 4) + 4)) fun i0 => do
    let ic := if foldedTwiddles then i0 else u32 (i0 % n2 * twidCoefModifier)
    let icStore := u32 ((ic % n2) >>> 2 + u32 (ic / n2 * n2))
    let w ← loadStoreTwiddlefact NUM_BANKS foldedTwiddles b ic icStore (n2 >>> 2)
    middle b w i0 n2

def lastFolded (b : Buffers) : Prog FftLoc V2s Unit :=
  coreLoop coreId fuel (min (u32 (u32 (coreId * 4) + 4)) (fftLen >>> 2)) fun i0 => last b i0

/-- The stages of a folded kernel, up to the barrier after the last one. -/
def cfftFolded (b : Buffers) : Prog FftLoc V2s Buffers := do
  let n2 := fftLen >>> 2
  firstFolded NUM_BANKS foldedTwiddles first coreId fuel b n2
  Prog.wait
  let s ← Prog.forLoop (fun k => 4 < k) (fun k => k >>> 2)
    (fun _ (s : Buffers × Nat × Nat) => do
      let n2 := s.2.1 >>> 2
      middleFolded NUM_BANKS foldedTwiddles middle coreId fuel s.1 n2 s.2.2
      Prog.wait
      pure (s.1.swap foldedTwiddles, n2, u32 (s.2.2 <<< 2)))
    fuel (fftLen / 4) (b.swap foldedTwiddles, n2, u32 (1 <<< 2))
  lastFolded last fftLen coreId fuel s.2.1
  Prog.wait
  pure s.2.1

end Stages

/-- `mempool_radix4_cfft_q16p_folded` -/
def mempoolRadix4CfftQ16pFolded (fftLen absoluteCoreId fuel : Nat) : Prog FftLoc V2s Unit := do
  let _ ← cfftFolded NUM_BANKS foldedTwiddles
    (fun b w => radix4ButterflyFirstFolded NUM_BANKS w b.pSrc16 b.pDst16)
    (fun b w => radix4ButterflyMiddleFolded NUM_BANKS w b.pSrc16 b.pDst16)
    (fun b => radix4ButterflyLastFolded NUM_BANKS b.pSrc16 b.pDst16) fftLen absoluteCoreId fuel
    ⟨.src, .dst, .coefSrc, .coefDst⟩
  pure ()

/-! ## The scheduler -/

/-- `for (idx_row = 0; idx_row < n_FFTs_ROW; idx_row++)` -/
def rows (nFFTsROW fuel : Nat) (body : Nat → Prog FftLoc V2s Unit) : Prog FftLoc V2s Unit := do
  let _ ← Prog.forLoop (fun idxRow => idxRow < nFFTsROW) (fun idxRow => u32 (idxRow + 1))
    (fun idxRow _ => body idxRow) fuel 0 ()
  pure ()

/-- `for (k = 0; k < LOG2; k++)`, from the bits in `result` on. -/
def reverseLoop : Nat → Nat → Nat → Nat
  | 0, result, _ => result
  | k + 1, result, idx => reverseLoop k (u32 (result <<< 1) ||| idx &&& 1) (idx >>> 1)

/-- `*ptr2 = *ptr1` -/
def copy (ptr2 ptr1 : FftLoc) : Prog FftLoc V2s Unit := do
  let v ← Prog.get ptr1
  Prog.set ptr2 v

def bitReversal (b : Buffers) (fftLen nFFTsROW LOG2 nPE coreId colId fuel : Nat) :
    Prog FftLoc V2s Unit := do
  let _ ← Prog.forLoop (fun ic => ic < fftLen) (fun ic => u32 (ic + u32 (nPE * 4)))
    (fun ic _ => do
      let idxResult0 := reverseLoop LOG2 0 ic
      let idxResult1 := reverseLoop LOG2 0 (u32 (ic + 1))
      let idxResult2 := reverseLoop LOG2 0 (u32 (ic + 2))
      let idxResult3 := reverseLoop LOG2 0 (u32 (ic + 3))
      let idx0 := ic / 4
      let idx1 := u32 (ic / 4 + NUM_BANKS)
      let idx2 := u32 (ic / 4 + u32 (2 * NUM_BANKS))
      let idx3 := u32 (ic / 4 + u32 (3 * NUM_BANKS))
      rows nFFTsROW fuel fun idxRow => do
        let row := u32 (idxRow * u32 (NUM_BANKS * 8))
        let ptr1 := shift (shift b.pSrc16 (u32 (u32 (2 * colId) * (fftLen / 4)))) row
        let ptr2 := shift (shift b.pDst16 (u32 (u32 (2 * colId) * fftLen))) row
        copy (ptr2 (u32 (2 * idxResult0))) (ptr1 (u32 (2 * idx0)))
        copy (ptr2 (u32 (2 * idxResult1))) (ptr1 (u32 (2 * idx1)))
        copy (ptr2 (u32 (2 * idxResult2))) (ptr1 (u32 (2 * idx2)))
        copy (ptr2 (u32 (2 * idxResult3))) (ptr1 (u32 (2 * idx3))))
    fuel (u32 (coreId * 4)) ()
  pure ()

/-- `mempool_radix4_cfft_q16p_scheduler`, without `BITREVERSETABLE` -/
def mempoolRadix4CfftQ16pScheduler (fftLen nFFTsROW LOG2 : Nat) (bitReverseFlag : Bool)
    (nPE absoluteCoreId fuel : Nat) : Prog FftLoc V2s Unit := do
  let coreId := absoluteCoreId % (fftLen >>> 4)
  let colId := absoluteCoreId / (fftLen >>> 4)
  let row idxRow := u32 (idxRow * u32 (NUM_BANKS * 8))
  let col := u32 (u32 (2 * colId) * fftLen)
  let colFolded := u32 (u32 (2 * colId) * (fftLen / 4))
  let coef p := if foldedTwiddles then shift p (col / 4) else p
  let b ← cfftFolded NUM_BANKS foldedTwiddles
    (fun b w i0 n2 => rows nFFTsROW fuel fun idxRow =>
      radix4ButterflyFirstFolded NUM_BANKS w (shift (shift b.pSrc16 (row idxRow)) col)
        (shift (shift b.pDst16 (row idxRow)) colFolded) i0 n2)
    (fun b w i0 n2 => rows nFFTsROW fuel fun idxRow =>
      radix4ButterflyMiddleFolded NUM_BANKS w (shift (shift b.pSrc16 (row idxRow)) colFolded)
        (shift (shift b.pDst16 (row idxRow)) colFolded) i0 n2)
    (fun b i0 => rows nFFTsROW fuel fun idxRow =>
      radix4ButterflyLastScheduled NUM_BANKS (shift (shift b.pSrc16 (row idxRow)) colFolded)
        (shift (shift b.pDst16 (row idxRow)) colFolded) i0)
    fftLen coreId fuel ⟨.src, .dst, coef .coefSrc, coef .coefDst⟩
  let b := { b with pSrc16 := b.pDst16, pDst16 := b.pSrc16 }
  if bitReverseFlag then
    bitReversal NUM_BANKS b fftLen nFFTsROW LOG2 nPE coreId colId fuel
  Prog.wait

end Folded

end TeraNoC.Kernels
