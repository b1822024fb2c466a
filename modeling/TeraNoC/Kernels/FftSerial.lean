import TeraNoC.Kernels.Fft
import TeraNoC.Lib.Sharing

/-!
# Transforms of a single core, and of twice a power of four
(`kernels/baremetal/mempool_radix4_cfft_q16s.h` and `mempool_radix4_cfft_q16p.h`)

A halfword of an array is a lane of the complex number that it belongs to.
-/

namespace TeraNoC.Kernels

open TeraNoC.Lib TeraNoC.Runtime

/-- `for (i = 0; i < total; i++)` -/
def countLoop (fuel total : Nat) (body : Nat → Prog FftLoc V2s Unit) : Prog FftLoc V2s Unit := do
  let _ ← Prog.forLoop (fun i => i < total) (fun i => u32 (i + 1)) (fun i _ => body i) fuel 0 ()
  pure ()

/-! ## Radix 4 -/

/-- The twiddle factors of the first stage of `mempool_radix4_cfft_q16s_xpulpimg`. -/
def firstTwiddles (i0 : Nat) : Prog FftLoc V2s Twiddles := do
  let CoSi1 ← Prog.get (.coefSrc (u32 (2 * i0)))
  let CoSi2 ← Prog.get (.coefSrc (u32 (u32 (2 * i0) * 2)))
  let CoSi3 ← Prog.get (.coefSrc (u32 (u32 (2 * i0) * 3)))
  pure (shuffleTwiddlefact CoSi1 CoSi2 CoSi3)

section Loops

variable (fftLen fuel : Nat)

/-- The loop of the first stage. -/
def serialFirst (n2 : Nat) : Prog FftLoc V2s Unit :=
  countLoop fuel n2 fun i0 => do
    let w ← firstTwiddles i0
    radix4ButterflyFirst w i0 n2

/-- The loop over `j` of a middle stage. -/
def serialMiddle (n1 n2 twidCoefModifier : Nat) : Prog FftLoc V2s Unit := do
  let _ ← Prog.forLoop (fun j => j ≤ sub32 n2 1) (fun j => u32 (j + 1)) (fun j ic => do
    let w ← radix4Twiddles ic
    let ic := u32 (ic + twidCoefModifier)
    let _ ← Prog.forLoop (fun i0 => i0 < fftLen) (fun i0 => u32 (i0 + n1))
      (fun i0 _ => radix4ButterflyMiddle w i0 n2) fuel j ()
    pure ic) fuel 0 0
  pure ()

/-- The loop of the last stage. -/
def serialLast (n1 : Nat) : Prog FftLoc V2s Unit := do
  let _ ← Prog.forLoop (fun i0 => i0 < fftLen) (fun i0 => u32 (i0 + n1))
    (fun i0 _ => radix4ButterflyLast i0) fuel 0 ()
  pure ()

end Loops

/-- `mempool_radix4_cfft_q16s_xpulpimg` -/
def mempoolRadix4CfftQ16sXpulpimg (fftLen twidCoefModifier fuel : Nat) :
    Prog FftLoc V2s Unit := do
  let n2 := fftLen >>> 2
  serialFirst fuel n2
  let s ← Prog.forLoop (fun k => 4 < k) (fun k => k >>> 2)
    (fun _ (s : Nat × Nat) => do
      serialMiddle fftLen fuel s.1 (s.1 >>> 2) s.2
      pure (s.1 >>> 2, u32 (s.2 <<< 2)))
    fuel (fftLen / 4) (n2, u32 (twidCoefModifier <<< 2))
  serialLast fftLen fuel s.2.1

/-! ## Radix 4 by 2 -/

/-- The body of the first loop, with what becomes of the difference. -/
def by2First (rotate : V2s → V2s → V2s) (n2 i : Nat) : Prog FftLoc V2s Unit := do
  let s1 : V2s := 0x00010001
  let CoSi ← Prog.get (.coefSrc (u32 (i * 2)))
  let l := u32 (i + n2)
  let a ← Prog.get (.src (u32 (2 * i)))
  let b ← Prog.get (.src (u32 (2 * l)))
  let a := sraH a s1
  let b := sraH b s1
  let t := subH a b
  Prog.set (.src (u32 (i * 2))) (sraH (addH a b) s1)
  Prog.set (.src (u32 (l * 2))) (rotate t CoSi)

/-- What `mempool_cfft_radix4by2_q16s_xpulpimg` makes of the difference. -/
def rotateSerial (t CoSi : V2s) : V2s :=
  let testa := sra16 (dotspH t CoSi)
  let testb := sra16 (dotspH t (packH (0 - extractH CoSi 1) (extractH CoSi 0)))
  packH testa testb

/-- What `mempool_radix4by2_cfft_q16p` makes of it. -/
def rotateParallel (t CoSi : V2s) : V2s :=
  let testa := sra16 (dotspH t CoSi)
  let testb := sra16 (dotspH t (packH (extractH CoSi 0) (0 - extractH CoSi 1)))
  packH testb testa

/-- `pv.sll.h` -/
def sllH (x y : V2s) : V2s :=
  lane x 1 <<< ((lane y 1).toNat % 16) ++ lane x 0 <<< ((lane y 0).toNat % 16)

/-- The body of the last loop, by vectors. -/
def doubleVectors (i : Nat) : Prog FftLoc V2s Unit := do
  let s1 : V2s := 0x00010001
  let pa ← Prog.get (.src (u32 (4 * i)))
  let pb ← Prog.get (.src (u32 (u32 (4 * i) + 2)))
  Prog.set (.src (u32 (4 * i))) (sllH pa s1)
  Prog.set (.src (u32 (u32 (4 * i) + 2))) (sllH pb s1)

def getLane (a : FftLoc) (k : Nat) : Prog FftLoc V2s (BitVec 16) := do
  let x ← Prog.get a
  pure (lane x k)

def setLane (a : FftLoc) (k : Nat) (v : BitVec 16) : Prog FftLoc V2s Unit := do
  let x ← Prog.get a
  Prog.set a (if k = 0 then lane x 1 ++ v else v ++ lane x 0)

/-- The body of the last loop, by halfwords. -/
def doubleLanes (i : Nat) : Prog FftLoc V2s Unit := do
  let lower := FftLoc.src (u32 (4 * i))
  let upper := FftLoc.src (u32 (u32 (4 * i) + 2))
  let pa ← getLane lower 0
  let pb ← getLane lower 1
  let pc ← getLane upper 0
  let pd ← getLane upper 1
  setLane lower 0 (pa <<< 1)
  setLane lower 1 (pb <<< 1)
  setLane upper 0 (pc <<< 1)
  setLane upper 1 (pd <<< 1)

/-- The array from halfword `d` on. -/
def FftLoc.advance (d : Nat) : FftLoc → FftLoc
  | .src i => .src (d + i)
  | a => a

/-- `mempool_cfft_radix4by2_q16s_xpulpimg` -/
def mempoolCfftRadix4by2Q16sXpulpimg (fftLen fuel : Nat) : Prog FftLoc V2s Unit := do
  let n2 := fftLen >>> 1
  countLoop fuel n2 (by2First rotateSerial n2)
  mempoolRadix4CfftQ16sXpulpimg n2 2 fuel
  (mempoolRadix4CfftQ16sXpulpimg n2 2 fuel).rename (FftLoc.advance fftLen)
  countLoop fuel (fftLen >>> 1) doubleVectors

/-- `mempool_radix4by2_cfft_q16p` -/
def mempoolRadix4by2CfftQ16p (fftLen nPE coreId fuel : Nat) : Prog FftLoc V2s Unit := do
  let n2 := fftLen >>> 1
  let step := ceilStep n2 nPE
  chunkLoop fuel coreId step n2 (by2First rotateParallel n2)
  Prog.wait
  mempoolRadix4CfftQ16pXpulpimg n2 2 nPE coreId fuel
  (mempoolRadix4CfftQ16pXpulpimg n2 2 nPE coreId fuel).rename (FftLoc.advance fftLen)
  chunkLoop fuel coreId step n2 doubleLanes
  Prog.wait

end TeraNoC.Kernels
