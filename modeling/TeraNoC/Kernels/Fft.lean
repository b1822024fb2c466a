import TeraNoC.Lib.Team
import TeraNoC.Runtime.Word

/-!
# Fast Fourier transforms (`kernels/baremetal/mempool_radix4_cfft_q16p.h`,
`mempool_radix4_cfft_butterfly_q16.h` and `mempool_radix2_cfft_q16.h`)

The programs of one core. A complex number is a vector of two halfwords; the indices of its
arrays are those of the halfwords.
-/

namespace TeraNoC.Kernels

open TeraNoC.Lib TeraNoC.Runtime

/-! ## Vectors of two halfwords -/

abbrev V2s := BitVec 32

section Vectors

def lane (x : V2s) (i : Nat) : BitVec 16 := x.extractLsb' (16 * i) 16

/-- `pv.add.h` -/
def addH (x y : V2s) : V2s := (lane x 1 + lane y 1) ++ (lane x 0 + lane y 0)

/-- `pv.sub.h` -/
def subH (x y : V2s) : V2s := (lane x 1 - lane y 1) ++ (lane x 0 - lane y 0)

/-- `pv.sra.h` -/
def sraH (x y : V2s) : V2s :=
  (lane x 1).sshiftRight ((lane y 1).toNat % 16) ++ (lane x 0).sshiftRight ((lane y 0).toNat % 16)

/-- `pv.extract.h` -/
def extractH (x : V2s) (i : Nat) : BitVec 32 := (lane x i).signExtend 32

/-- `pv.pack` -/
def packH (x y : BitVec 32) : V2s := lane x 0 ++ lane y 0

/-- `pv.dotsp.h` -/
def dotspH (x y : V2s) : BitVec 32 :=
  extractH x 1 * extractH y 1 + extractH x 0 * extractH y 0

/-- `srai` by 16. -/
def sra16 (x : BitVec 32) : BitVec 32 := x.sshiftRight 16

end Vectors

/-! ## Butterflies -/

/-- The twiddle factors of a butterfly, as they are loaded and as `SHUFFLE_TWIDDLEFACT` packs
them. -/
structure Twiddles where
  CoSi1 : V2s
  CoSi2 : V2s
  CoSi3 : V2s
  C1 : V2s
  C2 : V2s
  C3 : V2s

/-- `SHUFFLE_TWIDDLEFACT` -/
def shuffleTwiddlefact (CoSi1 CoSi2 CoSi3 : V2s) : Twiddles :=
  let t1 := extractH CoSi1 0
  let t3 := extractH CoSi2 0
  let t5 := extractH CoSi3 0
  let t0 := 0 - extractH CoSi1 1
  let t2 := 0 - extractH CoSi2 1
  let t4 := 0 - extractH CoSi3 1
  ⟨CoSi1, CoSi2, CoSi3, packH t1 t0, packH t3 t2, packH t5 t4⟩

/-- The values that `radix4_butterfly_first` stores. -/
def butterflyFirst (w : Twiddles) (A B C D : V2s) : V2s × V2s × V2s × V2s :=
  let s1 : V2s := 0x00010001
  let s2 : V2s := 0x00020002
  let B := sraH B s2
  let D := sraH D s2
  let A := sraH A s2
  let C := sraH C s2
  let G := addH B D
  let H := subH B D
  let E := addH A C
  let F := subH A C
  let t0 := extractH H 0
  let t1 := extractH H 1
  let A := sraH E s1
  let B := sraH G s1
  let t3 := 0 - t1
  let t4 := 0 - t0
  let C := packH t0 t3
  let D := packH t4 t1
  let E := subH E G
  let G := addH F C
  let H := addH F D
  let C := dotspH w.CoSi2 E
  let D := dotspH w.C2 E
  let E := dotspH w.CoSi1 H
  let F := dotspH w.C1 H
  let t0 := sra16 C
  let t1 := sra16 D
  let C := dotspH w.CoSi3 G
  let D := dotspH w.C3 G
  let t2 := sra16 E
  let t3 := sra16 F
  let t4 := sra16 C
  let t5 := sra16 D
  let A := addH A B
  (A, packH t1 t0, packH t3 t2, packH t5 t4)

/-- The values that `radix4_butterfly_middle` stores. -/
def butterflyMiddle (w : Twiddles) (A B C D : V2s) : V2s × V2s × V2s × V2s :=
  let s1 : V2s := 0x00010001
  let G := addH B D
  let H := subH B D
  let E := addH A C
  let F := subH A C
  let G := sraH G s1
  let H := sraH H s1
  let E := sraH E s1
  let F := sraH F s1
  let t0 := extractH H 0
  let t1 := extractH H 1
  let C := subH E G
  let D := addH E G
  let t4 := 0 - t1
  let t3 := 0 - t0
  let A := packH t0 t4
  let B := packH t3 t1
  let D := sraH D s1
  let E := addH F A
  let F := addH F B
  let G := dotspH w.CoSi2 C
  let H := dotspH w.C2 C
  let A := dotspH w.CoSi1 F
  let B := dotspH w.C1 F
  let t0 := sra16 G
  let t1 := sra16 H
  let G := dotspH w.CoSi3 E
  let H := dotspH w.C3 E
  let t2 := sra16 A
  let t3 := sra16 B
  let t4 := sra16 G
  let t5 := sra16 H
  (D, packH t1 t0, packH t3 t2, packH t5 t4)

/-- The values that `radix4_butterfly_last` stores. -/
def butterflyLast (A B C D : V2s) : V2s × V2s × V2s × V2s :=
  let s1 : V2s := 0x00010001
  let H := subH B D
  let G := addH B D
  let E := addH A C
  let F := subH A C
  let H := sraH H s1
  let G := sraH G s1
  let E := sraH E s1
  let t0 := extractH H 0
  let t1 := extractH H 1
  let F := sraH F s1
  let t2 := 0 - t0
  let t3 := 0 - t1
  let A := packH t2 t1
  let B := packH t0 t3
  (addH E G, subH E G, addH F A, addH F B)

/-- The arrays of a transform, by halfword. -/
inductive FftLoc where
  | src (i : Nat)
  | dst (i : Nat)
  | coefSrc (i : Nat)
  | coefDst (i : Nat)
  deriving DecidableEq

/-- The loads and the stores of a radix-4 butterfly, with the indices of the complex numbers. -/
def radix4Butterfly (f : V2s → V2s → V2s → V2s → V2s × V2s × V2s × V2s) (pIn pOut : Nat → FftLoc)
    (i0 i1 i2 i3 i0Store i1Store i2Store i3Store : Nat) : Prog FftLoc V2s Unit := do
  let B ← Prog.get (pIn (u32 (i1 * 2)))
  let D ← Prog.get (pIn (u32 (i3 * 2)))
  let A ← Prog.get (pIn (u32 (i0 * 2)))
  let C ← Prog.get (pIn (u32 (i2 * 2)))
  let s := f A B C D
  Prog.set (pOut (u32 (i0Store * 2))) s.1
  Prog.set (pOut (u32 (i1Store * 2))) s.2.1
  Prog.set (pOut (u32 (i2Store * 2))) s.2.2.1
  Prog.set (pOut (u32 (i3Store * 2))) s.2.2.2

/-- A butterfly in place. -/
def radix4InPlace (f : V2s → V2s → V2s → V2s → V2s × V2s × V2s × V2s) (i0 n2 : Nat) :
    Prog FftLoc V2s Unit :=
  let i1 := u32 (i0 + n2)
  let i2 := u32 (i1 + n2)
  let i3 := u32 (i2 + n2)
  radix4Butterfly f .src .src i0 i1 i2 i3 i0 i1 i2 i3

/-- `radix4_butterfly_first` -/
def radix4ButterflyFirst (w : Twiddles) (i0 n2 : Nat) : Prog FftLoc V2s Unit :=
  radix4InPlace (butterflyFirst w) i0 n2

/-- `radix4_butterfly_middle` -/
def radix4ButterflyMiddle (w : Twiddles) (i0 n2 : Nat) : Prog FftLoc V2s Unit :=
  radix4InPlace (butterflyMiddle w) i0 n2

/-- `radix4_butterfly_last` -/
def radix4ButterflyLast (i0 : Nat) : Prog FftLoc V2s Unit := radix4InPlace butterflyLast i0 1

/-- The twiddle factors with index `ic`. -/
def radix4Twiddles (ic : Nat) : Prog FftLoc V2s Twiddles := do
  let CoSi1 ← Prog.get (.coefSrc (u32 (ic * 2)))
  let CoSi2 ← Prog.get (.coefSrc (u32 (2 * u32 (ic * 2))))
  let CoSi3 ← Prog.get (.coefSrc (u32 (3 * u32 (ic * 2))))
  pure (shuffleTwiddlefact CoSi1 CoSi2 CoSi3)

/-- The body of the loops of `mempool_radix2_butterfly_q16p`; the first one scales its input. -/
def radix2Butterfly (scale : Bool) (coeff : V2s) (i n2 : Nat) : Prog FftLoc V2s Unit := do
  let s1 : V2s := 0x00010001
  let l := u32 (i + n2)
  let T ← Prog.get (.src (u32 (i * 2)))
  let S ← Prog.get (.src (u32 (l * 2)))
  let T := if scale then sraH T s1 else T
  let S := if scale then sraH S s1 else S
  let R := subH T S
  Prog.set (.src (u32 (i * 2))) (sraH (addH T S) s1)
  let out1 := sra16 (dotspH R coeff)
  let out2 := sra16 (dotspH R (packH (extractH coeff 0) (0 - extractH coeff 1)))
  Prog.set (.src (u32 (l * 2))) (packH out2 out1)

/-- The body of its last loop. -/
def radix2ButterflyLast (i n2 : Nat) : Prog FftLoc V2s Unit := do
  let l := u32 (i + n2)
  let T ← Prog.get (.src (u32 (i * 2)))
  let S ← Prog.get (.src (u32 (l * 2)))
  Prog.set (.src (u32 (i * 2))) (addH T S)
  Prog.set (.src (u32 (l * 2))) (subH T S)

/-! ## The schedules

The two kernels differ in the radix, which is `2 ^ log`, and in their butterflies. -/

section Schedule

variable {W : Type} (twiddles : Nat → Prog FftLoc V2s W)
  (butterfly : W → Nat → Nat → Prog FftLoc V2s Unit)
  (butterflyLast : Nat → Nat → Prog FftLoc V2s Unit) (fftLen nPE coreId fuel : Nat)

/-- `(total + nPE - 1) / nPE` -/
def ceilStep (total nPE : Nat) : Nat := sub32 (u32 (total + nPE)) 1 / nPE

/-- `for (i = id * step; i < MIN(id * step + step, total); i++)` -/
def chunkLoop (id step total : Nat) (body : Nat → Prog FftLoc V2s Unit) :
    Prog FftLoc V2s Unit := do
  let _ ← Prog.forLoop (fun i => i < min (u32 (u32 (id * step) + step)) total)
    (fun i => u32 (i + 1)) (fun i _ => body i) fuel (u32 (id * step)) ()
  pure ()

/-- The first stage. -/
def firstStage (n2 twidCoefModifier : Nat) : Prog FftLoc V2s Unit :=
  chunkLoop fuel coreId (ceilStep n2 nPE) n2 fun i0 => do
    let w ← twiddles (u32 (i0 * twidCoefModifier))
    butterfly w i0 n2

/-- A middle stage, with `n1` and `n2` of the stage. -/
def middleStage (n1 n2 twidCoefModifier : Nat) : Prog FftLoc V2s Unit :=
  let buttId := coreId % n2
  let offset := u32 (coreId / n2 * n1)
  chunkLoop fuel buttId (ceilStep n2 nPE) n2 fun j => do
    let w ← twiddles (u32 (twidCoefModifier * j))
    let _ ← Prog.forLoop (fun i0 => i0 < fftLen)
      (fun i0 => u32 (i0 + u32 (sub32 (u32 (nPE + n2)) 1 / n2 * n1)))
      (fun i0 _ => butterfly w i0 n2) fuel (u32 (offset + j)) ()
    pure ()

/-- The last stage. -/
def lastStage (n1 n2 : Nat) : Prog FftLoc V2s Unit := do
  let steps := fftLen / n1
  let step := ceilStep steps nPE
  let _ ← Prog.forLoop
    (fun i0 => i0 < min (u32 (u32 (u32 (coreId * step) + step) * n1)) fftLen)
    (fun i0 => u32 (i0 + n1)) (fun i0 _ => butterflyLast i0 n2) fuel
    (u32 (u32 (coreId * step) * n1)) ()
  pure ()

end Schedule

/-- The stages of a kernel, with its butterflies. -/
def cfft {W : Type} (log : Nat) (twiddles : Nat → Prog FftLoc V2s W)
    (first middle : W → Nat → Nat → Prog FftLoc V2s Unit)
    (last : Nat → Nat → Prog FftLoc V2s Unit)
    (fftLen twidCoefModifier nPE coreId fuel : Nat) : Prog FftLoc V2s Unit := do
  let n2 := fftLen >>> log
  firstStage twiddles first nPE coreId fuel n2 twidCoefModifier
  Prog.wait
  let s ← Prog.forLoop (fun k => 2 ^ log < k) (fun k => k >>> log)
    (fun _ (s : Nat × Nat) => do
      middleStage twiddles middle fftLen nPE coreId fuel s.1 (s.1 >>> log) s.2
      Prog.wait
      pure (s.1 >>> log, u32 (s.2 <<< log)))
    fuel (fftLen / 2 ^ log) (n2, u32 (twidCoefModifier <<< log))
  lastStage last fftLen nPE coreId fuel s.2.1 (s.2.1 >>> log)
  Prog.wait

/-- `mempool_radix4_cfft_q16p_xpulpimg` -/
def mempoolRadix4CfftQ16pXpulpimg (fftLen twidCoefModifier nPE absoluteCoreId fuel : Nat) :
    Prog FftLoc V2s Unit :=
  cfft 2 radix4Twiddles radix4ButterflyFirst radix4ButterflyMiddle
    (fun i0 _ => radix4ButterflyLast i0) fftLen twidCoefModifier nPE (absoluteCoreId % nPE) fuel

/-- `mempool_radix2_butterfly_q16p` -/
def mempoolRadix2ButterflyQ16p (fftLen nPE coreId fuel : Nat) : Prog FftLoc V2s Unit :=
  cfft 1 (fun ia => Prog.get (.coefSrc (u32 (ia * 2)))) (radix2Butterfly true)
    (radix2Butterfly false) radix2ButterflyLast fftLen 1 nPE coreId fuel

end TeraNoC.Kernels
