import TeraNoC.Kernels.MatmulSimd

/-!
# Channel estimation (`kernels/baremetal/mempool_chest_q16.h`, with `__MUL`)

What one core writes to `pH`, in order. The arrays are arrays of halfwords; a complex number is
two of them, the imaginary part first.
-/

namespace TeraNoC.Kernels

open TeraNoC.Lib TeraNoC.Runtime

/-- `__CLIP` -/
def clip (x : Int32) (precision : Nat) : Int32 :=
  if x.toInt ≤ -2 ^ precision then BitVec.ofInt 32 (-2 ^ precision)
  else if 2 ^ precision - 1 ≤ x.toInt then BitVec.ofInt 32 (2 ^ precision - 1)
  else x

/-- A received pilot after `SHUFFLE_A`. -/
structure Shuffled where
  ab : V2s
  abN : V2s

/-- `SHUFFLE_A`, for one of the four pilots. `ab_n[1] = ab[0]` takes the halfword that
`pv.shuffle2.h` has put there. -/
def shuffleA (ab : V2s) : Shuffled :=
  let abN := subH 0 ab
  let ab := shuffle2H ab ab 0x00020001
  ⟨ab, lane ab 0 ++ lane abN 0⟩

/-- `MUL_LOOP`, for one of the four columns. -/
def mulLoop (p : Shuffled) (cd : V2s) : V2s :=
  let re := dotspH p.abN cd
  let im := dotspH p.ab cd
  let re := clip (re.sshiftRight 8) 16
  let im := clip (im.sshiftRight 8) 16
  packH im re

/-- The values of a counter that goes up by four from 0 while it is below `n`. -/
def byFour (n : Nat) : List Nat := (List.range (turns 0 n 4)).map (4 * ·)

section Chest

variable (pPilotRX pPilotTX : Nat → BitVec 16) (nRX nTX nSc coreId nPE fuel : Nat)

/-- The body of the loop over `i`, for subcarrier `k`. -/
def chestRows (k i : Nat) : List (Nat × V2s) :=
  let pilotTXItr := u32 (k * (2 * nTX))
  let pilotRXItr := u32 (k * (2 * nRX))
  let hItr := u32 (k * 2 * (nTX * nRX))
  let ab (x : Nat) := shuffleA (loadV2s pPilotRX (pilotRXItr + u32 (2 * (i + x))))
  (byFour nTX).flatMap fun j =>
    let cd (y : Nat) := loadV2s pPilotTX (pilotTXItr + u32 (2 * (j + y)))
    (List.range 4).flatMap fun x => (List.range 4).map fun y =>
      (hItr + u32 (2 * ((i + x) * nTX + j + y)), mulLoop (ab x) (cd y))

/-- The body of the loop over `k`. -/
def chestSubcarrier (k : Nat) : List (Nat × V2s) :=
  (byFour nRX).flatMap (chestRows pPilotRX pPilotTX nRX nTX k)

/-- `mempool_chest_q16s_unrolled4` -/
def mempoolChestQ16sUnrolled4 : List (Nat × V2s) :=
  (List.range nSc).flatMap (chestSubcarrier pPilotRX pPilotTX nRX nTX)

/-- `mempool_chest_q16p_unrolled4` -/
def mempoolChestQ16pUnrolled4 : Option (List (Nat × V2s)) :=
  forLoop (fun k => k < nSc) (fun k => u32 (k + nPE))
    (fun k writes => writes ++ chestSubcarrier pPilotRX pPilotTX nRX nTX k) fuel coreId []

/-- `mempool_chest_q16p_unrolled4_local` -/
def mempoolChestQ16pUnrolled4Local (bankingFactor numCores : Nat) : Option (List (Nat × V2s)) :=
  forLoop (fun itr => itr < u32 (nSc * nRX)) (fun itr => u32 (itr + u32 (bankingFactor * numCores)))
    (fun itr writes => writes ++ chestRows pPilotRX pPilotTX nRX nTX (itr / nRX) (itr % nRX)) fuel
    (u32 (coreId * 4)) []

end Chest

/-! ## What the estimation is for -/

def sat16 (x : Int) : Int := max (-2 ^ 15) (min x (2 ^ 15 - 1))

/-- The pilot of a receiver and of a transmitter. -/
def pilot (p : Nat → BitVec 16) (n sc i : Nat) : V2s := loadV2s p (2 * (sc * n + i))

/-- The parts of a pilot: the imaginary part is the lower half. -/
def partRe (x : V2s) : Int := (lane x 1).toInt
def partIm (x : V2s) : Int := (lane x 0).toInt

/-- The real part of a product, before it is scaled. -/
def chestRe (rx tx : V2s) : Int := partRe rx * partRe tx - partIm rx * partIm tx

/-- The imaginary part of a product, before it is scaled. -/
def chestIm (rx tx : V2s) : Int := partRe rx * partIm tx + partIm rx * partRe tx

/-- An element of `H`. -/
def chestElem (rx tx : V2s) : V2s :=
  BitVec.ofInt 16 (sat16 (chestIm rx tx / 2 ^ 8)) ++ BitVec.ofInt 16 (sat16 (chestRe rx tx / 2 ^ 8))

/-- Some stores write every element of `H` once, with the saturated product. -/
def ChestExact (pPilotRX pPilotTX : Nat → BitVec 16) (nRX nTX nSc : Nat)
    (writes : List (Nat × V2s)) : Prop :=
  writes.Perm ((List.range (nSc * nRX * nTX)).map fun e =>
    (2 * e, chestElem (pilot pPilotRX nRX (e / nTX / nRX) (e / nTX % nRX))
      (pilot pPilotTX nTX (e / nTX / nRX) (e % nTX))))

/-- What a kernel does on all cores. -/
def ChestExactAll (pPilotRX pPilotTX : Nat → BitVec 16) (nRX nTX nSc cores : Nat)
    (kernel : Nat → Nat → Option (List (Nat × V2s))) : Prop :=
  ∃ writes : Nat → List (Nat × V2s), (∀ id < cores, Ends (kernel id) (writes id)) ∧
    ChestExact pPilotRX pPilotTX nRX nTX nSc ((List.range cores).flatMap writes)

end TeraNoC.Kernels
