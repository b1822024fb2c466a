import TeraNoC.Kernels.Mmse
import TeraNoC.Lib.Tiling
import TeraNoC.Proofs.Chest

/-!
# The MMSE front end

The dot products of the assembly do not add to what is there: only the last antenna counts. The
imaginary part has the wrong signs, the halves of the result are swapped, and the product with the
vector never ends if it is to be folded.
-/

namespace TeraNoC.Kernels

open TeraNoC.Lib TeraNoC.Runtime

/-! ## A term -/

section Term

variable {other ab cd : V2s} {s : Int}

/-- What `p.clip` leaves of a sum that is scaled. -/
def scaled (s : Int) : Int := max (-2 ^ 21) (min (s.bmod (2 ^ 32) / 2 ^ 8) (2 ^ 21 - 1))

/-- What `pv.pack` keeps. -/
def packed (v : Int) : Int := v.bmod (2 ^ 16)

/-- A halfword negated. -/
def negatedHalf (v : Int) : Int := (-v).bmod (2 ^ 16)

/-- The sum that is meant to be the imaginary part. -/
def crossed (h g : V2s) : Int :=
  mmseRe h * negatedHalf (mmseIm g) + mmseIm h * negatedHalf (mmseRe g)

theorem pClip_eq (s : Int) :
    pClip ((BitVec.ofInt 32 s).sshiftRight 8) 0x16 = BitVec.ofInt 32 (scaled s) := by
  have hbmod : BitVec.ofInt 32 s = BitVec.ofInt 32 (s.bmod (2 ^ 32)) := by
    refine BitVec.eq_of_toInt_eq ?_
    rw [BitVec.toInt_ofInt, BitVec.toInt_ofInt]
    exact Int.bmod_bmod.symm
  have hlo : -2 ^ 31 ≤ s.bmod (2 ^ 32) := Int.le_bmod (by decide)
  have hhi : s.bmod (2 ^ 32) < 2 ^ 31 := Int.bmod_lt (by decide)
  rw [hbmod, sshiftRight_ofInt hlo hhi, pClip, clip, toInt_ofInt32 (by omega) (by omega), scaled]
  split
  · rw [max_eq_left (by omega)]
  · split
    · rw [min_eq_right (by omega), max_eq_right (by omega)]
    · rw [min_eq_left (by omega), max_eq_right (by omega)]

theorem lane_negate {i : Nat} (hi : i < 2) :
    laneInt (subH 0 cd) i = negatedHalf (laneInt cd i) := by
  have hlane : lane (subH 0 cd) i = -lane cd i := by
    obtain rfl | rfl : i = 0 ∨ i = 1 := by omega
    · rw [subH, lane_append_zero]
      exact BitVec.zero_sub _
    · rw [subH, lane_append_one]
      exact BitVec.zero_sub _
  rw [laneInt, hlane, BitVec.toInt_neg]
  rfl

theorem mmseTerm_eq : (mmseTerm other ab cd).2 =
    (BitVec.ofInt 32 (scaled (conjMulRe ab cd)), BitVec.ofInt 32 (scaled (crossed ab cd))) := by
  have hshuffle : shuffle2H other cd 0x00020003 = lane cd 0 ++ lane cd 1 := rfl
  unfold mmseTerm
  dsimp only
  rw [hshuffle, dotspH_eq, dotspH_eq, pClip_eq, pClip_eq, lane_negate (by decide),
    lane_negate (by decide), laneInt_append_one, laneInt_append_zero]
  exact congrArg₂ (fun v w => (BitVec.ofInt 32 (scaled v), BitVec.ofInt 32 (scaled w)))
    (Int.add_comm _ _) (Int.add_comm _ _)

theorem packH_parts (v w : Int) :
    mmseRe (packH (BitVec.ofInt 32 v) (BitVec.ofInt 32 w)) = packed w ∧
      mmseIm (packH (BitVec.ofInt 32 v) (BitVec.ofInt 32 w)) = packed v := by
  rw [packH_ofInt, mmseRe, mmseIm, lane_append_zero, lane_append_one, BitVec.toInt_ofInt,
    BitVec.toInt_ofInt]
  exact ⟨rfl, rfl⟩

end Term

/-! ## Stores -/

/-- Where all stores to a place have the same value, it is left with it. -/
theorem afterStores_eq {val : Nat → V2s} {writes : List (Nat × V2s)} {e : Nat}
    (hval : ∀ w ∈ writes, w.2 = val w.1) (he : e ∈ writes.map Prod.fst) (array : Nat → V2s) :
    afterStores array writes e = val e := by
  suffices hgen : ∀ array : Nat → V2s,
      afterStores array writes e = if e ∈ writes.map Prod.fst then val e else array e by
    rw [hgen, if_pos he]
  clear he array
  induction writes with
  | nil => exact fun array => rfl
  | cons w writes ih =>
      intro array
      have hrest := ih (fun w hw => hval w (List.mem_cons_of_mem _ hw))
        (Function.update array w.1 w.2)
      refine hrest.trans ?_
      rw [List.map_cons]
      by_cases hmem : e ∈ writes.map Prod.fst
      · rw [if_pos hmem, if_pos (List.mem_cons_of_mem _ hmem)]
      · rw [if_neg hmem]
        by_cases heq : e = w.1
        · rw [heq, Function.update_self, if_pos List.mem_cons_self, hval w List.mem_cons_self]
        · rw [Function.update_of_ne heq, if_neg (List.not_mem_cons_of_ne_of_not_mem heq hmem)]

/-! ## The product of the matrix -/

section Hermitian

variable {pH pS : Nat → V2s} {nRX nTX q i j : Nat}

/-- The entries of the last antenna. -/
def lastEntry (pH : Nat → V2s) (nRX nTX i : Nat) : V2s := pH ((nRX - 1) * nTX + i)

/-- What is stored for an element of `pG`. -/
def gramStored (pH pS : Nat → V2s) (nRX nTX i j : Nat) : V2s :=
  let h := lastEntry pH nRX nTX i
  let g := lastEntry pH nRX nTX j
  if i = j then packH (BitVec.ofInt 32 (scaled (conjMulRe h g)) + pS (2 * i)) 0
  else packH (BitVec.ofInt 32 (scaled (conjMulRe h g))) (BitVec.ofInt 32 (scaled (crossed h g)))

theorem gramStored_parts : mmseRe (gramStored pH pS nRX nTX i j) =
      (if i = j then 0
        else packed (scaled (crossed (lastEntry pH nRX nTX i) (lastEntry pH nRX nTX j)))) ∧
    mmseIm (gramStored pH pS nRX nTX i j) =
      packed (scaled (conjMulRe (lastEntry pH nRX nTX i) (lastEntry pH nRX nTX j)) +
        if i = j then (pS (2 * i)).toInt else 0) := by
  unfold gramStored
  dsimp only
  split
  · have hsum (v : Int) (x : V2s) : BitVec.ofInt 32 v + x = BitVec.ofInt 32 (v + x.toInt) := by
      rw [BitVec.ofInt_add, BitVec.ofInt_toInt]
    rw [hsum]
    exact packH_parts _ 0
  · rw [Int.add_zero]
    exact packH_parts _ _

/-- Every turn of the loop over `k` starts again. -/
theorem hermitianSums_eq (hRX : 0 < nRX) (y : Nat) : hermitianSums pH nRX nTX i j y =
    (BitVec.ofInt 32 (scaled (conjMulRe (pH (u32 ((nRX - 1) * nTX + i)))
        (pH (u32 ((nRX - 1) * nTX + j + y))))),
      BitVec.ofInt 32 (scaled (crossed (pH (u32 ((nRX - 1) * nTX + i)))
        (pH (u32 ((nRX - 1) * nTX + j + y)))))) := by
  obtain ⟨n, rfl⟩ : ∃ n, nRX = n + 1 := ⟨nRX - 1, by omega⟩
  rw [hermitianSums, List.range_succ, List.foldl_append]
  exact mmseTerm_eq

variable (hRX : 0 < nRX) (hfitH : nRX * (q * 4) * 4 ≤ 2 ^ 32)
  (hfitG : q * 4 * (q * 4) * 4 ≤ 2 ^ 32)

include hRX hfitH hfitG

theorem hermitianTile_eq {t : Nat} (hi : i < q * 4) (ht : t < q) :
    hermitianTile pH pS nRX (q * 4) i (t * 4) = (List.range 4).map fun y =>
      (i * (q * 4) + (t * 4 + y), gramStored pH pS nRX (q * 4) i (t * 4 + y)) := by
  unfold hermitianTile
  refine List.map_congr_left fun y hy => ?_
  have hj := tile_column_lt ht (List.mem_range.mp hy)
  have hsq := Nat.le_mul_self (q * 4)
  have hplace := tile_column_lt hi hj
  have hrow {c : Nat} (hc : c < q * 4) :
      u32 ((nRX - 1) * (q * 4) + c) = (nRX - 1) * (q * 4) + c := by
    have := tile_column_lt (show nRX - 1 < nRX by omega) hc
    exact u32_eq (by omega)
  refine Prod.ext ?_ ?_
  · dsimp only
    rw [Nat.add_assoc, u32_eq (by omega)]
  · dsimp only
    rw [hermitianSums_eq hRX, addNoise, Nat.add_assoc _ (t * 4) y, hrow hi, hrow hj,
      u32_eq (show t * 4 + y < 2 ^ 32 by omega), u32_eq (show 2 * i < 2 ^ 32 by omega), gramStored]
    split
    · rfl
    · rfl

/-- What is stored in a row of `pG`. -/
def gramRow (pH pS : Nat → V2s) (nRX q i : Nat) : List (Nat × V2s) :=
  (List.range q).flatMap fun t => (List.range 4).map fun y =>
    (i * (q * 4) + (t * 4 + y), gramStored pH pS nRX (q * 4) i (t * 4 + y))

theorem hermitianRow_eq {fuel : Nat} (hi : i < q * 4) (hfuel : q ≤ fuel) :
    hermitianRow pH pS nRX (q * 4) fuel i = some (gramRow pH pS nRX q i) := by
  obtain ⟨n, rfl⟩ : ∃ n, q = n + 1 := ⟨q - 1, by omega⟩
  have hsq := Nat.le_mul_self ((n + 1) * 4)
  unfold hermitianRow
  refine (forLoop_add (n := n) (fun k hk => ?_) (by omega) (by omega) (by omega)).trans
    (congrArg some ?_)
  · omega
  have happ := foldl_appends (fun writes => writes)
    (fun t => hermitianTile pH pS nRX ((n + 1) * 4) i (4 + t * 4)) (fun _ _ => rfl) (List.range n)
    (hermitianTile pH pS nRX ((n + 1) * 4) i 0)
  refine happ.trans ?_
  rw [gramRow, @List.range_succ_eq_map n, List.flatMap_cons, List.flatMap_map]
  refine congrArg₂ _ ?_ (List.flatMap_congr fun t ht => ?_)
  · exact hermitianTile_eq (t := 0) hRX hfitH hfitG hi (by omega)
  · have ht := List.mem_range.mp ht
    rw [show 4 + t * 4 = (t + 1) * 4 by omega]
    exact hermitianTile_eq hRX hfitH hfitG hi (by omega)

theorem hermitian_ends : Ends (mempoolHermitianQ16vecs pH pS nRX (q * 4))
    ((List.range (q * 4)).flatMap (gramRow pH pS nRX q)) := by
  refine ⟨q, fun fuel hfuel => ?_⟩
  have hrows : mempoolHermitianQ16vecs pH pS nRX (q * 4) fuel =
      some ((List.range (q * 4)).foldl (fun writes i => writes ++ gramRow pH pS nRX q i) []) :=
    foldl_bind (List.range (q * 4)) [] fun i hi writes => by
      rw [hermitianRow_eq hRX hfitH hfitG (List.mem_range.mp hi) hfuel]
      rfl
  refine hrows.trans (congrArg some ?_)
  exact foldl_appends (fun writes => writes) (gramRow pH pS nRX q) (fun _ _ => rfl)
    (List.range (q * 4)) []

omit hRX hfitH hfitG in
/-- The elements of `pG` after the stores. -/
theorem gram_left (hi : i < q * 4) (hj : j < q * 4) (pG : Nat → V2s) :
    afterStores pG ((List.range (q * 4)).flatMap (gramRow pH pS nRX q)) (i * (q * 4) + j) =
      gramStored pH pS nRX (q * 4) i j := by
  have hleft := @afterStores_eq (fun e => gramStored pH pS nRX (q * 4) (e / (q * 4)) (e % (q * 4)))
    ((List.range (q * 4)).flatMap (gramRow pH pS nRX q)) (i * (q * 4) + j) (fun w hw => ?_) ?_ pG
  · rwa [(cell_div_mod hj).1, (cell_div_mod hj).2] at hleft
  · obtain ⟨i, hi, hw⟩ := List.mem_flatMap.mp hw
    obtain ⟨t, ht, hw⟩ := List.mem_flatMap.mp hw
    obtain ⟨y, hy, rfl⟩ := List.mem_map.mp hw
    have hcol := tile_column_lt (List.mem_range.mp ht) (List.mem_range.mp hy)
    dsimp only
    rw [(cell_div_mod hcol).1, (cell_div_mod hcol).2]
  · refine List.mem_map.mpr ⟨(i * (q * 4) + j, gramStored pH pS nRX (q * 4) i j), ?_, rfl⟩
    refine List.mem_flatMap.mpr ⟨i, List.mem_range.mpr hi, List.mem_flatMap.mpr
      ⟨j / 4, List.mem_range.mpr (by omega), List.mem_map.mpr
        ⟨j % 4, List.mem_range.mpr (by omega), ?_⟩⟩⟩
    rw [Nat.div_add_mod']

end Hermitian

/-! ## The product with the vector -/

section Mvp

variable {pH px : Nat → V2s} {nRX q folded : Nat}

/-- What is stored for an element of `py`. -/
def mvpStored (pH px : Nat → V2s) (nRX nTX i : Nat) : V2s :=
  let h := lastEntry pH nRX nTX i
  let x := px (nRX - 1)
  packH (BitVec.ofInt 32 (scaled (conjMulRe h x))) (BitVec.ofInt 32 (scaled (crossed h x)))

/-- Every turn of the loop over `j` starts again, whatever is left in `ndc`. -/
theorem mvpSums_eq {nTX i : Nat} {ndc : V2s} (hRX : 0 < nRX) (y : Nat) :
    (mvpSums pH px nRX nTX i ndc).2 y =
      (BitVec.ofInt 32 (scaled (conjMulRe (pH (u32 ((nRX - 1) * nTX + i + y))) (px (nRX - 1)))),
        BitVec.ofInt 32 (scaled (crossed (pH (u32 ((nRX - 1) * nTX + i + y)))
          (px (nRX - 1))))) := by
  obtain ⟨n, rfl⟩ : ∃ n, nRX = n + 1 := ⟨nRX - 1, by omega⟩
  rw [mvpSums, List.range_succ, List.foldl_append]
  exact mmseTerm_eq

/-- The stores of the first `k` turns of the loop over `i`. -/
def mvpStores (pH px : Nat → V2s) (nRX q k : Nat) : List (Nat × V2s) :=
  (List.range k).flatMap fun t => (List.range 4).map fun y =>
    (t * 4 + y, mvpStored pH px nRX (q * 4) (t * 4 + y))

/-- The states of the loop over `i`. -/
def mvpStates (pH px : Nat → V2s) (nRX nTX folded k : Nat) : MvpState :=
  (mvpTurn pH px nRX nTX folded)^[k] ⟨0, 0, []⟩

theorem mvpStates_succ (k : Nat) : mvpStates pH px nRX (q * 4) folded (k + 1) =
    mvpTurn pH px nRX (q * 4) folded (mvpStates pH px nRX (q * 4) folded k) :=
  Function.iterate_succ_apply' ..

theorem mvpStates_eq (hRX : 0 < nRX) (hfitH : nRX * (q * 4) * 4 ≤ 2 ^ 32) {k : Nat} (hk : k ≤ q) :
    (mvpStates pH px nRX (q * 4) 0 k).i = k * 4 ∧
      (mvpStates pH px nRX (q * 4) 0 k).writes = mvpStores pH px nRX q k := by
  induction k with
  | zero => exact ⟨rfl, rfl⟩
  | succ k ih =>
      obtain ⟨hi, hwrites⟩ := ih (by omega)
      have hle := Nat.le_mul_of_pos_left (q * 4) hRX
      rw [mvpStates_succ, mvpTurn, if_pos rfl, hi, hwrites]
      refine ⟨?_, ?_⟩
      · dsimp only
        rw [u32_eq (by omega)]
        omega
      · dsimp only
        rw [mvpStores, mvpStores, @List.range_succ k, List.flatMap_append, List.flatMap_singleton]
        refine congrArg _ (List.map_congr_left fun y hy => ?_)
        have hcol := tile_column_lt (show k < q by omega) (List.mem_range.mp hy)
        have helem := tile_column_lt (show nRX - 1 < nRX by omega) hcol
        rw [mvpSums_eq hRX, Nat.add_assoc _ (k * 4) y, u32_eq (by omega), u32_eq (by omega)]
        rfl

/-- An array that is not to be folded. -/
theorem mvp_ends (hRX : 0 < nRX) (hfitH : nRX * (q * 4) * 4 ≤ 2 ^ 32) (hq : 0 < q) :
    Ends (mempoolMvpConjtranspQ16vecs pH px nRX (q * 4) 0) (mvpStores pH px nRX q q) := by
  have hstate {k : Nat} (hk : k ≤ q) := @mvpStates_eq pH px nRX q hRX hfitH k hk
  refine ⟨q, fun fuel hfuel => ?_⟩
  have hloop : whileLoop (fun s : MvpState => s.i < q * 4) (mvpTurn pH px nRX (q * 4) 0) fuel
      (mvpStates pH px nRX (q * 4) 0 (0 + 1)) = some (mvpStates pH px nRX (q * 4) 0 (q - 1 + 1)) :=
    whileLoop_through (fun k => mvpStates pH px nRX (q * 4) 0 (k + 1))
      (fun k hk => decide_eq_true (by rw [(hstate (by omega)).1]; omega))
      (decide_eq_false (by rw [(hstate (by omega)).1]; omega))
      (fun k hk => (mvpStates_succ (k + 1)).symm) (by omega)
  rw [Nat.sub_add_cancel hq] at hloop
  unfold mempoolMvpConjtranspQ16vecs
  refine (congrArg (Option.map MvpState.writes) hloop).trans ?_
  rw [Option.map_some, (hstate (Nat.le_refl q)).2]

/-- The counter stays where it is. -/
theorem mvp_diverges (hfolded : folded ≠ 0) (hq : 0 < q) (fuel : Nat) :
    mempoolMvpConjtranspQ16vecs pH px nRX (q * 4) folded fuel = none := by
  have hkeep (s : MvpState) : (mvpTurn pH px nRX (q * 4) folded s).i = s.i := by
    rw [mvpTurn, if_neg hfolded]
  unfold mempoolMvpConjtranspQ16vecs
  rw [whileLoop_diverges (fun s : MvpState => s.i = 0) (fun s hs => ?_) (hkeep _)]
  · rfl
  · exact ⟨decide_eq_true (by omega), (hkeep s).trans hs⟩

/-- The elements of `py` after the stores. -/
theorem mvp_left {i : Nat} (hi : i < q * 4) (py : Nat → V2s) :
    afterStores py (mvpStores pH px nRX q q) i = mvpStored pH px nRX (q * 4) i := by
  refine afterStores_eq (fun w hw => ?_) ?_ py
  · obtain ⟨t, ht, hw⟩ := List.mem_flatMap.mp hw
    obtain ⟨y, hy, rfl⟩ := List.mem_map.mp hw
    rfl
  · refine List.mem_map.mpr ⟨(i, mvpStored pH px nRX (q * 4) i), ?_, rfl⟩
    refine List.mem_flatMap.mpr ⟨i / 4, List.mem_range.mpr (by omega), List.mem_map.mpr
      ⟨i % 4, List.mem_range.mpr (by omega), ?_⟩⟩
    rw [Nat.div_add_mod']

end Mvp

/-! ## When the front end comes out right -/

section FrontEnd

variable {pH pS px : Nat → V2s} {nRX q folded : Nat}

/-- When `pG` comes out right: of the last antenna alone, the product with the wrong signs has to
be near the real part, and the other one near the imaginary part. -/
def GramHolds (pH pS : Nat → V2s) (nRX nTX : Nat) : Prop :=
  ∀ i < nTX, ∀ j < nTX,
    let h := lastEntry pH nRX nTX i
    let g := lastEntry pH nRX nTX j
    Near nRX (if i = j then 0 else packed (scaled (crossed h g)))
      (∑ k ∈ Finset.range nRX, conjMulRe (pH (k * nTX + i)) (pH (k * nTX + j)) +
        2 ^ 8 * noise pS i j) ∧
    Near nRX (packed (scaled (conjMulRe h g) + if i = j then (pS (2 * i)).toInt else 0))
      (∑ k ∈ Finset.range nRX, conjMulIm (pH (k * nTX + i)) (pH (k * nTX + j)))

/-- When `py` comes out right. -/
def MvpHolds (pH px : Nat → V2s) (nRX nTX folded : Nat) : Prop :=
  (folded = 0 ∨ nTX = 0) ∧ ∀ i < nTX,
    let h := lastEntry pH nRX nTX i
    let x := px (nRX - 1)
    Near nRX (packed (scaled (crossed h x)))
      (∑ j ∈ Finset.range nRX, conjMulRe (pH (j * nTX + i)) (px j)) ∧
    Near nRX (packed (scaled (conjMulRe h x)))
      (∑ j ∈ Finset.range nRX, conjMulIm (pH (j * nTX + i)) (px j))

theorem hermitian_iff (hRX : 0 < nRX) (hfitH : nRX * (q * 4) * 4 ≤ 2 ^ 32)
    (hfitG : q * 4 * (q * 4) * 4 ≤ 2 ^ 32) :
    HermitianRight pH pS nRX (q * 4) ↔ GramHolds pH pS nRX (q * 4) := by
  have hends : Ends (mempoolHermitianQ16vecs pH pS nRX (q * 4)) _ := hermitian_ends hRX hfitH hfitG
  constructor
  · intro h i hi j hj
    obtain ⟨writes, hw, hright⟩ := h fun _ => 0
    have hnear := hright i hi j hj
    rw [hw.unique hends, gram_left hi hj, WithinUnits, gramStored_parts.1, gramStored_parts.2]
      at hnear
    exact hnear
  · intro h pG
    refine ⟨_, hends, fun i hi j hj => ?_⟩
    rw [gram_left hi hj, WithinUnits, gramStored_parts.1, gramStored_parts.2]
    exact h i hi j hj

theorem mvp_iff (hRX : 0 < nRX) (hfitH : nRX * (q * 4) * 4 ≤ 2 ^ 32) :
    MvpRight pH px nRX (q * 4) folded ↔ MvpHolds pH px nRX (q * 4) folded := by
  rcases Nat.eq_zero_or_pos q with rfl | hq
  · refine iff_of_true (fun py => ⟨(mvpTurn pH px nRX 0 folded ⟨0, 0, []⟩).writes,
      ⟨0, fun fuel _ => ?_⟩, fun i hi => by omega⟩)
      ⟨Or.inr rfl, fun i hi => by omega⟩
    · have hdone : whileLoop (fun s : MvpState => s.i < 0 * 4) (mvpTurn pH px nRX (0 * 4) folded)
          fuel (mvpTurn pH px nRX (0 * 4) folded ⟨0, 0, []⟩) = some _ :=
        whileLoop_done (decide_eq_false (Nat.not_lt_zero _))
      exact congrArg (Option.map MvpState.writes) hdone
  · by_cases hfolded : folded = 0
    · subst hfolded
      have hends : Ends (mempoolMvpConjtranspQ16vecs pH px nRX (q * 4) 0) _ :=
        mvp_ends hRX hfitH hq
      constructor
      · intro h
        refine ⟨Or.inl rfl, fun i hi => ?_⟩
        obtain ⟨writes, hw, hright⟩ := h fun _ => 0
        have hnear := hright i hi
        rw [hw.unique hends, mvp_left hi, WithinUnits, mvpStored, (packH_parts _ _).1,
          (packH_parts _ _).2] at hnear
        exact hnear
      · rintro ⟨-, h⟩ py
        refine ⟨_, hends, fun i hi => ?_⟩
        rw [mvp_left hi, WithinUnits, mvpStored, (packH_parts _ _).1, (packH_parts _ _).2]
        exact h i hi
    · refine iff_of_false (fun h => ?_) fun h => h.1.elim hfolded (by omega)
      obtain ⟨writes, ⟨bound, hw⟩, -⟩ := h fun _ => 0
      have hnone := hw bound (Nat.le_refl bound)
      rw [mvp_diverges hfolded hq] at hnone
      cases hnone

end FrontEnd

/-- The front end is right if and only if the products of the last antenna, which alone count, are
near the exact sums in spite of the wrong signs and the swapped halves, and nothing is folded. -/
theorem mmse_front_end_iff {pH pS px : Nat → V2s} {nRX nTX folded : Nat} (hRX : 1 ≤ nRX)
    (hTX : 4 ∣ nTX) (hfitH : nRX * nTX * 4 ≤ 2 ^ 32) (hfitG : nTX * nTX * 4 ≤ 2 ^ 32) :
    HermitianRight pH pS nRX nTX ∧ MvpRight pH px nRX nTX folded ↔
      GramHolds pH pS nRX nTX ∧ MvpHolds pH px nRX nTX folded := by
  obtain ⟨q, rfl⟩ := hTX
  rw [Nat.mul_comm 4 q] at *
  rw [hermitian_iff hRX hfitH hfitG, mvp_iff hRX hfitH]

/-- One antenna, which hears one transmitter, at `i`. The noise cancels its power, and the product
with `1 - i` is `-1 - i`. -/
theorem mmse_front_end_cancelled :
    let pH : Nat → V2s := fun e => if e = 0 then 0x01000000 else 0
    let pS : Nat → V2s := fun e => if e = 0 then -256 else 0
    HermitianRight pH pS 1 4 ∧ MvpRight pH (fun _ => 0xff000100) 1 4 0 :=
  (mmse_front_end_iff (by decide) (by decide) (by decide) (by decide)).mpr
    ⟨by unfold GramHolds Near; decide +kernel, by unfold MvpHolds Near; decide +kernel⟩

/-- Two antennas with all entries one: every element of the product is two. -/
theorem mmse_front_end_ones :
    ¬(HermitianRight (fun _ => 256) (fun _ => 0) 2 4 ∧
      MvpRight (fun _ => 256) (fun _ => 256) 2 4 0) := by
  rintro ⟨hright, -⟩
  have hholds : GramHolds (fun _ => 256) (fun _ => 0) 2 4 :=
    (@hermitian_iff (fun _ => 256) (fun _ => 0) 2 1 (by decide) (by decide) (by decide)).mp hright
  have hnear := (hholds 0 (by decide) 1 (by decide)).1
  unfold Near at hnear
  exact absurd hnear (by decide +kernel)

end TeraNoC.Kernels
