import TeraNoC.Kernels.Chest
import TeraNoC.Lib.Tiling
import TeraNoC.Proofs.CmatmulGolden

/-!
# Channel estimation

The kernels cut `H` into tiles of four by four and write each of its elements once. The product is
clipped to seventeen bits and packed into sixteen, so it is right if it needs no saturation; and
the imaginary part of a received pilot cannot be negated if it is the least one.
-/

namespace TeraNoC.Kernels

open TeraNoC.Lib TeraNoC.Runtime

/-! ## An element -/

section Element

variable {rx tx : V2s}

/-- The value that `__CLIP` with 16 leaves. -/
def clipInt (v : Int) : Int := max (-2 ^ 16) (min v (2 ^ 16 - 1))

theorem clip_ofInt {v : Int} (hlo : -2 ^ 31 ≤ v) (hhi : v < 2 ^ 31) :
    clip (BitVec.ofInt 32 v) 16 = BitVec.ofInt 32 (clipInt v) := by
  rw [clip, toInt_ofInt32 hlo hhi]
  split
  · rw [clipInt, max_eq_left (by omega)]
  · split
    · rw [clipInt, min_eq_right (by omega), max_eq_right (by omega)]
    · rw [clipInt, min_eq_left (by omega), max_eq_right (by omega)]

theorem ofInt16_eq_iff {v w : Int} :
    BitVec.ofInt 16 v = BitVec.ofInt 16 w ↔ v % 2 ^ 16 = w % 2 ^ 16 := by
  rw [← BitVec.toNat_inj, BitVec.toNat_ofInt, BitVec.toNat_ofInt]
  omega

theorem append_eq_iff {a b c d : BitVec 16} : a ++ b = c ++ d ↔ a = c ∧ b = d := by
  refine ⟨fun h => ⟨?_, ?_⟩, fun h => by rw [h.1, h.2]⟩
  · rw [← lane_append_one (a := a) (b := b), h, lane_append_one]
  · rw [← lane_append_zero (a := a) (b := b), h, lane_append_zero]

theorem partRe_range : -2 ^ 15 ≤ partRe rx ∧ partRe rx < 2 ^ 15 := laneInt_range 1

theorem partIm_range : -2 ^ 15 ≤ partIm rx ∧ partIm rx < 2 ^ 15 := laneInt_range 0

/-- The imaginary part that `pv.sub.h` leaves. -/
def negated (rx : V2s) : Int := if partIm rx = -2 ^ 15 then -2 ^ 15 else -partIm rx

theorem toInt_negate : (-lane rx 0).toInt = negated rx := by
  rw [negated]
  split
  · rename_i h
    have hmin : lane rx 0 = BitVec.intMin 16 := BitVec.eq_of_toInt_eq h
    rw [hmin]
    rfl
  · rename_i h
    exact BitVec.toInt_neg_of_ne_intMin fun hmin => h (by rw [partIm, hmin]; rfl)

/-- The sum that is the real part. -/
def dotRe (rx tx : V2s) : Int := partRe rx * partRe tx + negated rx * partIm tx

theorem laneInt_append_one {a b : BitVec 16} : laneInt (a ++ b) 1 = a.toInt :=
  congrArg BitVec.toInt lane_append_one

theorem laneInt_append_zero {a b : BitVec 16} : laneInt (a ++ b) 0 = b.toInt :=
  congrArg BitVec.toInt lane_append_zero

theorem dotsp_shuffled : dotspH (shuffleA rx).ab tx = BitVec.ofInt 32 (chestIm rx tx) := by
  have hab : (shuffleA rx).ab = lane rx 0 ++ lane rx 1 := rfl
  rw [hab, dotspH_eq, laneInt_append_one, laneInt_append_zero]
  exact congrArg _ (Int.add_comm _ _)

theorem dotsp_negated : dotspH (shuffleA rx).abN tx = BitVec.ofInt 32 (dotRe rx tx) := by
  have hab : (shuffleA rx).abN = lane (lane rx 0 ++ lane rx 1) 0 ++ lane (subH 0 rx) 0 := rfl
  have hneg : lane (subH 0 rx) 0 = -lane rx 0 := by
    rw [subH, lane_append_zero]
    exact BitVec.zero_sub _
  rw [hab, dotspH_eq, laneInt_append_one, laneInt_append_zero, lane_append_zero, hneg,
    toInt_negate]
  rfl

theorem mulLoop_eq {re im : Int} (hre : BitVec.ofInt 32 (dotRe rx tx) = BitVec.ofInt 32 re)
    (him : chestIm rx tx = im) (hre32 : -2 ^ 31 ≤ re ∧ re < 2 ^ 31)
    (him32 : -2 ^ 31 ≤ im ∧ im < 2 ^ 31) : mulLoop (shuffleA rx) tx =
      BitVec.ofInt 16 (clipInt (im / 2 ^ 8)) ++ BitVec.ofInt 16 (clipInt (re / 2 ^ 8)) := by
  unfold mulLoop
  dsimp only
  rw [dotsp_negated, dotsp_shuffled, hre, him, sshiftRight_ofInt hre32.1 hre32.2,
    sshiftRight_ofInt him32.1 him32.2, clip_ofInt (by omega) (by omega),
    clip_ofInt (by omega) (by omega), packH_ofInt]

/-- One bit too many: what is clipped to seventeen bits is only right within sixteen. -/
theorem clip_eq_sat_iff {x : Int} :
    BitVec.ofInt 16 (clipInt x) = BitVec.ofInt 16 (sat16 x) ↔ -2 ^ 15 ≤ x ∧ x < 2 ^ 15 := by
  rw [ofInt16_eq_iff, clipInt, sat16]
  omega

/-- With `t` the imaginary part of the sent pilot and `x` the real part of the product, scaled:
when it does no harm that `-2^15` has no negation. -/
def WrongSignAgrees (x t : Int) : Prop :=
  if x < -2 ^ 15 then x = 2 ^ 8 * t - 2 ^ 15 ∨ x = 2 ^ 8 * t + 2 ^ 15
  else if x < 2 ^ 15 then
    t = 0 ∨ t = -2 ^ 8 ∧ x < 0 ∨ t = 2 ^ 8 ∧ 0 ≤ x ∨ t < -2 ^ 8 ∧ x = -1 ∨ 2 ^ 8 < t ∧ x = 0 ∨
      t = -2 ^ 15 ∧ x = 0
  else x = 2 ^ 8 * t + 2 ^ 15 - 1 ∨ x = 2 ^ 8 * t - 2 ^ 15 - 1

theorem wrong_sign_clip {x t : Int} (hlim : t = -2 ^ 15 → x ≠ 0) :
    BitVec.ofInt 16 (clipInt (x - 2 ^ 8 * t)) = BitVec.ofInt 16 (sat16 x) ↔
      WrongSignAgrees x t := by
  rw [ofInt16_eq_iff, WrongSignAgrees]
  split
  · rw [show sat16 x = -2 ^ 15 by rw [sat16]; omega, clipInt]
    constructor <;> omega
  · split
    · rw [show sat16 x = x by rw [sat16]; omega]
      rcases lt_or_ge (x - 2 ^ 8 * t) (-2 ^ 16) with hlo | hlo
      · rw [show clipInt (x - 2 ^ 8 * t) = -2 ^ 16 by rw [clipInt]; omega]
        constructor <;> omega
      · rcases lt_or_ge (x - 2 ^ 8 * t) (2 ^ 16) with hhi | hhi
        · rw [show clipInt (x - 2 ^ 8 * t) = x - 2 ^ 8 * t by rw [clipInt]; omega]
          constructor <;> omega
        · rw [show clipInt (x - 2 ^ 8 * t) = 2 ^ 16 - 1 by rw [clipInt]; omega]
          constructor <;> omega
    · rw [show sat16 x = 2 ^ 15 - 1 by rw [sat16]; omega, clipInt]
      constructor <;> omega

theorem product_range {a c b d : Int} (hb : 0 ≤ b) (ha : -b ≤ a ∧ a ≤ b) (hc : -d ≤ c ∧ c ≤ d) :
    -(b * d) ≤ a * c ∧ a * c ≤ b * d := by
  rw [← abs_le, abs_mul]
  exact mul_le_mul (abs_le.mpr ha) (abs_le.mpr hc) (abs_nonneg c) hb

/-- When the kernels compute the product of two pilots right. -/
def PilotsAgree (rx tx : V2s) : Prop :=
  (-2 ^ 23 ≤ chestIm rx tx ∧ chestIm rx tx < 2 ^ 23) ∧
    if partIm rx = -2 ^ 15 then WrongSignAgrees (chestRe rx tx / 2 ^ 8) (partIm tx)
    else -2 ^ 23 ≤ chestRe rx tx ∧ chestRe rx tx < 2 ^ 23

/-- The real part comes out as the value of some sum within 32 bits. -/
theorem dotRe_fits (rx tx : V2s) : ∃ re, BitVec.ofInt 32 (dotRe rx tx) = BitVec.ofInt 32 re ∧
    (-2 ^ 31 ≤ re ∧ re < 2 ^ 31) ∧
      (BitVec.ofInt 16 (clipInt (re / 2 ^ 8)) = BitVec.ofInt 16 (sat16 (chestRe rx tx / 2 ^ 8)) ↔
        if partIm rx = -2 ^ 15 then WrongSignAgrees (chestRe rx tx / 2 ^ 8) (partIm tx)
        else -2 ^ 23 ≤ chestRe rx tx ∧ chestRe rx tx < 2 ^ 23) := by
  have hp : -(2 ^ 15 * 2 ^ 15) ≤ partRe rx * partRe tx ∧
      partRe rx * partRe tx ≤ 2 ^ 15 * 2 ^ 15 := by
    have h := @partRe_range rx
    have h' := @partRe_range tx
    exact product_range (by decide) (by omega) (by omega)
  have hrx := @partIm_range rx
  have htx := @partIm_range tx
  unfold dotRe chestRe negated
  generalize partRe rx * partRe tx = p at hp
  split
  · rename_i hleast
    rw [hleast]
    rcases lt_or_ge (p - 2 ^ 15 * partIm tx) (2 ^ 31) with hfits | hwraps
    · refine ⟨p - 2 ^ 15 * partIm tx, by congr 1; omega, by omega, ?_⟩
      rw [← wrong_sign_clip (by omega)]
      rw [show (p - -2 ^ 15 * partIm tx) / 2 ^ 8 - 2 ^ 8 * partIm tx =
        (p - 2 ^ 15 * partIm tx) / 2 ^ 8 by omega]
    · -- the only sum that leaves the 32 bits
      obtain ⟨hpmax, htmin⟩ : p = 2 ^ 30 ∧ partIm tx = -2 ^ 15 := by omega
      rw [hpmax, htmin]
      exact ⟨-2 ^ 31, by decide, by decide, iff_of_true (by decide)
        (by rw [WrongSignAgrees]; decide)⟩
  · rename_i hneg
    have hq : -((2 ^ 15 - 1) * 2 ^ 15) ≤ partIm rx * partIm tx ∧
        partIm rx * partIm tx ≤ (2 ^ 15 - 1) * 2 ^ 15 :=
      product_range (by decide) (by omega) (by omega)
    rw [Int.neg_mul]
    generalize partIm rx * partIm tx = q at hq
    refine ⟨p - q, by congr 1, by omega, ?_⟩
    rw [clip_eq_sat_iff]
    omega

theorem chestElem_iff (him : -2 ^ 31 ≤ chestIm rx tx ∧ chestIm rx tx < 2 ^ 31) :
    mulLoop (shuffleA rx) tx = chestElem rx tx ↔ PilotsAgree rx tx := by
  obtain ⟨re, hre, hre32, hiff⟩ := dotRe_fits rx tx
  rw [mulLoop_eq hre rfl hre32 him, chestElem, append_eq_iff, hiff, clip_eq_sat_iff, PilotsAgree]
  refine and_congr_left fun _ => ?_
  omega

end Element

/-! ## The stores -/

section Rows

variable {rx tx : Nat → BitVec 16} {nSc p q : Nat} (hfitH : nSc * (p * 4) * (q * 4) * 4 ≤ 2 ^ 32)
  (hfitRX : nSc * (p * 4) * 4 ≤ 2 ^ 32) (hfitTX : nSc * (q * 4) * 4 ≤ 2 ^ 32)

/-- The value that the kernels write for element `e` of `H`. -/
def chestValue (rx tx : Nat → BitVec 16) (nRX nTX e : Nat) : V2s :=
  mulLoop (shuffleA (pilot rx nRX (e / nTX / nRX) (e / nTX % nRX)))
    (pilot tx nTX (e / nTX / nRX) (e % nTX))

theorem byFour_eq (n : Nat) : byFour (n * 4) = (List.range n).map (4 * ·) := by
  rw [byFour, show turns 0 (n * 4) 4 = n by rw [turns]; omega]

/-- What is written for four receivers. -/
def rowTile (rx tx : Nat → BitVec 16) (p q t : Nat) : List (Nat × V2s) :=
  ((List.range q).flatMap fun j => tileCells (q * 4) 4 4 (t, j)).map fun e =>
    (2 * e, chestValue rx tx (p * 4) (q * 4) e)

include hfitH hfitRX hfitTX

theorem chestRows_eq {k i : Nat} (hk : k < nSc) (hi : i < p) :
    chestRows rx tx (p * 4) (q * 4) k (4 * i) = rowTile rx tx p q (k * p + i) := by
  unfold chestRows rowTile
  dsimp only
  rw [byFour_eq, List.flatMap_map, List.map_flatMap]
  refine List.flatMap_congr fun j hj => ?_
  have hj := List.mem_range.mp hj
  rw [tileCells, List.map_flatMap]
  refine List.flatMap_congr fun x hx => ?_
  have hx := List.mem_range.mp hx
  rw [List.map_map]
  refine List.map_congr_left fun y hy => ?_
  have hy := List.mem_range.mp hy
  -- the row and the column of the element
  have hrow : (k * p + i) * 4 + x = k * (p * 4) + (4 * i + x) := by
    rw [Nat.add_mul, Nat.mul_assoc]
    omega
  have hcol : j * 4 + y < q * 4 := tile_column_lt hj hy
  have hrx : k * (p * 4) + (4 * i + x) < nSc * (p * 4) := tile_column_lt hk (by omega)
  have htx : k * (q * 4) + (j * 4 + y) < nSc * (q * 4) := tile_column_lt hk hcol
  have helem := tile_column_lt hrx hcol
  have hbase : k * 2 * (q * 4 * (p * 4)) = 2 * (k * (p * 4) * (q * 4)) := by
    rw [Nat.mul_comm k 2, Nat.mul_comm (q * 4) (p * 4), Nat.mul_assoc 2 k, Nat.mul_assoc k]
  have hsum : (k * (p * 4) + (4 * i + x)) * (q * 4) =
      k * (p * 4) * (q * 4) + (4 * i + x) * (q * 4) := Nat.add_mul ..
  have hrx2 : k * (2 * (p * 4)) = 2 * (k * (p * 4)) := Nat.mul_left_comm ..
  have htx2 : k * (2 * (q * 4)) = 2 * (k * (q * 4)) := Nat.mul_left_comm ..
  dsimp only [Function.comp]
  rw [hrow, hsum, hbase, hrx2, htx2]
  rw [hsum] at helem
  refine Prod.ext ?_ ?_
  · dsimp only
    rw [u32_eq (by omega), u32_eq (by omega)]
    omega
  · dsimp only
    rw [chestValue, ← hsum, (cell_div_mod hcol).1, (cell_div_mod hcol).2,
      (cell_div_mod (show 4 * i + x < p * 4 by omega)).1,
      (cell_div_mod (show 4 * i + x < p * 4 by omega)).2, pilot, pilot, u32_eq (by omega),
      u32_eq (by omega), u32_eq (by omega), u32_eq (by omega)]
    rw [show 2 * (k * (p * 4)) + 2 * (4 * i + x) = 2 * (k * (p * 4) + (4 * i + x)) by omega,
      show 2 * (k * (q * 4)) + 2 * (4 * j + y) = 2 * (k * (q * 4) + (j * 4 + y)) by omega]

omit hfitH hfitRX hfitTX in
theorem rowTile_perm {m : Nat} {ts : List Nat} (hts : ts.Perm (List.range m)) :
    (ts.flatMap (rowTile rx tx p q)).Perm ((List.range (m * 4 * (q * 4))).map fun e =>
      (2 * e, chestValue rx tx (p * 4) (q * 4) e)) := by
  have htiles := tileCells_perm (r := 4) (c := 4) (by decide) (by decide)
    (tileRows_perm (q := q) hts)
  have hmap := htiles.map fun e => (2 * e, chestValue rx tx (p * 4) (q * 4) e)
  rw [List.flatMap_assoc, List.map_flatMap] at hmap
  simp only [List.flatMap_map] at hmap
  exact hmap

theorem chestSubcarrier_eq {k : Nat} (hk : k < nSc) : chestSubcarrier rx tx (p * 4) (q * 4) k =
    ((List.range p).map (k * p + ·)).flatMap (rowTile rx tx p q) := by
  rw [chestSubcarrier, byFour_eq, List.flatMap_map, List.flatMap_map]
  exact List.flatMap_congr fun i hi =>
    chestRows_eq hfitH hfitRX hfitTX hk (List.mem_range.mp hi)

/-- Subcarriers, in some order, are all of them. -/
theorem subcarriers_perm {ks : List Nat} (hks : ks.Perm (List.range nSc)) :
    (ks.flatMap (chestSubcarrier rx tx (p * 4) (q * 4))).Perm
      ((List.range (nSc * (p * 4) * (q * 4))).map fun e =>
        (2 * e, chestValue rx tx (p * 4) (q * 4) e)) := by
  have hrows : ks.flatMap (chestSubcarrier rx tx (p * 4) (q * 4)) =
      (ks.flatMap fun k => (List.range p).map (k * p + ·)).flatMap (rowTile rx tx p q) := by
    rw [List.flatMap_assoc]
    exact List.flatMap_congr fun k hk => chestSubcarrier_eq hfitH hfitRX hfitTX
      (List.mem_range.mp (hks.mem_iff.mp hk))
  have hts : (ks.flatMap fun k => (List.range p).map (k * p + ·)).Perm (List.range (nSc * p)) := by
    rw [← rows_range]
    exact hks.flatMap_right _
  rw [hrows, ← Nat.mul_assoc nSc p 4]
  exact rowTile_perm hts

omit hfitH hfitRX hfitTX in
/-- What a core of `mempool_chest_q16p_unrolled4` writes. -/
theorem chestParallel_ends {id nPE : Nat} (hpos : 0 < nPE) (hid : id < nPE)
    (hwrap : nSc + nPE ≤ 2 ^ 32) :
    Ends (mempoolChestQ16pUnrolled4 rx tx (p * 4) (q * 4) nSc id nPE)
      (((List.range (turns id nSc nPE)).map (id + · * nPE)).flatMap
        (chestSubcarrier rx tx (p * 4) (q * 4))) := by
  have hend := turns_lt (a := id) (b := nSc) hpos
  refine ⟨turns id nSc nPE, fun fuel hfuel => ?_⟩
  refine (forLoop_add (fun k hk => (lt_turns hpos).mp hk) (le_turns hpos) (show _ < 2 ^ 32 by omega)
    hfuel).trans (congrArg some ?_)
  have happ := foldl_appends (fun writes => writes)
    (fun k => chestSubcarrier rx tx (p * 4) (q * 4) (id + k * nPE)) (fun _ _ => rfl)
    (List.range (turns id nSc nPE)) []
  rw [List.flatMap_map]
  exact happ

/-- What a core of `mempool_chest_q16p_unrolled4_local` writes. -/
theorem chestLocal_ends {id numCores : Nat} (hpos : 0 < numCores) (hid : id < numCores)
    (hwrap : nSc * (p * 4) + 4 * numCores < 2 ^ 32) :
    Ends (fun fuel => mempoolChestQ16pUnrolled4Local rx tx (p * 4) (q * 4) nSc id fuel 4 numCores)
      (((List.range (turns id (nSc * p) numCores)).map (id + · * numCores)).flatMap
        (rowTile rx tx p q)) := by
  have hturns : turns (id * 4) (nSc * (p * 4)) (numCores * 4) = turns id (nSc * p) numCores := by
    rw [← Nat.mul_assoc]
    exact turns_mul (by decide) hpos
  have hend := turns_lt (a := id * 4) (b := nSc * (p * 4)) (d := numCores * 4) (by omega)
  have hlt : ∀ k < turns id (nSc * p) numCores, id * 4 + k * (numCores * 4) < nSc * (p * 4) :=
    fun k hk => (lt_turns (by omega)).mp (hturns.symm ▸ hk)
  have hge : nSc * (p * 4) ≤ id * 4 + turns id (nSc * p) numCores * (numCores * 4) :=
    hturns ▸ le_turns (by omega)
  rw [hturns] at hend
  refine ⟨turns id (nSc * p) numCores, fun fuel hfuel => ?_⟩
  unfold mempoolChestQ16pUnrolled4Local
  rw [u32_eq (show nSc * (p * 4) < 2 ^ 32 by omega), u32_eq (show id * 4 < 2 ^ 32 by omega),
    Nat.mul_comm 4 numCores, u32_eq (show numCores * 4 < 2 ^ 32 by omega)]
  refine (forLoop_add hlt hge (show _ < 2 ^ 32 by omega) hfuel).trans (congrArg some ?_)
  have happ := foldl_appends (fun writes => writes)
    (fun k => chestRows rx tx (p * 4) (q * 4) ((id * 4 + k * (numCores * 4)) / (p * 4))
      ((id * 4 + k * (numCores * 4)) % (p * 4))) (fun _ _ => rfl)
    (List.range (turns id (nSc * p) numCores)) []
  refine happ.trans ?_
  rw [List.nil_append, List.flatMap_map]
  refine List.flatMap_congr fun k hk => ?_
  have hrow := hlt k (List.mem_range.mp hk)
  have hp : 0 < p := Nat.pos_of_ne_zero fun h => by rw [h] at hrow; omega
  -- the counter is four times the number of the tile
  have hfour : id * 4 + k * (numCores * 4) = (id + k * numCores) * 4 := by
    rw [Nat.add_mul, Nat.mul_assoc]
  rw [hfour, Nat.mul_div_mul_right _ _ (by decide), Nat.mul_mod_mul_right,
    Nat.mul_comm ((id + k * numCores) % p) 4]
  rw [hfour, ← Nat.mul_assoc] at hrow
  rw [chestRows_eq hfitH hfitRX hfitTX
    ((Nat.div_lt_iff_lt_mul hp).mpr (by omega)) (Nat.mod_lt _ hp), Nat.div_add_mod']

end Rows

/-! ## When the estimate is exact -/

/-- Stores to the same places with different values are not the same stores. -/
theorem perm_stores_iff {l : List Nat} {f f' : Nat → V2s} :
    (l.map fun e => (2 * e, f e)).Perm (l.map fun e => (2 * e, f' e)) ↔ ∀ e ∈ l, f e = f' e := by
  constructor
  · intro hperm e he
    have hmem : (2 * e, f e) ∈ l.map fun e => (2 * e, f' e) :=
      hperm.mem_iff.mp (List.mem_map.mpr ⟨e, he, rfl⟩)
    obtain ⟨e', -, heq⟩ := List.mem_map.mp hmem
    obtain ⟨hplace, hval⟩ := Prod.mk.inj heq
    rw [← hval, show e' = e by omega]
  · intro h
    rw [List.map_congr_left fun e he => by rw [h e he]]

/-- All products of pilots come out right. -/
def AllAgree (rx tx : Nat → BitVec 16) (nRX nTX nSc : Nat) : Prop :=
  ∀ sc < nSc, ∀ i < nRX, ∀ j < nTX, PilotsAgree (pilot rx nRX sc i) (pilot tx nTX sc j)

/-- The sums of products do not leave the 32 bits. -/
def SumsFit (rx tx : Nat → BitVec 16) (nRX nTX nSc : Nat) : Prop :=
  ∀ sc < nSc, ∀ i < nRX, ∀ j < nTX, -2 ^ 31 ≤ chestIm (pilot rx nRX sc i) (pilot tx nTX sc j) ∧
    chestIm (pilot rx nRX sc i) (pilot tx nTX sc j) < 2 ^ 31

section Exact

variable {rx tx : Nat → BitVec 16} {nRX nTX nSc cores : Nat} {writes : List (Nat × V2s)}

theorem chestExact_iff (hsums : SumsFit rx tx nRX nTX nSc)
    (hperm : writes.Perm ((List.range (nSc * nRX * nTX)).map fun e =>
      (2 * e, chestValue rx tx nRX nTX e))) :
    ChestExact rx tx nRX nTX nSc writes ↔ AllAgree rx tx nRX nTX nSc := by
  rw [ChestExact, hperm.congr_left, perm_stores_iff]
  constructor
  · intro h sc hsc i hi j hj
    have hrow := tile_column_lt hsc hi
    have hval := h _ (List.mem_range.mpr (tile_column_lt hrow hj))
    rw [chestValue, (cell_div_mod hj).1, (cell_div_mod hj).2, (cell_div_mod hi).1,
      (cell_div_mod hi).2, chestElem_iff (hsums sc hsc i hi j hj)] at hval
    exact hval
  · intro h e he
    have he := List.mem_range.mp he
    have hTX : 0 < nTX := Nat.pos_of_ne_zero fun h => by rw [h, Nat.mul_zero] at he; omega
    have hrow := (Nat.div_lt_iff_lt_mul hTX).mpr he
    have hRX : 0 < nRX := Nat.pos_of_ne_zero fun h => by
      rw [h, Nat.mul_zero] at hrow
      exact Nat.not_lt_zero _ hrow
    have hsc := (Nat.div_lt_iff_lt_mul hRX).mpr hrow
    have hi := Nat.mod_lt (e / nTX) hRX
    have hj := Nat.mod_lt e hTX
    exact (chestElem_iff (hsums _ hsc _ hi _ hj)).mpr (h _ hsc _ hi _ hj)

theorem chestExactAll_iff {kernel : Nat → Nat → Option (List (Nat × V2s))}
    {w : Nat → List (Nat × V2s)} (hsums : SumsFit rx tx nRX nTX nSc)
    (hends : ∀ id < cores, Ends (kernel id) (w id))
    (hperm : ((List.range cores).flatMap w).Perm ((List.range (nSc * nRX * nTX)).map fun e =>
      (2 * e, chestValue rx tx nRX nTX e))) :
    ChestExactAll rx tx nRX nTX nSc cores kernel ↔ AllAgree rx tx nRX nTX nSc := by
  rw [← chestExact_iff hsums hperm]
  constructor
  · rintro ⟨w', hends', hexact⟩
    have hsame : (List.range cores).flatMap w' = (List.range cores).flatMap w :=
      List.flatMap_congr fun id hid =>
        (hends' id (List.mem_range.mp hid)).unique (hends id (List.mem_range.mp hid))
    rwa [← hsame]
  · intro hexact
    exact ⟨w, hends, hexact⟩

end Exact

/-- Each of the kernels computes the saturated products if and only if none of them needs to be
saturated, or comes out right in spite of a received pilot that cannot be negated. -/
theorem chest_exact_iff {rx tx : Nat → BitVec 16} {nRX nTX nSc nPE numCores : Nat}
    (hRX : 4 ∣ nRX) (hTX : 4 ∣ nTX) (hPE : 0 < nPE) (hcores : 0 < numCores)
    (hfitH : nSc * nRX * nTX * 4 ≤ 2 ^ 32) (hfitRX : nSc * nRX * 4 ≤ 2 ^ 32)
    (hfitTX : nSc * nTX * 4 ≤ 2 ^ 32) (hwrap : nSc + nPE ≤ 2 ^ 32)
    (hwrapLocal : nSc * nRX + 4 * numCores < 2 ^ 32) (hsums : SumsFit rx tx nRX nTX nSc) :
    (ChestExact rx tx nRX nTX nSc (mempoolChestQ16sUnrolled4 rx tx nRX nTX nSc) ↔
      AllAgree rx tx nRX nTX nSc) ∧
    (ChestExactAll rx tx nRX nTX nSc nPE
      (fun id fuel => mempoolChestQ16pUnrolled4 rx tx nRX nTX nSc id nPE fuel) ↔
      AllAgree rx tx nRX nTX nSc) ∧
    (ChestExactAll rx tx nRX nTX nSc numCores
      (fun id fuel => mempoolChestQ16pUnrolled4Local rx tx nRX nTX nSc id fuel 4 numCores) ↔
      AllAgree rx tx nRX nTX nSc) := by
  obtain ⟨p, rfl⟩ := hRX
  obtain ⟨q, rfl⟩ := hTX
  rw [Nat.mul_comm 4 p, Nat.mul_comm 4 q] at *
  refine ⟨chestExact_iff hsums (subcarriers_perm hfitH hfitRX hfitTX (List.Perm.refl _)),
    chestExactAll_iff hsums
      (fun id hid => chestParallel_ends hPE hid hwrap) ?_,
    chestExactAll_iff hsums
      (fun id hid => chestLocal_ends hfitH hfitRX hfitTX hcores hid hwrapLocal) ?_⟩
  · rw [← List.flatMap_assoc]
    exact subcarriers_perm hfitH hfitRX hfitTX (counters_perm hPE)
  · rw [← List.flatMap_assoc, ← Nat.mul_assoc nSc p 4]
    exact rowTile_perm (counters_perm hcores)

/-- Pilots of less than four, with eight binary digits. -/
theorem chest_exact_small_pilots :
    let rx : Nat → BitVec 16 := fun i => BitVec.ofNat 16 (64 * i)
    let tx : Nat → BitVec 16 := fun i => BitVec.ofNat 16 (96 * i)
    ChestExact rx tx 4 4 1 (mempoolChestQ16sUnrolled4 rx tx 4 4 1) ∧
      ChestExactAll rx tx 4 4 1 3
        (fun id fuel => mempoolChestQ16pUnrolled4 rx tx 4 4 1 id 3 fuel) ∧
      ChestExactAll rx tx 4 4 1 2
        (fun id fuel => mempoolChestQ16pUnrolled4Local rx tx 4 4 1 id fuel 4 2) := by
  intro rx tx
  have hfits : ∀ sc < 1, ∀ i < 4, ∀ j < 4,
      (-2 ^ 23 ≤ chestIm (pilot rx 4 sc i) (pilot tx 4 sc j) ∧
        chestIm (pilot rx 4 sc i) (pilot tx 4 sc j) < 2 ^ 23) ∧
      partIm (pilot rx 4 sc i) ≠ -2 ^ 15 ∧
      (-2 ^ 23 ≤ chestRe (pilot rx 4 sc i) (pilot tx 4 sc j) ∧
        chestRe (pilot rx 4 sc i) (pilot tx 4 sc j) < 2 ^ 23) := by decide +kernel
  have hagree : AllAgree rx tx 4 4 1 := fun sc hsc i hi j hj => by
    obtain ⟨him, hne, hre⟩ := hfits sc hsc i hi j hj
    exact ⟨him, by rwa [if_neg hne]⟩
  have h := @chest_exact_iff rx tx 4 4 1 3 2 (by decide) (by decide) (by decide) (by decide)
    (by decide) (by decide) (by decide) (by decide) (by decide)
    (by unfold SumsFit; decide +kernel)
  exact ⟨h.1.mpr hagree, h.2.1.mpr hagree, h.2.2.mpr hagree⟩

/-- Pilots of `2^12`: the products are to be saturated to `2^15 - 1` and come out as `-1`. -/
theorem chest_clips_one_bit_late :
    ¬ChestExact (fun i => if i % 2 = 1 then 4096 else 0)
      (fun i => if i % 2 = 1 then 4096 else 0) 4 4
      1 (mempoolChestQ16sUnrolled4 (fun i => if i % 2 = 1 then 4096 else 0)
        (fun i => if i % 2 = 1 then 4096 else 0) 4 4 1) := by
  unfold ChestExact
  decide +kernel

end TeraNoC.Kernels
