import Mathlib.Data.Set.Finite.Basic
import TeraNoC.Proofs.CorePath

/-!
# The L1 address map is a bijection

`corePath_eq_place` leaves two maps: the scrambler on the byte addresses of
the L1, and the field decode `place`. The decode is injective on words because
the bank remap is, row by row. The scrambler is injective because each of its
two transforms is, and because they stay inside their own regions: the
sequential swap permutes the fields below `seqTotal`, the tile-id remap leaves
every bit above the tile field alone. Words and tuples are equally many, so an
injection is a bijection.
-/

namespace TeraNoC.Hw

open TeraNoC.Lib

namespace L1Config

variable (c : L1Config)

/-! ## The core's scrambler -/

/-- The tile-id bits the core's scrambler remaps. -/
def kBits : Nat := max 1 (clog2 c.numTilesPerDma)

theorem kBits_le (h : 1 ≤ c.gBits + c.tBits) : c.kBits ≤ c.gBits + c.tBits := by
  have hdma : clog2 c.numTilesPerDma ≤ c.tBits := by
    refine clog2_le_of_le_pow ?_
    rw [Params.numTilesPerDma, c.numTilesPerGroup_eq]
    exact Nat.div_le_self _ _
  rw [kBits]
  omega

/-- The bits above the tile field, and the first of them. -/
theorem addrBits_eq : c.addrBits = 2 + c.bBits + (c.gBits + c.tBits) + c.rBits := rfl

theorem seqTotal_le : 2 + c.bBits + c.sBits + (c.gBits + c.tBits) ≤ c.addrBits := by
  have := c.sBits_le
  rw [c.addrBits_eq]
  omega

theorem numTiles_lt_two : c.numTiles < 2 ↔ c.gBits + c.tBits = 0 := by
  rw [c.numTiles_eq]
  constructor
  · intro h
    by_contra h0
    exact absurd (Nat.one_lt_two_pow h0) (by omega)
  · intro h
    rw [h]
    decide

/-- The three things the core's scrambler does with an L1 address. -/
inductive ScrambleCase (a a' : Nat) : Prop where
  | bypass (hT : c.gBits + c.tBits = 0) (h : a' = a)
  | seq (hT : c.gBits + c.tBits ≠ 0)
      (hlt : a < 2 ^ (2 + c.bBits + c.sBits + (c.gBits + c.tBits)))
      (h : a' = splice a (2 + c.bBits) (c.sBits + (c.gBits + c.tBits))
        (concat (slice a (2 + c.bBits) c.sBits)
          (slice a (2 + c.bBits + c.sBits) (c.gBits + c.tBits)) (c.gBits + c.tBits)))
  | interleaved (hT : c.gBits + c.tBits ≠ 0)
      (hge : 2 ^ (2 + c.bBits + c.sBits + (c.gBits + c.tBits)) ≤ a)
      (h : a' = if c.tileIdRemap then
          splice a (2 + c.bBits) c.kBits
            ((slice a (2 + c.bBits) c.kBits +
              slice a (2 + c.bBits + (c.gBits + c.tBits)) c.kBits) % 2 ^ c.kBits)
        else a)

theorem coreScrambler_cases {a : Nat} (ha : a < 2 ^ c.addrBits) :
    c.ScrambleCase a (addrScrambler (c.coreScrambler 0) a) := by
  have hconst : (c.coreScrambler 0).constantBitsLSB = 2 + c.bBits := by
    show Params.byteOffset + clog2 c.numBanksPerTile = _
    rw [byteOffset_eq, c.clog2_banks]
  have htile : (c.coreScrambler 0).tileIdBits = c.gBits + c.tBits := c.clog2_tiles
  have hper : (c.coreScrambler 0).seqPerTileBits = 2 + c.bBits + c.sBits := c.seqBits_eq
  have hscr : (c.coreScrambler 0).scrambleBits = c.sBits := by
    rw [ScramblerParams.scrambleBits, hper, hconst, Nat.add_sub_cancel_left]
  have hsw : (c.coreScrambler 0).seqTotalBits - (2 + c.bBits)
      = c.sBits + (c.gBits + c.tBits) := by
    rw [ScramblerParams.seqTotalBits, hper, htile]
    omega
  have htot : (c.coreScrambler 0).numTiles * (c.coreScrambler 0).seqMemSizePerTile
      = 2 ^ (2 + c.bBits + c.sBits + (c.gBits + c.tBits)) := c.seqTotal_eq
  have hk : (c.coreScrambler 0).tileIdBitsPerDma = c.kBits := rfl
  have hmask : a &&& (c.coreScrambler 0).tcdmMask = 0 := c.land_tcdmMask ha
  rw [addrScrambler]
  simp only [hscr, hconst, hper, htile, hsw, htot, hmask, hk]
  by_cases hT : c.gBits + c.tBits = 0
  · rw [if_pos (by
      simp only [Bool.or_eq_true, decide_eq_true_eq]
      exact .inr (c.numTiles_lt_two.mpr hT))]
    exact .bypass hT rfl
  · rw [if_neg (by
      simp only [Bool.or_eq_true, decide_eq_true_eq, not_or]
      exact ⟨Bool.false_ne_true, fun h => hT (c.numTiles_lt_two.mp h)⟩)]
    by_cases hlt : a < 2 ^ (2 + c.bBits + c.sBits + (c.gBits + c.tBits))
    · rw [if_pos (by simp [Params.coreScrambler, hlt])]
      exact .seq hT hlt rfl
    · rw [if_neg (by simp [hlt])]
      refine .interleaved hT (Nat.le_of_not_lt hlt) ?_
      simp only [ScramblerParams.spmTileIdRemap, hk]
      cases hr : c.tileIdRemap with
      | false => simp [Params.coreScrambler, hr]
      | true => simp [Params.coreScrambler, hr, Nat.le_of_not_lt hlt]

/-! ## What a case leaves of the address -/

section Cases

variable {c} {a a' : Nat}

theorem ScrambleCase.lt (h : c.ScrambleCase a a') (ha : a < 2 ^ c.addrBits) :
    a' < 2 ^ c.addrBits := by
  cases h with
  | bypass _ h => rwa [h]
  | seq hT _ h =>
      rw [h]
      refine splice_lt ha ?_
      have := c.seqTotal_le
      omega
  | interleaved hT _ h =>
      have hk := c.kBits_le (by omega)
      rw [h]
      split
      · exact splice_lt ha (by rw [c.addrBits_eq]; omega)
      · exact ha

/-- The byte and the bank field stay. -/
theorem ScrambleCase.low (h : c.ScrambleCase a a') :
    slice a' 0 (2 + c.bBits) = slice a 0 (2 + c.bBits) := by
  cases h with
  | bypass _ h => rw [h]
  | seq _ _ h => rw [h, slice_splice_of_disjoint (.inl (by omega))]
  | interleaved _ _ h =>
      rw [h]
      split
      · rw [slice_splice_of_disjoint (.inl (by omega))]
      · rfl

/-- The sequential region and the interleaved region are mapped to themselves. -/
theorem ScrambleCase.region (h : c.ScrambleCase a a') :
    a' < 2 ^ (2 + c.bBits + c.sBits + (c.gBits + c.tBits)) ↔
      a < 2 ^ (2 + c.bBits + c.sBits + (c.gBits + c.tBits)) := by
  have hdiv : ∀ x y m : Nat, x / 2 ^ m = y / 2 ^ m → (x < 2 ^ m ↔ y < 2 ^ m) := by
    intro x y m hxy
    rw [← Nat.div_eq_zero_iff_lt (Nat.two_pow_pos m), hxy,
      Nat.div_eq_zero_iff_lt (Nat.two_pow_pos m)]
  cases h with
  | bypass _ h => rw [h]
  | seq hT hlt h =>
      refine iff_of_true ?_ hlt
      rw [h]
      exact splice_lt hlt (by omega)
  | interleaved hT hge h =>
      have hk := c.kBits_le (by omega)
      rw [h]
      split
      · refine hdiv _ _ _ (Nat.eq_of_testBit_eq fun i => ?_)
        rw [Nat.testBit_div_two_pow, Nat.testBit_div_two_pow, testBit_splice,
          if_neg (by omega)]
      · rfl

theorem ScrambleCase.seq_tile (h : c.ScrambleCase a a')
    (hlt : a < 2 ^ (2 + c.bBits + c.sBits + (c.gBits + c.tBits))) :
    slice a' (2 + c.bBits) (c.gBits + c.tBits) =
      slice a (2 + c.bBits + c.sBits) (c.gBits + c.tBits) := by
  cases h with
  | bypass hT _ => rw [hT, slice_zero_width, slice_zero_width]
  | seq _ _ h =>
      rw [h, slice_splice_of_inside (Nat.le_refl _) (by omega), Nat.sub_self,
        slice_concat_lo (slice_lt _ _ _) (by omega), slice_eq_self (slice_lt _ _ _)]
  | interleaved _ hge _ => omega

theorem ScrambleCase.seq_row (h : c.ScrambleCase a a')
    (hlt : a < 2 ^ (2 + c.bBits + c.sBits + (c.gBits + c.tBits))) :
    slice a' (2 + c.bBits + (c.gBits + c.tBits)) c.sBits =
      slice a (2 + c.bBits) c.sBits := by
  cases h with
  | bypass hT h => rw [h, hT, Nat.add_zero]
  | seq _ _ h =>
      rw [h, slice_splice_of_inside (by omega) (by omega), Nat.add_sub_cancel_left,
        slice_concat_hi (slice_lt _ _ _) (Nat.le_refl _), Nat.sub_self,
        slice_eq_self (slice_lt _ _ _)]
  | interleaved _ hge _ => omega

/-- Two addresses with the same image are the same address. -/
theorem ScrambleCase.inj {x y : Nat} (hx : c.ScrambleCase x a') (hy : c.ScrambleCase y a')
    (hxn : x < 2 ^ c.addrBits) (hyn : y < 2 ^ c.addrBits) : x = y := by
  have hregion := hx.region.symm.trans hy.region
  have hlow : slice x 0 (2 + c.bBits) = slice y 0 (2 + c.bBits) :=
    hx.low.symm.trans hy.low
  by_cases hlt : x < 2 ^ (2 + c.bBits + c.sBits + (c.gBits + c.tBits))
  · -- the three fields of a sequential address all survive the swap
    have hlt' := hregion.mp hlt
    have htile := (hx.seq_tile hlt).symm.trans (hy.seq_tile hlt')
    have hrow := (hx.seq_row hlt).symm.trans (hy.seq_row hlt')
    refine eq_of_slices hlt hlt' ?_ htile
    rw [← concat_slice x 0, ← concat_slice y 0, hlow, Nat.zero_add, hrow]
  · have hlt' : ¬ y < 2 ^ (2 + c.bBits + c.sBits + (c.gBits + c.tBits)) :=
      fun h => hlt (hregion.mpr h)
    cases hx with
    | bypass hT hx =>
        cases hy with
        | bypass _ hy => rw [← hx, ← hy]
        | seq hT' _ _ => exact absurd hT hT'
        | interleaved hT' _ _ => exact absurd hT hT'
    | seq _ h _ => exact absurd h hlt
    | interleaved hT _ hx =>
        cases hy with
        | bypass hT' _ => exact absurd hT' hT
        | seq _ h _ => exact absurd h hlt'
        | interleaved _ _ hy =>
            have hk := c.kBits_le (by omega)
            rw [hx] at hy
            split at hy
            · -- above the remapped bits nothing moves, so the distance is the same
              have hhi : ∀ lo w, 2 + c.bBits + c.kBits ≤ lo →
                  slice x lo w = slice y lo w := by
                intro lo w hlo
                have := congrArg (fun z => slice z lo w) hy
                simpa only [slice_splice_of_disjoint (Or.inr hlo)] using this
              have hmid := congrArg (fun z => slice z (2 + c.bBits) c.kBits) hy
              simp only [slice_splice_of_inside (Nat.le_refl (2 + c.bBits)) (Nat.le_refl _),
                Nat.sub_self, slice_eq_self (Nat.mod_lt _ (Nat.two_pow_pos c.kBits))]
                at hmid
              rw [hhi (2 + c.bBits + (c.gBits + c.tBits)) _ (by omega)] at hmid
              have hf := add_mod_inj (slice_lt _ _ _) (slice_lt _ _ _) hmid
              have hn : c.addrBits
                  = 2 + c.bBits + c.kBits + (c.addrBits - (2 + c.bBits + c.kBits)) := by
                rw [c.addrBits_eq]
                omega
              rw [hn] at hxn hyn
              refine eq_of_slices hxn hyn ?_ (hhi _ _ (Nat.le_refl _))
              rw [← concat_slice x 0, ← concat_slice y 0, hlow, Nat.zero_add, hf]
            · exact hy

end Cases

/-! ## The field decode -/

/-- The words of the L1. -/
def words : Set Loc :=
  {l | l.group < c.numGroups ∧ l.tile < c.numTilesPerGroup ∧
    l.bank < c.numBanksPerTile ∧ l.row < 2 ^ c.tcdmAddrMemWidth}

theorem place_mem_words (addr : Nat) : c.place addr ∈ c.words := by
  refine ⟨?_, ?_, ?_, slice_lt _ _ _⟩
  · rw [c.numGroups_eq]
    exact slice_lt _ _ _
  · rw [c.numTilesPerGroup_eq]
    exact slice_lt _ _ _
  · rw [c.numBanksPerTile_eq, ← c.interco_bits]
    exact c.interco.bankRemap_lt _ _

/-- Group and tile of a place are the two parts of the tile field. -/
theorem place_tileField (addr : Nat) :
    concat (c.place addr).group (c.place addr).tile c.tBits =
      slice addr (2 + c.bBits) (c.gBits + c.tBits) := by
  rw [Nat.add_comm c.gBits]
  exact concat_slice addr (2 + c.bBits) c.tBits c.gBits

theorem place_inj {x y : Nat} (hx : x < 2 ^ c.addrBits) (hy : y < 2 ^ c.addrBits)
    (hbyte : slice x 0 2 = slice y 0 2) (h : c.place x = c.place y) : x = y := by
  have htile := c.place_tileField x
  rw [h, c.place_tileField y] at htile
  have hrow : slice x (2 + c.bBits + (c.gBits + c.tBits)) c.rBits
      = slice y (2 + c.bBits + (c.gBits + c.tBits)) c.rBits := congrArg Loc.row h
  have hbank := congrArg Loc.bank h
  simp only [place] at hbank
  rw [hrow] at hbank
  have hfield : slice x 2 c.bBits = slice y 2 c.bBits := by
    refine c.interco.bankRemap_inj ?_ ?_ hbank
    · rw [c.interco_bits]; exact slice_lt _ _ _
    · rw [c.interco_bits]; exact slice_lt _ _ _
  have hlow : slice x 0 (2 + c.bBits) = slice y 0 (2 + c.bBits) := by
    rw [← concat_slice x 0, ← concat_slice y 0, hbyte, Nat.zero_add, hfield]
  refine eq_of_slices hx hy ?_ hrow
  rw [← concat_slice x 0, ← concat_slice y 0, hlow, Nat.zero_add, htile]

/-! ## The map -/

/-- The word an L1 address names. -/
def loc (a : Nat) : Loc := c.place (addrScrambler (c.coreScrambler 0) a)

theorem loc_inj {x y : Nat} (hx : x < 2 ^ c.addrBits) (hy : y < 2 ^ c.addrBits)
    (hbyte : slice x 0 2 = slice y 0 2) (h : c.loc x = c.loc y) : x = y := by
  have hcx := c.coreScrambler_cases hx
  have hcy := c.coreScrambler_cases hy
  have hb : slice (addrScrambler (c.coreScrambler 0) x) 0 2
      = slice (addrScrambler (c.coreScrambler 0) y) 0 2 := by
    have hsub : ∀ z, slice (slice z 0 (2 + c.bBits)) 0 2 = slice z 0 2 := by
      intro z
      rw [slice_slice (by omega), Nat.add_zero]
    rw [← hsub (addrScrambler _ x), ← hsub (addrScrambler _ y), hcx.low, hcy.low, hsub, hsub,
      hbyte]
  have heq := c.place_inj (hcx.lt hx) (hcy.lt hy) hb h
  rw [heq] at hcx
  exact hcx.inj hcy hx hy

/-- A number for every word of the L1. -/
def wordIndex (l : Loc) : Nat :=
  concat (concat (concat l.group l.tile c.tBits) l.bank c.bBits) l.row c.rBits

theorem wordIndex_lt {l : Loc} (hl : l ∈ c.words) :
    4 * c.wordIndex l < 2 ^ c.addrBits := by
  obtain ⟨hg, ht, hb, hr⟩ := hl
  rw [c.numGroups_eq] at hg
  rw [c.numTilesPerGroup_eq] at ht
  rw [c.numBanksPerTile_eq] at hb
  have h := concat_lt hr (concat_lt hb (concat_lt ht hg))
  have hpow : 2 ^ c.addrBits = 4 * 2 ^ (c.rBits + (c.bBits + (c.tBits + c.gBits))) := by
    rw [show (4 : Nat) = 2 ^ 2 from rfl, ← Nat.pow_add, c.addrBits_eq]
    congr 1
    omega
  rw [hpow]
  exact Nat.mul_lt_mul_of_pos_left h (by omega)

theorem wordIndex_inj {l l' : Loc} (hl : l ∈ c.words) (hl' : l' ∈ c.words)
    (h : c.wordIndex l = c.wordIndex l') : l = l' := by
  obtain ⟨-, ht, hb, hr⟩ := hl
  obtain ⟨-, ht', hb', hr'⟩ := hl'
  rw [c.numTilesPerGroup_eq] at ht ht'
  rw [c.numBanksPerTile_eq] at hb hb'
  obtain ⟨h, hrow⟩ := concat_inj hr hr' h
  obtain ⟨h, hbank⟩ := concat_inj hb hb' h
  obtain ⟨hgroup, htile⟩ := concat_inj ht ht' h
  cases l
  cases l'
  simp only [Loc.mk.injEq]
  exact ⟨hgroup, htile, hbank, hrow⟩

theorem loc_bijOn :
    Set.BijOn c.loc {a | a < c.tcdmSize ∧ 4 ∣ a} c.words := by
  have hsize : c.tcdmSize = 2 ^ c.addrBits := c.tcdmSize_eq
  have hmaps : ∀ a, c.loc a ∈ c.words := fun a => c.place_mem_words _
  have hinj : Set.InjOn c.loc {a | a < c.tcdmSize ∧ 4 ∣ a} := by
    intro x hx y hy h
    have hbyte : ∀ z, 4 ∣ z → slice z 0 2 = 0 := by
      intro z hz
      rw [slice, Nat.pow_zero, Nat.div_one]
      exact Nat.mod_eq_zero_of_dvd hz
    exact c.loc_inj (hsize ▸ hx.1) (hsize ▸ hy.1) (by rw [hbyte x hx.2, hbyte y hy.2]) h
  refine ⟨fun a _ => hmaps a, hinj, ?_⟩
  -- numbering the words turns `loc` into an injection of a finite set into itself
  have hself : Set.MapsTo (fun a => 4 * c.wordIndex (c.loc a))
      {a | a < c.tcdmSize ∧ 4 ∣ a} {a | a < c.tcdmSize ∧ 4 ∣ a} := by
    intro a _
    exact ⟨hsize ▸ c.wordIndex_lt (hmaps a), Nat.dvd_mul_right 4 _⟩
  have hfin : {a | a < c.tcdmSize ∧ 4 ∣ a}.Finite :=
    (Set.finite_lt_nat c.tcdmSize).subset fun a ha => ha.1
  have hinj' : Set.InjOn (fun a => 4 * c.wordIndex (c.loc a))
      {a | a < c.tcdmSize ∧ 4 ∣ a} := by
    intro x hx y hy h
    refine hinj hx hy (c.wordIndex_inj (hmaps x) (hmaps y) ?_)
    exact Nat.eq_of_mul_eq_mul_left (by omega) h
  have hbij := (Set.Finite.injOn_iff_bijOn_of_mapsTo hfin hself).mp hinj'
  intro l hl
  obtain ⟨a, ha, heq⟩ := hbij.surjOn
    (show 4 * c.wordIndex l ∈ {a | a < c.tcdmSize ∧ 4 ∣ a} from
      ⟨hsize ▸ c.wordIndex_lt hl, Nat.dvd_mul_right 4 _⟩)
  exact ⟨a, ha, c.wordIndex_inj (hmaps a) hl (Nat.eq_of_mul_eq_mul_left (by omega) heq)⟩

/-- A sequential window lies in its tile. -/
theorem loc_seq {T a : Nat} (hT : T < c.numTiles)
    (hlo : T * c.seqMemSizePerTile ≤ a) (hhi : a < (T + 1) * c.seqMemSizePerTile) :
    (c.loc a).group * c.numTilesPerGroup + (c.loc a).tile = T := by
  have hdiv : a / 2 ^ (2 + c.bBits + c.sBits) = T := by
    rw [c.seqMemSizePerTile_eq] at hlo hhi
    exact Nat.div_eq_of_lt_le hlo hhi
  rw [c.numTiles_eq] at hT
  have hlt : a < 2 ^ (2 + c.bBits + c.sBits + (c.gBits + c.tBits)) := by
    rw [Nat.pow_add, Nat.mul_comm]
    exact (Nat.div_lt_iff_lt_mul (Nat.two_pow_pos _)).mp (hdiv ▸ hT)
  have ha : a < 2 ^ c.addrBits :=
    Nat.lt_of_lt_of_le hlt (Nat.pow_le_pow_right (by omega) c.seqTotal_le)
  have htile := (c.coreScrambler_cases ha).seq_tile hlt
  have hfield := c.place_tileField (addrScrambler (c.coreScrambler 0) a)
  rw [htile, slice, hdiv, Nat.mod_eq_of_lt hT] at hfield
  rw [c.numTilesPerGroup_eq, Nat.mul_comm]
  exact hfield

/-- The L1 address map: one word for every word address, the same from every
core, every word exactly once, and a tile's sequential window in that tile. -/
theorem l1_address_map
    (li : LocalInterco c.numTilesPerGroup
      (c.tcdmAddrMemWidth + idxWidth c.numBanksPerTile))
    (noc : Noc c.numGroups) :
    ∃ loc : Nat → Loc,
      (∀ a < c.tcdmSize, ∀ group < c.numGroups, ∀ tile < c.numTilesPerGroup,
        ∀ req : CoreReq, c.corePath 0 li noc group tile req a = some (loc a)) ∧
      Set.BijOn loc {a | a < c.tcdmSize ∧ 4 ∣ a}
        {l | l.group < c.numGroups ∧ l.tile < c.numTilesPerGroup ∧
          l.bank < c.numBanksPerTile ∧ l.row < 2 ^ c.tcdmAddrMemWidth} ∧
      (∀ T < c.numTiles, ∀ a, T * c.seqMemSizePerTile ≤ a →
        a < (T + 1) * c.seqMemSizePerTile →
        (loc a).group * c.numTilesPerGroup + (loc a).tile = T) := by
  refine ⟨c.loc, ?_, c.loc_bijOn, fun T hT a hlo hhi => c.loc_seq hT hlo hhi⟩
  intro a ha group hg tile ht req
  rw [c.tcdmSize_eq] at ha
  exact c.corePath_eq_place hg ht ((c.coreScrambler_cases ha).lt ha)

end L1Config

end TeraNoC.Hw
