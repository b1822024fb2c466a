import TeraNoC.Hw.DmaPath
import TeraNoC.Proofs.AddrMap
import TeraNoC.Proofs.DistributedMidend

/-!
# The core path and the DMA path

The DMA path reads the same fields as the core path, at its own scrambled
address: `dmaPath_eq_place`. On the interleaved region the two scrambler
instances compute the same function, so the paths agree, except that a backend
with a single tile has no demux and never looks at its scrambled address. The
core's scrambler still remaps one bit then, because its field width is at least
one; that bit is not the DMA's to remap. `core_dma_agree_iff` has the exact set
of addresses that end up in two different places.
-/

namespace TeraNoC.Hw

open TeraNoC.Lib

namespace DmaConfig

variable (c : DmaConfig)

/-! ## The beat -/

theorem beatBytes_eq : c.beatBytes = 2 ^ (2 + c.wBits) := by
  have h : c.axiDataWidth = 8 * 2 ^ (2 + c.wBits) := by
    rw [c.words_pow, Nat.pow_add]
    show 32 * 2 ^ c.wBits = 8 * (2 ^ 2 * 2 ^ c.wBits)
    omega
  rw [Params.beatBytes, Params.dmaDataWidth, h, Nat.mul_div_cancel_left _ (by omega)]

theorem slice_beatAddr {addr lo w : Nat} (h : 2 + c.wBits ≤ lo) :
    slice (c.beatAddr addr) lo w = slice addr lo w := by
  rw [Params.beatAddr, c.beatBytes_eq]
  exact slice_roundDown h

/-- A beat starts at the first bank of a superbank. -/
theorem slice_beatAddr_bank (addr : Nat) :
    slice (c.beatAddr addr) 2 c.bBits
      = concat (slice addr (2 + c.wBits) (c.bBits - c.wBits)) 0 c.wBits := by
  have hw := c.wBits_le
  have hlow : slice (c.beatAddr addr) 2 c.wBits = 0 := by
    refine Nat.eq_of_testBit_eq fun i => ?_
    rw [testBit_slice, Params.beatAddr, c.beatBytes_eq, testBit_roundDown, Nat.zero_testBit]
    by_cases hi : i < c.wBits
    · simp [show ¬ 2 + c.wBits ≤ 2 + i by omega]
    · simp [hi]
  have hsplit := concat_slice (c.beatAddr addr) 2 c.wBits (c.bBits - c.wBits)
  rw [Nat.add_sub_cancel' hw] at hsplit
  rw [← hsplit, hlow, c.slice_beatAddr (Nat.le_refl _)]

/-- Row and first bank of the beat's superbank. -/
theorem dmaTgtAddr_eq (addr : Nat) :
    c.dmaTgtAddr (c.beatAddr addr) =
      concat (slice addr (2 + c.bBits + (c.gBits + c.tBits)) c.rBits)
        (concat (slice addr (2 + c.wBits) (c.bBits - c.wBits)) 0 c.wBits) c.bBits := by
  have hw := c.wBits_le
  have hrow : 2 + c.bBits + c.tBits + c.gBits = 2 + c.bBits + (c.gBits + c.tBits) := by omega
  rw [Params.dmaTgtAddr, L1Config.byteOffset_eq, c.idxWidth_banks, c.clog2_groups,
    c.clog2_tilesPerGroup, c.tcdmAddrMemWidth_eq, hrow, c.slice_beatAddr (by omega),
    c.slice_beatAddr_bank]

/-- Every word of a beat goes to the bank of its own address. -/
theorem wideBank_dmaTgtAddr (addr : Nat) :
    c.bankInterco.wideBank (c.dmaTgtAddr (c.beatAddr addr)) (addr % c.beatBytes / 4)
      = (c.place addr).bank := by
  have hw := c.wBits_le
  have hlane : addr % c.beatBytes / 4 = slice addr 2 c.wBits := by
    rw [c.beatBytes_eq, slice, Nat.pow_add, Nat.mod_mul_right_div_self]
  have hbank : slice addr 2 c.bBits
      = concat (slice addr (2 + c.wBits) (c.bBits - c.wBits)) (slice addr 2 c.wBits)
          c.wBits := by
    rw [concat_slice, Nat.add_sub_cancel' hw]
  have h : c.interco.wideBank
      (concat (slice addr (2 + c.bBits + (c.gBits + c.tBits)) c.rBits)
        (concat (slice addr (2 + c.wBits) (c.bBits - c.wBits)) 0 c.interco.loBits)
        (c.interco.loBits + c.interco.hiBits)) (slice addr 2 c.wBits) = _ :=
    IntercoConfig.wideBank_concat (by rw [c.interco_hiBits]; exact slice_lt _ _ _)
      (by rw [c.interco_loBits]; exact slice_lt _ _ _)
  rw [c.interco_bits, c.interco_loBits] at h
  rw [hlane, c.dmaTgtAddr_eq, L1Config.place, hbank]
  exact h

/-! ## The tile -/

theorem dmaBackend_eq (addr : Nat) :
    c.dmaBackend addr =
      (slice addr (2 + c.bBits + c.tBits) c.gBits,
        slice addr (2 + c.bBits + (c.tBits - c.dBits)) c.dBits) := by
  have hd := c.dBits_le
  have hg : 2 + c.bBits + (c.tBits - c.dBits) + c.dBits = 2 + c.bBits + c.tBits := by omega
  rw [Params.dmaBackend, c.dmaBytes_eq, c.groupBytes_eq, c.numGroups_eq,
    c.numDmasPerGroup_eq, hg]
  rfl

/-- Outside the sequential region the two instances of the scrambler agree. -/
theorem dmaScrambler_eq_core {addr : Nat}
    (hseq : c.numTiles * c.seqMemSizePerTile ≤ addr) :
    addrScrambler (c.dmaScrambler 0) addr = addrScrambler (c.coreScrambler 0) addr := by
  have h : ¬ addr < (c.coreScrambler 0).numTiles * (c.coreScrambler 0).seqMemSizePerTile :=
    Nat.not_lt.mpr hseq
  simp only [addrScrambler, decide_eq_false h, Bool.and_false, Bool.false_eq_true, if_false]
  simp only [Params.dmaScrambler, Bool.false_and, Bool.false_eq_true, if_false]
  rfl

/-- The address whose fields say where a beat of `addr` goes: a backend with
several tiles decodes its scrambled address, one with a single tile the plain
one. -/
def dmaDecoded (addr : Nat) : Nat :=
  if c.numTilesPerDma > 1 then addrScrambler (c.coreScrambler 0) addr else addr

theorem kBits_of_many (h : c.numTilesPerDma > 1) :
    idxWidth c.numTilesPerDma = c.tBits - c.dBits ∧ c.kBits = c.tBits - c.dBits ∧
      1 ≤ c.tBits - c.dBits := by
  rw [c.numTilesPerDma_eq] at h
  have hpos : c.tBits - c.dBits ≠ 0 := by
    intro h0
    rw [h0] at h
    omega
  refine ⟨by rw [c.numTilesPerDma_eq, idxWidth_pow hpos], ?_, by omega⟩
  rw [L1Config.kBits, c.numTilesPerDma_eq, clog2_pow]
  omega

theorem beatAddr_seq {addr : Nat} (hseq : c.numTiles * c.seqMemSizePerTile ≤ addr) :
    c.numTiles * c.seqMemSizePerTile ≤ c.beatAddr addr := by
  have hw := c.wBits_le
  have hdvd : 2 ^ (2 + c.wBits) ∣ c.numTiles * c.seqMemSizePerTile := by
    rw [c.seqTotal_eq]
    exact Nat.pow_dvd_pow 2 (by omega)
  obtain ⟨m, hm⟩ := hdvd
  have hround : c.beatAddr addr = 2 ^ (2 + c.wBits) * (addr / 2 ^ (2 + c.wBits)) := by
    have := Nat.div_add_mod addr (2 ^ (2 + c.wBits))
    rw [Params.beatAddr, c.beatBytes_eq]
    omega
  rw [hround, hm]
  refine Nat.mul_le_mul_left _ ((Nat.le_div_iff_mul_le (Nat.two_pow_pos _)).mpr ?_)
  rw [Nat.mul_comm, ← hm]
  exact hseq

/-- The demux of a backend with several tiles reads the low bits of the tile field
of the scrambled address. -/
theorem dmaTileSel_eq {addr : Nat} (h : c.numTilesPerDma > 1)
    (hseq : c.numTiles * c.seqMemSizePerTile ≤ addr) (ha : addr < 2 ^ c.addrBits) :
    c.dmaTileSel 0 (c.beatAddr addr) =
      slice (addrScrambler (c.coreScrambler 0) addr) (2 + c.bBits) (c.tBits - c.dBits) := by
  obtain ⟨hidx, hk, hpos⟩ := c.kBits_of_many h
  have hw := c.wBits_le
  have hbeat := c.beatAddr_seq hseq
  have hbeatlt : c.beatAddr addr < 2 ^ c.addrBits :=
    Nat.lt_of_le_of_lt (Nat.sub_le _ _) ha
  rw [Params.dmaTileSel, L1Config.byteOffset_eq, c.idxWidth_banks, hidx,
    c.dmaScrambler_eq_core hbeat]
  have hinter : ∀ x, c.numTiles * c.seqMemSizePerTile ≤ x → x < 2 ^ c.addrBits →
      slice (addrScrambler (c.coreScrambler 0) x) (2 + c.bBits) (c.tBits - c.dBits) =
        if c.tileIdRemap then
          (slice x (2 + c.bBits) (c.tBits - c.dBits) +
            slice x (2 + c.bBits + (c.gBits + c.tBits)) (c.tBits - c.dBits))
              % 2 ^ (c.tBits - c.dBits)
        else slice x (2 + c.bBits) (c.tBits - c.dBits) := by
    intro x hx hlt
    rw [c.seqTotal_eq] at hx
    cases c.coreScrambler_cases hlt with
    | bypass hT _ => omega
    | seq _ hlt' _ => omega
    | interleaved _ _ hscr =>
        rw [hscr, hk]
        split
        · rw [slice_splice_of_inside (Nat.le_refl _) (Nat.le_refl _), Nat.sub_self,
            slice_eq_self (Nat.mod_lt _ (Nat.two_pow_pos _))]
        · rfl
  rw [hinter _ hbeat hbeatlt, hinter _ hseq ha, c.slice_beatAddr (by omega),
    c.slice_beatAddr (by omega)]

/-- Scrambling an interleaved address only touches the tiles of one backend. -/
theorem scrambled_fields {addr : Nat} (h : c.numTilesPerDma > 1)
    (hseq : c.numTiles * c.seqMemSizePerTile ≤ addr) (ha : addr < 2 ^ c.addrBits)
    {lo w : Nat} (hout : lo + w ≤ 2 + c.bBits ∨ 2 + c.bBits + (c.tBits - c.dBits) ≤ lo) :
    slice (addrScrambler (c.coreScrambler 0) addr) lo w = slice addr lo w := by
  obtain ⟨-, hk, hpos⟩ := c.kBits_of_many h
  rw [c.seqTotal_eq] at hseq
  cases c.coreScrambler_cases ha with
  | bypass _ hscr => rw [hscr]
  | seq _ hlt _ => omega
  | interleaved _ _ hscr =>
      rw [hscr, hk]
      split
      · exact slice_splice_of_disjoint hout
      · rfl

theorem dmaPath_eq_place {addr : Nat} (hseq : c.numTiles * c.seqMemSizePerTile ≤ addr)
    (ha : addr < 2 ^ c.addrBits) :
    c.dmaPath 0 addr = c.place (c.dmaDecoded addr) := by
  have hd := c.dBits_le
  have hrow : slice (c.dmaTgtAddr (c.beatAddr addr)) c.bBits c.rBits
      = slice addr (2 + c.bBits + (c.gBits + c.tBits)) c.rBits := by
    have hlt : concat (slice addr (2 + c.wBits) (c.bBits - c.wBits)) 0 c.wBits
        < 2 ^ c.bBits := by
      have hcat := concat_lt (Nat.two_pow_pos c.wBits)
        (slice_lt addr (2 + c.wBits) (c.bBits - c.wBits))
      rwa [Nat.add_sub_cancel' c.wBits_le] at hcat
    rw [c.dmaTgtAddr_eq, slice_concat_hi hlt (Nat.le_refl _), Nat.sub_self,
      slice_eq_self (slice_lt _ _ _)]
  simp only [Params.dmaPath, c.dmaBackend_eq, c.wideBank_dmaTgtAddr, c.idxWidth_banks,
    c.tcdmAddrMemWidth_eq, hrow, dmaDecoded, L1Config.place, Loc.mk.injEq]
  by_cases h : c.numTilesPerDma > 1
  · simp only [h, if_true]
    have hout : ∀ lo w, lo + w ≤ 2 + c.bBits ∨ 2 + c.bBits + (c.tBits - c.dBits) ≤ lo →
        slice (addrScrambler (c.coreScrambler 0) addr) lo w = slice addr lo w :=
      fun lo w => c.scrambled_fields h hseq ha
    rw [hout (2 + c.bBits + c.tBits) c.gBits (by omega), hout 2 c.bBits (by omega),
      hout (2 + c.bBits + (c.gBits + c.tBits)) c.rBits (by omega)]
    refine ⟨rfl, ?_, rfl, rfl⟩
    have htile := concat_slice (addrScrambler (c.coreScrambler 0) addr) (2 + c.bBits)
      (c.tBits - c.dBits) c.dBits
    rw [Nat.sub_add_cancel hd, hout _ _ (by omega)] at htile
    rw [← htile, c.dmaTileSel_eq h hseq ha, c.numTilesPerDma_eq, concat, Nat.mul_comm]
  · have h1 : c.tBits - c.dBits = 0 := by
      by_contra h0
      rw [c.numTilesPerDma_eq] at h
      exact h (Nat.one_lt_two_pow h0)
    have htd : c.dBits = c.tBits := by omega
    simp only [h, if_false, and_true, true_and]
    rw [c.numTilesPerDma_eq, h1, htd, Nat.pow_zero, Nat.mul_one, Nat.add_zero, Nat.add_zero]

/-! ## Agreement -/

/-- With a single tile per backend, the core's remap moves an address exactly if
its row is odd. -/
theorem scrambled_eq_iff {addr : Nat} (h : c.numTilesPerDma = 1)
    (hseq : c.numTiles * c.seqMemSizePerTile ≤ addr) (ha : addr < 2 ^ c.addrBits) :
    addrScrambler (c.coreScrambler 0) addr = addr ↔
      ¬ (c.tileIdRemap = true ∧ 2 ≤ c.numTiles ∧
        slice addr (2 + c.bBits + (c.gBits + c.tBits)) 1 = 1) := by
  have hk : c.kBits = 1 := by
    rw [L1Config.kBits, h, clog2_one]
    rfl
  have htwo := c.numTiles_lt_two
  rw [c.seqTotal_eq] at hseq
  cases c.coreScrambler_cases ha with
  | bypass hT hscr =>
      rw [hscr]
      exact iff_of_true rfl fun hcon => by omega
  | seq _ hlt _ => omega
  | interleaved hT _ hscr =>
      rw [hscr, hk]
      by_cases hr : c.tileIdRemap = true
      · rw [if_pos hr]
        have hbit := slice_lt addr (2 + c.bBits) 1
        have hrow := slice_lt addr (2 + c.bBits + (c.gBits + c.tBits)) 1
        constructor
        · intro heq hcon
          have hread := congrArg (fun x => slice x (2 + c.bBits) 1) heq
          simp only [slice_splice_of_inside (Nat.le_refl (2 + c.bBits)) (Nat.le_refl _),
            Nat.sub_self, slice_eq_self (Nat.mod_lt _ (Nat.two_pow_pos 1))] at hread
          omega
        · intro hcon
          have hzero : slice addr (2 + c.bBits + (c.gBits + c.tBits)) 1 = 0 := by
            by_contra hne
            exact hcon ⟨hr, by omega, by omega⟩
          rw [hzero, Nat.add_zero, Nat.mod_eq_of_lt hbit, splice_self]
      · rw [if_neg hr]
        exact iff_of_true rfl fun hcon => hr hcon.1

theorem place_scrambled_iff {addr : Nat} (ha : addr < 2 ^ c.addrBits) :
    c.place (addrScrambler (c.coreScrambler 0) addr) = c.place addr ↔
      addrScrambler (c.coreScrambler 0) addr = addr := by
  have hcase := c.coreScrambler_cases ha
  refine ⟨fun h => c.place_inj (hcase.lt ha) ha ?_ h, fun h => by rw [h]⟩
  have hsub : ∀ z, slice (slice z 0 (2 + c.bBits)) 0 2 = slice z 0 2 := by
    intro z
    rw [slice_slice (by omega), Nat.add_zero]
  rw [← hsub, hcase.low, hsub]

/-- A core and the DMA reach the same word for an interleaved address exactly
unless the tile-id remap is on, every DMA has a single tile, there are at least two
tiles, and the address lies in an odd row. -/
theorem core_dma_agree_iff
    (li : LocalInterco c.numTilesPerGroup
      (c.tcdmAddrMemWidth + idxWidth c.numBanksPerTile))
    (noc : Noc c.numGroups) {group tile : Nat} (hg : group < c.numGroups)
    (ht : tile < c.numTilesPerGroup) (req : CoreReq) {addr : Nat}
    (hseq : c.numTiles * c.seqMemSizePerTile ≤ addr) (ha : addr < c.tcdmSize) :
    c.corePath 0 li noc group tile req addr = some (c.dmaPath 0 addr) ↔
      ¬ (c.tileIdRemap = true ∧ c.numTilesPerDma = 1 ∧ 2 ≤ c.numTiles ∧
        addr / (4 * c.numBanksPerTile * c.numTiles) % 2 = 1) := by
  have ha' : addr < 2 ^ c.addrBits := by
    rw [c.tcdmSize_eq] at ha
    exact ha
  have hrowbit : addr / (4 * c.numBanksPerTile * c.numTiles) % 2
      = slice addr (2 + c.bBits + (c.gBits + c.tBits)) 1 := by
    rw [c.numBanksPerTile_eq, c.numTiles_eq, show (4 : Nat) = 2 ^ 2 from rfl,
      ← Nat.pow_add, ← Nat.pow_add]
    rfl
  rw [c.corePath_eq_place hg ht ((c.coreScrambler_cases ha').lt ha'),
    c.dmaPath_eq_place hseq ha', Option.some.injEq, dmaDecoded, hrowbit]
  by_cases h : c.numTilesPerDma > 1
  · rw [if_pos h]
    exact iff_of_true rfl fun hcon => by omega
  · have h1 : c.numTilesPerDma = 1 := by
      have := Nat.two_pow_pos (c.tBits - c.dBits)
      rw [c.numTilesPerDma_eq] at h ⊢
      omega
    rw [if_neg h, c.place_scrambled_iff ha', c.scrambled_eq_iff h1 hseq ha']
    simp only [h1, true_and]

end DmaConfig

/-! ## On minpool -/

/-- The first odd row of the interleaved region of minpool: byte 8448. -/
theorem core_dma_disagree_minpool :
    (minpool true false).corePath 0 (.direct _ _) (.direct _) 0 0 ⟨0, false, false⟩ 8448
      ≠ some ((minpool true false).dmaPath 0 8448) := by
  decide

theorem core_dma_agree_minpool :
    (minpool true false).corePath 0 (.direct _ _) (.direct _) 0 0 ⟨0, false, false⟩ 8192
      = some ((minpool true false).dmaPath 0 8192) :=
  ((minpool true false).core_dma_agree_iff (.direct _ _) (.direct _) (by decide) (by decide)
    ⟨0, false, false⟩ (by decide) (by decide)).mpr (by decide)

end TeraNoC.Hw
