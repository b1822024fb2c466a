import TeraNoC.Hw.CorePath
import TeraNoC.Proofs.BankPlacement

/-!
# The route of a core's access is a field decode

Past the scrambler, everything a request meets reads fixed fields of its
address: `place` is that reading. The local port, the group's interconnect and
the network each slice the address in their own way; `corePath_eq_place` says
they all arrive at the same word. The only branch that needs an argument is
the region rule of the local port, whose mask covers the tile field: it can
only fire in the tile the field names.
-/

namespace TeraNoC.Hw

open TeraNoC.Lib

namespace L1Config

variable (c : L1Config)

/-- Bits of a byte address of the L1. -/
def addrBits : Nat := 2 + c.bBits + (c.gBits + c.tBits) + c.rBits

/-- The word a scrambled address names. -/
def place (addr : Nat) : Loc where
  group := slice addr (2 + c.bBits + c.tBits) c.gBits
  tile := slice addr (2 + c.bBits) c.tBits
  bank := c.interco.bankRemap (slice addr (2 + c.bBits + (c.gBits + c.tBits)) c.rBits)
    (slice addr 2 c.bBits)
  row := slice addr (2 + c.bBits + (c.gBits + c.tBits)) c.rBits

/-! ## The tile's slicing -/

/-- Row and bank of an address, as every `tgt_addr` carries them. -/
def bankAddr (addr : Nat) : Nat :=
  concat (slice addr (2 + c.bBits + (c.gBits + c.tBits)) c.rBits)
    (slice addr 2 c.bBits) c.bBits

theorem idxWidth_banks : idxWidth c.numBanksPerTile = c.bBits := by
  rw [c.numBanksPerTile_eq, idxWidth_pow c.bBits_pos]

theorem clog2_tiles : clog2 c.numTiles = c.gBits + c.tBits := by
  rw [c.numTiles_eq, clog2_pow]

theorem clog2_banks : clog2 c.numBanksPerTile = c.bBits := by
  rw [c.numBanksPerTile_eq, clog2_pow]

theorem clog2_groups : clog2 c.numGroups = c.gBits := rfl

theorem clog2_tilesPerGroup : clog2 c.numTilesPerGroup = c.tBits := rfl

theorem tcdmAddrMemWidth_eq : c.tcdmAddrMemWidth = c.rBits := rfl

theorem tcdmAddrWidth_eq : c.tcdmAddrWidth = c.rBits + (c.tBits + c.bBits) := by
  have h : c.tBits + c.bBits ≠ 0 := by
    have := c.bBits_pos
    omega
  rw [Params.tcdmAddrWidth, c.numBanksPerGroup_eq, idxWidth_pow h]
  rfl

theorem bankAddr_lt (addr : Nat) : c.bankAddr addr < 2 ^ (c.bBits + c.rBits) :=
  concat_lt (slice_lt _ _ _) (slice_lt _ _ _)

theorem localTgtAddr_eq (addr : Nat) : c.localTgtAddr addr = c.bankAddr addr := by
  rw [Params.localTgtAddr, c.idxWidth_banks, c.clog2_tiles, byteOffset_eq,
    c.tcdmAddrWidth_eq]
  refine slice_eq_self (Nat.lt_of_lt_of_le (c.bankAddr_lt addr) ?_)
  exact Nat.pow_le_pow_right (by omega) (by omega)

theorem tBits_of_single (h : c.numTilesPerGroup = 1) : c.tBits = 0 := by
  rw [tBits, h, clog2_one]

theorem tBits_of_many (h : c.numTilesPerGroup ≠ 1) : c.tBits ≠ 0 := by
  intro h0
  exact h (by rw [c.numTilesPerGroup_eq, h0, Nat.pow_zero])

theorem idxWidth_tiles (h : c.numTilesPerGroup ≠ 1) :
    idxWidth c.numTilesPerGroup = c.tBits := by
  rw [c.numTilesPerGroup_eq, idxWidth_pow (c.tBits_of_many h)]

/-- The remote `tgt_addr` is the bank address over the tile index. -/
theorem remoteTgtAddr_eq (addr : Nat) :
    c.remoteTgtAddr addr =
      concat (c.bankAddr addr) (slice addr (2 + c.bBits) c.tBits) c.tBits := by
  have hfit : ∀ x, x < 2 ^ (c.tBits + (c.bBits + c.rBits)) →
      slice x 0 (c.rBits + (c.tBits + c.bBits)) = x := by
    intro x hx
    refine slice_eq_self (Nat.lt_of_lt_of_le hx ?_)
    exact Nat.pow_le_pow_right (by omega) (by omega)
  rw [Params.remoteTgtAddr, c.idxWidth_banks, byteOffset_eq, c.tcdmAddrWidth_eq,
    c.clog2_groups, c.clog2_tilesPerGroup, c.tcdmAddrMemWidth_eq]
  split
  · rename_i h
    have ht := c.tBits_of_single h
    have hbank : concat (slice addr (2 + c.bBits + c.gBits) c.rBits)
        (slice addr 2 c.bBits) c.bBits = c.bankAddr addr := by
      rw [bankAddr, ht, Nat.add_zero]
    rw [hbank, hfit _ (by rw [ht, Nat.zero_add]; exact c.bankAddr_lt addr), ht,
      slice_zero_width]
    simp [concat]
  · have hbank : concat (slice addr (2 + c.bBits + c.tBits + c.gBits) c.rBits)
        (slice addr 2 c.bBits) c.bBits = c.bankAddr addr := by
      rw [bankAddr, Nat.add_assoc _ c.tBits, Nat.add_comm c.tBits]
    rw [hbank, hfit _ (concat_lt (slice_lt _ _ _) (c.bankAddr_lt addr))]

/-! ## The two ways into another tile -/

theorem route_remoteTgtAddr
    (li : LocalInterco c.numTilesPerGroup
      (c.tcdmAddrMemWidth + idxWidth c.numBanksPerTile)) (addr : Nat) :
    li.route (c.remoteTgtAddr addr) =
      (slice addr (2 + c.bBits) c.tBits, c.bankAddr addr) := by
  have hmem : c.tcdmAddrMemWidth + idxWidth c.numBanksPerTile = c.bBits + c.rBits := by
    rw [c.idxWidth_banks, Nat.add_comm]
    rfl
  rw [li.route_eq, c.remoteTgtAddr_eq, c.clog2_tilesPerGroup,
    slice_concat_lo (slice_lt _ _ _) (by omega), slice_eq_self (slice_lt _ _ _),
    slice_concat_hi (slice_lt _ _ _) (Nat.le_refl _), Nat.sub_self, hmem,
    slice_eq_self (c.bankAddr_lt addr)]

theorem reqTileSel_remoteTgtAddr (addr : Nat) :
    c.reqTileSel (c.remoteTgtAddr addr) = slice addr (2 + c.bBits) c.tBits := by
  rw [Params.reqTileSel]
  split
  · rename_i h
    rw [c.tBits_of_single h, slice_zero_width]
  · rename_i h
    rw [c.idxWidth_tiles h, c.remoteTgtAddr_eq, slice_concat_lo (slice_lt _ _ _) (by omega),
      slice_eq_self (slice_lt _ _ _)]

theorem wrapperTgtAddr_remoteTgtAddr (addr : Nat) :
    c.wrapperTgtAddr (c.remoteTgtAddr addr) = c.bankAddr addr := by
  have hskip : (if c.numTilesPerGroup = 1 then 0 else idxWidth c.numTilesPerGroup)
      = c.tBits := by
    split
    · rename_i h
      rw [c.tBits_of_single h]
    · rename_i h
      exact c.idxWidth_tiles h
  rw [Params.wrapperTgtAddr, hskip, c.idxWidth_banks, c.remoteTgtAddr_eq,
    slice_concat_hi (slice_lt _ _ _) (Nat.le_refl _), Nat.sub_self]
  exact slice_eq_self (c.bankAddr_lt addr)

theorem tileLoc_bankAddr (group tile addr : Nat) :
    c.tileLoc group tile (c.bankAddr addr) =
      { c.place addr with group := group, tile := tile } := by
  have hb : slice addr 2 c.bBits < 2 ^ (c.interco.loBits + c.interco.hiBits) := by
    rw [c.interco_bits]
    exact slice_lt _ _ _
  have hsel : c.interco.narrowSel
      (concat (slice addr (2 + c.bBits + (c.gBits + c.tBits)) c.rBits)
        (slice addr 2 c.bBits) (c.interco.loBits + c.interco.hiBits)) = _ :=
    IntercoConfig.narrowSel_concat hb
  rw [c.interco_bits] at hsel
  have hrow : slice (c.bankAddr addr) c.bBits c.rBits
      = slice addr (2 + c.bBits + (c.gBits + c.tBits)) c.rBits := by
    rw [bankAddr, slice_concat_hi (slice_lt _ _ _) (Nat.le_refl _), Nat.sub_self,
      slice_eq_self (slice_lt _ _ _)]
  rw [Params.tileLoc, c.idxWidth_banks, c.tcdmAddrMemWidth_eq, hrow]
  simp only [place, Loc.mk.injEq, true_and, and_true]
  exact hsel

/-! ## The port -/

theorem gBits_of_single (h : c.numGroups = 1) : c.gBits = 0 := by
  rw [gBits, h, clog2_one]

theorem tgtGroupId_eq (addr : Nat) :
    c.tgtGroupId addr = slice addr (2 + c.bBits + c.tBits) c.gBits := by
  rw [Params.tgtGroupId]
  split
  · rename_i h
    rw [c.gBits_of_single h, slice_zero_width]
  · rw [c.clog2_banks, byteOffset_eq]
    rfl

/-- Port 0 is taken only towards the own group. -/
theorem rwDemuxSel_eq_zero {group : Nat} {req : CoreReq} {addr : Nat}
    (h : c.rwDemuxSel group req addr = 0) :
    slice addr (2 + c.bBits + c.tBits) c.gBits = group := by
  have hrd := c.rd_ports
  have hwide := c.wide_ports
  have hports : c.numRemoteReqPortsPerTile
      = 1 + c.numRdRemoteReqPortsPerTile + c.numWideRemoteReqPortsPerTile := rfl
  have hwr : c.numWideRemoteReqPortsPerTile
      = c.numRdWrRemoteReqPortsPerTile + c.numWrRemoteReqPortsPerTile := rfl
  -- any port number the demux computes is a port, so the width cuts nothing off
  have hfit : ∀ v, v < c.numRemoteReqPortsPerTile →
      slice v 0 (idxWidth c.numRemoteReqPortsPerTile) = v := by
    intro v hv
    exact slice_eq_self (Nat.lt_of_lt_of_le hv (le_pow_idxWidth _))
  rw [Params.rwDemuxSel, c.clog2_banks, byteOffset_eq, c.clog2_groups,
    c.clog2_tilesPerGroup] at h
  by_contra hne
  rw [if_neg hne] at h
  split at h
  · split at h
    · have := Nat.mod_lt req.core hrd
      rw [hfit _ (by omega)] at h
      omega
    · have := Nat.mod_lt req.core hwide
      rw [hfit _ (by omega)] at h
      omega
  · have := Nat.mod_lt req.core (show 0 < c.numRemoteReqPortsPerTile - 1 by omega)
    rw [hfit _ (by omega)] at h
    omega

theorem remoteReqTgtSel_eq_zero {group : Nat} {req : CoreReq} {addr : Nat}
    (hg : group < c.numGroups) (h : c.remoteReqTgtSel group req addr = 0) :
    slice addr (2 + c.bBits + c.tBits) c.gBits = group := by
  rw [Params.remoteReqTgtSel] at h
  split at h
  · rename_i h1
    rw [c.gBits_of_single h1, slice_zero_width]
    omega
  · exact c.rwDemuxSel_eq_zero h

theorem remotePath_eq_place
    {li : LocalInterco c.numTilesPerGroup
      (c.tcdmAddrMemWidth + idxWidth c.numBanksPerTile)}
    {noc : Noc c.numGroups} {group : Nat} {req : CoreReq} {addr : Nat}
    (hg : group < c.numGroups) :
    c.remotePath li noc group req addr = c.place addr := by
  simp only [Params.remotePath]
  split
  · rename_i h
    have hgrp := c.remoteReqTgtSel_eq_zero hg h
    rw [c.route_remoteTgtAddr, c.tileLoc_bankAddr, ← hgrp]
    rfl
  · have hlt : slice addr (2 + c.bBits + c.tBits) c.gBits < c.numGroups := by
      rw [c.numGroups_eq]
      exact slice_lt _ _ _
    rw [c.tgtGroupId_eq, noc.deliver_groupXyId _ hlt, c.reqTileSel_remoteTgtAddr,
      c.wrapperTgtAddr_remoteTgtAddr, c.tileLoc_bankAddr]
    rfl

/-! ## The region rules -/

theorem tileId_eq (group : Nat) {tile : Nat} (ht : tile < c.numTilesPerGroup) :
    c.tileId group tile = concat group tile c.tBits := by
  rw [c.numTilesPerGroup_eq] at ht
  rw [Params.tileId, concat, Nat.mul_comm, ← Nat.shiftLeft_eq]
  exact (Nat.shiftLeft_add_eq_or_of_lt ht group).symm

/-- In the tile whose local rule fires, the tile field names that tile. -/
theorem tile_of_local {group tile addr : Nat} (hg : group < c.numGroups)
    (ht : tile < c.numTilesPerGroup)
    (h : addr &&& (c.tcdmMask |||
        ((2 ^ idxWidth c.numTiles - 1) <<< (2 + c.bBits)))
      = 0 ||| (c.tileId group tile <<< (2 + c.bBits))) :
    slice addr (2 + c.bBits + c.tBits) c.gBits = group ∧
      slice addr (2 + c.bBits) c.tBits = tile := by
  have htid : c.tileId group tile < 2 ^ (c.gBits + c.tBits) := by
    rw [c.tileId_eq group ht, Nat.add_comm]
    rw [c.numGroups_eq] at hg
    rw [c.numTilesPerGroup_eq] at ht
    exact concat_lt ht hg
  have hfield : slice addr (2 + c.bBits) (c.gBits + c.tBits) = c.tileId group tile := by
    by_cases hT : c.gBits + c.tBits = 0
    · rw [hT, slice_zero_width]
      rw [hT] at htid
      omega
    · have hw : idxWidth c.numTiles = c.gBits + c.tBits := by
        rw [c.numTiles_eq, idxWidth_pow hT]
      refine Nat.eq_of_testBit_eq fun i => ?_
      have hbit := congrArg (fun x => x.testBit (2 + c.bBits + i)) h
      simp only [Nat.testBit_and, Nat.testBit_or, Nat.testBit_shiftLeft,
        Nat.testBit_two_pow_sub_one, Nat.zero_or, hw, Nat.le_add_right, decide_true,
        Bool.true_and, Nat.add_sub_cancel_left] at hbit
      rw [testBit_slice]
      by_cases hi : i < c.gBits + c.tBits
      · simpa [hi] using hbit
      · simp [hi, testBit_of_lt htid (Nat.le_of_not_lt hi)]
  have hg' : slice (slice addr (2 + c.bBits) (c.gBits + c.tBits)) c.tBits c.gBits
      = slice addr (2 + c.bBits + c.tBits) c.gBits := slice_slice (by omega)
  have ht' : slice (slice addr (2 + c.bBits) (c.gBits + c.tBits)) 0 c.tBits
      = slice addr (2 + c.bBits) c.tBits := slice_slice (by omega)
  rw [c.numGroups_eq] at hg
  have htlt := ht
  rw [c.numTilesPerGroup_eq] at htlt
  rw [← hg', ← ht', hfield, c.tileId_eq group ht,
    slice_concat_hi htlt (Nat.le_refl _), Nat.sub_self, slice_eq_self hg,
    slice_concat_lo htlt (by omega), slice_eq_self htlt]
  exact ⟨rfl, rfl⟩

theorem land_tcdmMask {addr : Nat} (ha : addr < 2 ^ c.addrBits) :
    addr &&& c.tcdmMask = 0 := by
  refine Nat.eq_of_testBit_eq fun i => ?_
  rw [Nat.testBit_and, c.tcdmMask_eq, testBit_highMask (Nat.le_of_lt c.tcdmBits_lt),
    Nat.zero_testBit]
  by_cases hi : 2 + c.bBits + (c.gBits + c.tBits) + c.rBits ≤ i
  · rw [testBit_of_lt ha hi, Bool.false_and]
  · simp [hi]

/-- An L1 address is never sent to the SoC, and to the local port only in the
tile it lives in. -/
theorem snitchAddrDemux_l1 {group tile addr : Nat} (hg : group < c.numGroups)
    (ht : tile < c.numTilesPerGroup) (ha : addr < 2 ^ c.addrBits) :
    snitchAddrDemux (c.maskMap 0 (c.tileId group tile)) addr = .tcdmExternal ∨
    (snitchAddrDemux (c.maskMap 0 (c.tileId group tile)) addr = .tcdmLocal ∧
      slice addr (2 + c.bBits + c.tBits) c.gBits = group ∧
      slice addr (2 + c.bBits) c.tBits = tile) := by
  rw [snitchAddrDemux, Params.maskMap, byteOffset_eq, c.clog2_banks, List.find?_cons]
  split
  · rename_i rule hrule
    split at hrule
    · rename_i hmatch
      obtain rfl := Option.some.inj hrule
      exact .inr ⟨rfl, c.tile_of_local hg ht (beq_iff_eq.mp hmatch)⟩
    · rw [List.find?_cons_of_pos (by simp [c.land_tcdmMask ha])] at hrule
      obtain rfl := Option.some.inj hrule
      exact .inl rfl
  · exact .inl rfl

/-- The route of an access is the field decode of its scrambled address,
whichever tile it starts from. -/
theorem corePath_eq_place
    {li : LocalInterco c.numTilesPerGroup
      (c.tcdmAddrMemWidth + idxWidth c.numBanksPerTile)}
    {noc : Noc c.numGroups} {group tile : Nat} {req : CoreReq} {qaddr : Nat}
    (hg : group < c.numGroups) (ht : tile < c.numTilesPerGroup)
    (ha : addrScrambler (c.coreScrambler 0) qaddr < 2 ^ c.addrBits) :
    c.corePath 0 li noc group tile req qaddr =
      some (c.place (addrScrambler (c.coreScrambler 0) qaddr)) := by
  simp only [Params.corePath]
  rcases c.snitchAddrDemux_l1 hg ht ha with h | ⟨h, hgrp, htile⟩
  · rw [h]
    exact congrArg some (c.remotePath_eq_place hg)
  · simp only [h, c.localTgtAddr_eq, c.tileLoc_bankAddr]
    rw [← hgrp, ← htile]
    rfl

end L1Config

end TeraNoC.Hw
