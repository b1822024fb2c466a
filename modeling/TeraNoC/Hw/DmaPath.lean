import TeraNoC.Hw.AddrScrambler
import TeraNoC.Hw.BankInterco
import TeraNoC.Hw.CorePath

/-!
# Where a DMA beat goes

The way of a beat from a DMA backend to the banks (`mempool_group`): the
backend is the one the distributed midends choose for the address, the beat is
the bus-aligned address, the group's scrambler instance picks the tile among
those of the backend, and the tile's wide port spreads the words of the beat.
Row and bank are cut from the unscrambled address.
-/

namespace TeraNoC.Hw

open TeraNoC.Lib

namespace Params

variable (p : Params)

/-- Group and DMA of the backend that is sent the byte at `addr`. -/
def dmaBackend (addr : Nat) : Nat × Nat :=
  (addr / (p.numBanksPerGroup * 4) % p.numGroups,
    addr / (p.numBanksPerGroup * 4 / p.numDmasPerGroup) % p.numDmasPerGroup)

/-- Bytes of a beat. -/
def beatBytes : Nat := p.dmaDataWidth / 8

/-- The address of the beat that carries the byte at `addr`. -/
def beatAddr (addr : Nat) : Nat := addr - addr % p.beatBytes

/-- `tile_id_remap[d]`: the select of the demux among the tiles of a backend. -/
def dmaTileSel (tcdmBaseAddr beat : Nat) : Nat :=
  slice (addrScrambler (p.dmaScrambler tcdmBaseAddr) beat)
    (byteOffset + idxWidth p.numBanksPerTile) (idxWidth p.numTilesPerDma)

/-- `tgt_addr` of `tcdm_dma_req`. -/
def dmaTgtAddr (beat : Nat) : Nat :=
  concat
    (slice beat
      (byteOffset + idxWidth p.numBanksPerTile + clog2 p.numTilesPerGroup +
        clog2 p.numGroups) p.tcdmAddrMemWidth)
    (slice beat byteOffset (idxWidth p.numBanksPerTile)) (idxWidth p.numBanksPerTile)

/-- The word of the L1 that the word of a DMA beat at `addr` reaches. -/
def dmaPath (tcdmBaseAddr addr : Nat) : Loc :=
  let (group, d) := p.dmaBackend addr
  let beat := p.beatAddr addr
  let tgtAddr := p.dmaTgtAddr beat
  { group := group
    tile := d * p.numTilesPerDma +
      (if p.numTilesPerDma > 1 then p.dmaTileSel tcdmBaseAddr beat else 0)
    bank := p.bankInterco.wideBank tgtAddr (addr % p.beatBytes / 4)
    row := slice tgtAddr (idxWidth p.numBanksPerTile) p.tcdmAddrMemWidth }

end Params

end TeraNoC.Hw
