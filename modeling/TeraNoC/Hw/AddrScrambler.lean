import TeraNoC.Hw.Pkg

/-!
# The SPM address scrambler (`mempool_addr_scrambler`)

One combinational module with two gated transforms. Stage 1 swaps the tile
and the row fields of the sequential region, so that a tile's window becomes
rows of its own banks; stage 2 adds a row slice to the low tile-id bits of the
interleaved region. The cores instantiate it with both stages, the DMA path
of a group with stage 2 only.
-/

namespace TeraNoC.Hw

open TeraNoC.Lib

/-- The parameters of one instance. -/
structure ScramblerParams where
  byteOffset : Nat
  numTiles : Nat
  numTilesPerDma : Nat
  numBanksPerTile : Nat
  bypass : Bool
  seqMemSizePerTile : Nat
  tcdmBaseAddr : Nat
  tcdmMask : Nat
  enableSeqInterleaveSwap : Bool
  enableTileIdRemap : Bool

namespace ScramblerParams

variable (s : ScramblerParams)

def bankOffsetBits : Nat := clog2 s.numBanksPerTile
def tileIdBits : Nat := clog2 s.numTiles
def tileIdBitsPerDma : Nat := max 1 (clog2 s.numTilesPerDma)
def seqPerTileBits : Nat := clog2 s.seqMemSizePerTile
def seqTotalBits : Nat := s.seqPerTileBits + s.tileIdBits
def constantBitsLSB : Nat := s.byteOffset + s.bankOffsetBits
def scrambleBits : Nat := s.seqPerTileBits - s.constantBitsLSB

def spmTileIdRemap (dataIn idx : Nat) : Nat :=
  if s.enableTileIdRemap then (dataIn + idx) % 2 ^ s.tileIdBitsPerDma else dataIn

end ScramblerParams

def addrScrambler (s : ScramblerParams) (address : Nat) : Nat :=
  if s.bypass || s.numTiles < 2 then address
  else
    let scramble := slice address s.constantBitsLSB s.scrambleBits
    let tileId := slice address s.seqPerTileBits s.tileIdBits
    let notIoAddress := address &&& s.tcdmMask == s.tcdmBaseAddr
    if s.enableSeqInterleaveSwap && address < s.numTiles * s.seqMemSizePerTile then
      splice address s.constantBitsLSB (s.seqTotalBits - s.constantBitsLSB)
        (concat scramble tileId s.tileIdBits)
    else if s.enableTileIdRemap && notIoAddress &&
        address ≥ s.numTiles * s.seqMemSizePerTile then
      splice address s.constantBitsLSB s.tileIdBitsPerDma
        (s.spmTileIdRemap
          (slice address s.constantBitsLSB s.tileIdBitsPerDma)
          (slice address (s.constantBitsLSB + s.tileIdBits) s.tileIdBitsPerDma))
    else address

namespace Params

variable (p : Params)

/-- The instance in front of every core's `tcdm_shim`. -/
def coreScrambler (tcdmBaseAddr : Nat) : ScramblerParams where
  byteOffset := byteOffset
  numTiles := p.numTiles
  numTilesPerDma := p.numTilesPerDma
  numBanksPerTile := p.numBanksPerTile
  bypass := false
  seqMemSizePerTile := p.seqMemSizePerTile
  tcdmBaseAddr := tcdmBaseAddr
  tcdmMask := p.tcdmMask
  enableSeqInterleaveSwap := true
  enableTileIdRemap := p.tileIdRemap

/-- The instance `i_dma_addr_scrambler` of a group's DMA path. -/
def dmaScrambler (tcdmBaseAddr : Nat) : ScramblerParams :=
  { p.coreScrambler tcdmBaseAddr with enableSeqInterleaveSwap := false }

end Params

end TeraNoC.Hw
