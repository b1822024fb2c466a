import TeraNoC.Lib.Bits

/-!
# The parameters of a cluster (`mempool_pkg`)

`Params` holds the `` `define`` macros of `mempool_pkg.sv` the modelled modules
read, and the functions under it are the package's derived `localparam`s, with
the package's own integer divisions. Nothing is assumed there: any numbers are
a `Params`.

`L1Config` is what a configuration has to satisfy before its L1 memory means
anything: the counts are powers of two, the sequential windows are powers of
two no smaller than one row of a tile (`config.mk` and the `$fatal` of the
address scrambler) and lie inside the tile's memory, and the whole L1 is
addressable with 32 bits; and every kind of access has a channel into the
network. The exponents are then the `$clog2` of the counts,
and the lemmas at the end of the file read every derived parameter off them.
-/

namespace TeraNoC.Hw

open TeraNoC.Lib

structure Params where
  numCores : Nat
  numCoresPerTile : Nat
  numGroups : Nat
  bankingFactor : Nat
  /-- `L1_BANK_SIZE`, in bytes. -/
  tcdmSizePerBank : Nat
  /-- `SEQ_MEM_SIZE`, in bytes. -/
  seqMemSizePerCore : Nat
  numDmasPerGroup : Nat
  axiDataWidth : Nat
  /-- `NOC_REQ_RD_CHANNEL_NUM`. -/
  numRdRemoteReqPortsPerTile : Nat
  /-- `NOC_REQ_RDWR_CHANNEL_NUM`. -/
  numRdWrRemoteReqPortsPerTile : Nat
  /-- `NOC_REQ_WR_CHANNEL_NUM`. -/
  numWrRemoteReqPortsPerTile : Nat
  numX : Nat
  tileIdRemap : Bool
  spmBankIdRemap : Bool

namespace Params

variable (p : Params)

def addrWidth : Nat := 32
def dataWidth : Nat := 32
def beWidth : Nat := dataWidth / 8
def byteOffset : Nat := clog2 beWidth

def numTiles : Nat := p.numCores / p.numCoresPerTile
def numTilesPerGroup : Nat := p.numTiles / p.numGroups
def numBanks : Nat := p.numCores * p.bankingFactor
def numBanksPerTile : Nat := p.numBanks / p.numTiles
def numBanksPerGroup : Nat := p.numBanks / p.numGroups
def tcdmAddrMemWidth : Nat := clog2 (p.tcdmSizePerBank / beWidth)
def tcdmAddrWidth : Nat := p.tcdmAddrMemWidth + idxWidth p.numBanksPerGroup

def numTilesPerDma : Nat := p.numTilesPerGroup / p.numDmasPerGroup
def dmaDataWidth : Nat := p.axiDataWidth
def dmaNumWords : Nat := p.dmaDataWidth / dataWidth
def numSuperbanks : Nat := p.numBanksPerTile / p.dmaNumWords
def dmaBurstLen : Nat := p.numBanksPerGroup / p.numDmasPerGroup / p.dmaNumWords

def numWideRemoteReqPortsPerTile : Nat :=
  p.numRdWrRemoteReqPortsPerTile + p.numWrRemoteReqPortsPerTile
def numRemoteReqPortsPerTile : Nat :=
  1 + p.numRdRemoteReqPortsPerTile + p.numWideRemoteReqPortsPerTile
def numY : Nat := p.numGroups / p.numX

def tcdmSize : Nat := p.numBanks * p.tcdmSizePerBank
def seqMemSizePerTile : Nat := p.numCoresPerTile * p.seqMemSizePerCore

/-- `~(TCDMSize - 1)` on 32 bits. -/
def tcdmMask : Nat := 2 ^ addrWidth - 1 - (p.tcdmSize - 1)

end Params

/-- A configuration with an L1 memory: power-of-two counts, sequential windows
that hold at least one row and fit the tile's memory, and an L1 that 32-bit
addresses reach. -/
structure L1Config extends Params where
  groups_pow : numGroups = 2 ^ clog2 numGroups
  coresPerTile_pow : numCoresPerTile = 2 ^ clog2 numCoresPerTile
  tilesPerGroup_pow : toParams.numTilesPerGroup = 2 ^ clog2 toParams.numTilesPerGroup
  cores_eq : numCores = numGroups * toParams.numTilesPerGroup * numCoresPerTile
  factor_pow : bankingFactor = 2 ^ clog2 bankingFactor
  rows_pow : tcdmSizePerBank = 4 * 2 ^ toParams.tcdmAddrMemWidth
  seq_pow : toParams.seqMemSizePerTile = 2 ^ clog2 toParams.seqMemSizePerTile
  /-- The scrambler's first `$fatal`. -/
  banks_two : 2 ≤ toParams.numBanksPerTile
  /-- The scrambler's second `$fatal`, for a power of two. -/
  seq_row : 4 * toParams.numBanksPerTile ≤ toParams.seqMemSizePerTile
  seq_fits : toParams.seqMemSizePerTile ≤ toParams.numBanksPerTile * tcdmSizePerBank
  l1_fits : toParams.tcdmSize < 2 ^ Params.addrWidth
  words_pow : axiDataWidth = 32 * 2 ^ clog2 toParams.dmaNumWords
  /-- The `$fatal` of the bank interconnect: no single-bank superbank. -/
  words_two : 2 ≤ toParams.dmaNumWords
  words_le : toParams.dmaNumWords ≤ toParams.numBanksPerTile
  /-- Loads and stores each have a channel into the network. -/
  rd_ports : 0 < numRdRemoteReqPortsPerTile + numRdWrRemoteReqPortsPerTile
  wide_ports : 0 < toParams.numWideRemoteReqPortsPerTile

namespace L1Config

variable (c : L1Config)

/-! ## The exponents -/

/-- Bits of a group index. -/
def gBits : Nat := clog2 c.numGroups
/-- Bits of a tile index within its group. -/
def tBits : Nat := clog2 c.numTilesPerGroup
/-- Bits of a bank index within its tile. -/
def bBits : Nat := clog2 c.numCoresPerTile + clog2 c.bankingFactor
/-- Bits of a row index within its bank. -/
def rBits : Nat := c.tcdmAddrMemWidth
/-- Bits of a word index within a DMA beat. -/
def wBits : Nat := clog2 c.dmaNumWords
/-- Bits of a tile's sequential window, counted in rows. -/
def sBits : Nat := clog2 c.seqMemSizePerTile - (2 + c.bBits)

theorem byteOffset_eq : Params.byteOffset = 2 := clog2_pow 2

theorem numGroups_eq : c.numGroups = 2 ^ c.gBits := c.groups_pow

theorem numTilesPerGroup_eq : c.numTilesPerGroup = 2 ^ c.tBits := c.tilesPerGroup_pow

theorem numCores_eq : c.numCores = 2 ^ (c.gBits + c.tBits) * c.numCoresPerTile := by
  rw [c.cores_eq, c.numGroups_eq, c.numTilesPerGroup_eq, ← Nat.pow_add]

theorem numTiles_eq : c.numTiles = 2 ^ (c.gBits + c.tBits) := by
  have hpos : 0 < c.numCoresPerTile := by
    rw [c.coresPerTile_pow]; exact Nat.two_pow_pos _
  rw [Params.numTiles, c.numCores_eq, Nat.mul_div_cancel _ hpos]

theorem numBanks_eq : c.numBanks = 2 ^ (c.gBits + c.tBits) * 2 ^ c.bBits := by
  rw [Params.numBanks, c.numCores_eq, Nat.mul_assoc, c.coresPerTile_pow, c.factor_pow,
    ← Nat.pow_add, bBits]

theorem numBanksPerTile_eq : c.numBanksPerTile = 2 ^ c.bBits := by
  rw [Params.numBanksPerTile, c.numBanks_eq, c.numTiles_eq,
    Nat.mul_div_cancel_left _ (Nat.two_pow_pos _)]

theorem numBanksPerGroup_eq : c.numBanksPerGroup = 2 ^ (c.tBits + c.bBits) := by
  rw [Params.numBanksPerGroup, c.numBanks_eq, c.numGroups_eq, Nat.pow_add, Nat.mul_assoc,
    Nat.mul_div_cancel_left _ (Nat.two_pow_pos _), ← Nat.pow_add]

theorem bBits_pos : c.bBits ≠ 0 := by
  intro h
  have := c.banks_two
  rw [c.numBanksPerTile_eq, h] at this
  omega

theorem tcdmSize_eq : c.tcdmSize = 2 ^ (2 + c.bBits + (c.gBits + c.tBits) + c.rBits) := by
  have h4 : (4 : Nat) = 2 ^ 2 := rfl
  rw [Params.tcdmSize, c.numBanks_eq, c.rows_pow, h4, ← Nat.pow_add, ← Nat.pow_add,
    ← Nat.pow_add, rBits]
  congr 1
  omega

theorem tcdmBits_lt : 2 + c.bBits + (c.gBits + c.tBits) + c.rBits < 32 := by
  have h := c.l1_fits
  rw [c.tcdmSize_eq] at h
  exact (Nat.pow_lt_pow_iff_right (by omega)).mp h

/-- A sequential window is `2 ^ sBits` rows of a tile. -/
theorem seqBits_eq : clog2 c.seqMemSizePerTile = 2 + c.bBits + c.sBits := by
  have hrow := c.seq_row
  have h4 : (4 : Nat) = 2 ^ 2 := rfl
  rw [c.seq_pow, c.numBanksPerTile_eq, h4, ← Nat.pow_add] at hrow
  have := (Nat.pow_le_pow_iff_right (by omega)).mp hrow
  rw [sBits]
  omega

theorem seqMemSizePerTile_eq : c.seqMemSizePerTile = 2 ^ (2 + c.bBits + c.sBits) := by
  rw [c.seq_pow, c.seqBits_eq]

theorem sBits_le : c.sBits ≤ c.rBits := by
  have hfit := c.seq_fits
  have h4 : (4 : Nat) = 2 ^ 2 := rfl
  rw [c.seqMemSizePerTile_eq, c.numBanksPerTile_eq, c.rows_pow, h4, ← Nat.pow_add,
    ← Nat.pow_add] at hfit
  have := (Nat.pow_le_pow_iff_right (by omega)).mp hfit
  simp only [rBits]
  omega

/-- The bytes of all sequential windows together. -/
theorem seqTotal_eq :
    c.numTiles * c.seqMemSizePerTile =
      2 ^ (2 + c.bBits + c.sBits + (c.gBits + c.tBits)) := by
  rw [c.numTiles_eq, c.seqMemSizePerTile_eq, ← Nat.pow_add, Nat.add_comm]

theorem dmaNumWords_eq : c.dmaNumWords = 2 ^ c.wBits := by
  have h : c.axiDataWidth / 32 = 2 ^ clog2 c.dmaNumWords := by
    rw [c.words_pow, Nat.mul_div_cancel_left _ (by omega)]
  exact h

theorem wBits_le : c.wBits ≤ c.bBits := by
  have h := c.words_le
  rw [c.dmaNumWords_eq, c.numBanksPerTile_eq] at h
  exact (Nat.pow_le_pow_iff_right (by omega)).mp h

theorem numSuperbanks_eq : c.numSuperbanks = 2 ^ (c.bBits - c.wBits) := by
  rw [Params.numSuperbanks, c.numBanksPerTile_eq, c.dmaNumWords_eq,
    Nat.pow_div c.wBits_le (by omega)]

/-- The mask keeps exactly the address bits above the L1. -/
theorem tcdmMask_eq :
    c.tcdmMask = 2 ^ 32 - 2 ^ (2 + c.bBits + (c.gBits + c.tBits) + c.rBits) := by
  have hpos := Nat.two_pow_pos (2 + c.bBits + (c.gBits + c.tBits) + c.rBits)
  rw [Params.tcdmMask, c.tcdmSize_eq, Params.addrWidth]
  omega

end L1Config

/-- A configuration whose groups share their tiles evenly among the DMAs. -/
structure DmaConfig extends L1Config where
  dmas_pow : numDmasPerGroup = 2 ^ clog2 numDmasPerGroup
  dmas_le : numDmasPerGroup ≤ toParams.numTilesPerGroup

namespace DmaConfig

variable (c : DmaConfig)

/-- Bits of a DMA index within its group. -/
def dBits : Nat := clog2 c.numDmasPerGroup

theorem numDmasPerGroup_eq : c.numDmasPerGroup = 2 ^ c.dBits := c.dmas_pow

theorem dBits_le : c.dBits ≤ c.tBits := by
  have h := c.dmas_le
  rw [c.numDmasPerGroup_eq, c.numTilesPerGroup_eq] at h
  exact (Nat.pow_le_pow_iff_right (by omega)).mp h

theorem numTilesPerDma_eq : c.numTilesPerDma = 2 ^ (c.tBits - c.dBits) := by
  rw [Params.numTilesPerDma, c.numTilesPerGroup_eq, c.numDmasPerGroup_eq,
    Nat.pow_div c.dBits_le (by omega)]

/-- The bytes of one row of a group. -/
theorem groupBytes_eq :
    c.numBanksPerGroup * 4 = 2 ^ (2 + c.bBits + (c.tBits - c.dBits) + c.dBits) := by
  have hd := c.dBits_le
  rw [c.numBanksPerGroup_eq, show (4 : Nat) = 2 ^ 2 from rfl, ← Nat.pow_add]
  congr 1
  omega

/-- The bytes of one row of the tiles of a DMA. -/
theorem dmaBytes_eq :
    c.numBanksPerGroup * 4 / c.numDmasPerGroup
      = 2 ^ (2 + c.bBits + (c.tBits - c.dBits)) := by
  rw [c.groupBytes_eq, c.numDmasPerGroup_eq, Nat.pow_add _ _ c.dBits,
    Nat.mul_div_cancel _ (Nat.two_pow_pos _)]

/-- One row of the tiles of a DMA, counted in beats. -/
theorem dmaBurstLen_eq :
    c.dmaBurstLen = 2 ^ (c.bBits + (c.tBits - c.dBits) - c.wBits) := by
  have hd := c.dBits_le
  have hw := c.wBits_le
  rw [Params.dmaBurstLen, c.numBanksPerGroup_eq, c.numDmasPerGroup_eq, c.dmaNumWords_eq,
    Nat.pow_div (by omega) (by omega), Nat.pow_div (by omega) (by omega)]
  congr 1
  omega

end DmaConfig

theorem four_pow : 4 = 2 ^ clog2 4 := by decide

/-- `config/minpool.mk`, with either remap. -/
def minpool (tileIdRemap spmBankIdRemap : Bool) : DmaConfig where
  numCores := 16
  numCoresPerTile := 4
  numGroups := 4
  bankingFactor := 4
  tcdmSizePerBank := 1024
  seqMemSizePerCore := 512
  numDmasPerGroup := 1
  axiDataWidth := 256
  numRdRemoteReqPortsPerTile := 0
  numRdWrRemoteReqPortsPerTile := 1
  numWrRemoteReqPortsPerTile := 0
  numX := 2
  tileIdRemap := tileIdRemap
  spmBankIdRemap := spmBankIdRemap
  groups_pow := by decide
  coresPerTile_pow := by decide
  tilesPerGroup_pow := by decide +revert
  cores_eq := by decide +revert
  factor_pow := by decide
  rows_pow := by decide +revert
  seq_pow := by decide +revert
  banks_two := by decide +revert
  seq_row := by decide +revert
  seq_fits := by decide +revert
  l1_fits := by decide +revert
  words_pow := by decide +revert
  words_two := by decide +revert
  words_le := by decide +revert
  rd_ports := by decide
  wide_ports := by decide +revert
  dmas_pow := by decide
  dmas_le := by decide +revert

end TeraNoC.Hw
