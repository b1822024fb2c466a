import TeraNoC.Hw.Pkg
import TeraNoC.Hw.TcdmAdapter

/-!
# Who asks a bank

The requesters of a bank, the metadata the tile attaches to their requests, and
the identity the adapter's LR/SC logic computes from it. The metadata is filled
in at three places: the tile's own cores (`mempool_tile`), the slave ports of
other tiles (the group and its wrapper), and the wide fork of the DMA
(`mempool_tcdm_bank_interco`).
-/

namespace TeraNoC.Hw

open TeraNoC.Lib

inductive Hart where
  | localCore (core : Nat)
  | remoteCore (group tile core : Nat)
  | dma
  deriving DecidableEq, Repr

/-- A hart, the slave port its request comes in by if it is a remote one, and the
id of the request. -/
structure Origin where
  hart : Hart
  port : Nat
  metaId : Nat
  deriving DecidableEq, Repr

/-- `bank_metadata_t`. -/
structure BankMeta where
  iniAddr : Nat
  metaId : Nat
  groupId : Nat
  tileId : Nat
  coreId : Nat
  wide : Bool
  deriving DecidableEq, Repr

namespace Params

variable (p : Params)

/-- `meta_in` of a bank of a tile of group `groupId`. -/
def bankMeta (groupId : Nat) (o : Origin) : BankMeta :=
  match o.hart with
  | .localCore core =>
      { iniAddr := core, metaId := o.metaId, groupId := 0, tileId := 0, coreId := 0
        wide := false }
  | .remoteCore group tile core =>
      { iniAddr := p.numCoresPerTile + o.port, metaId := o.metaId, groupId := group
        tileId := tile, coreId := core, wide := false }
  | .dma =>
      { iniAddr := 0, metaId := 0, groupId := groupId, tileId := 0, coreId := 0
        wide := true }

def coreIdWidth : Nat := idxWidth p.numCores
def iniAddrWidth : Nat := idxWidth (p.numCoresPerTile + p.numRemoteReqPortsPerTile)
def localAddrWidth : Nat := idxWidth p.numCoresPerTile
def remotePortAddrWidth : Nat := p.iniAddrWidth - p.localAddrWidth

/-- `unique_core_id`, on `CoreIdWidth + 1` bits. -/
def uniqueCoreId (m : BankMeta) : Nat :=
  slice
    (if slice m.iniAddr (p.iniAddrWidth - p.localAddrWidth) p.localAddrWidth
          < p.numCoresPerTile then
      concat m.tileId (slice m.iniAddr 0 (p.iniAddrWidth - p.remotePortAddrWidth))
        (p.iniAddrWidth - p.remotePortAddrWidth)
    else
      concat
        (concat (slice m.iniAddr 0 (p.iniAddrWidth - p.remotePortAddrWidth)) m.tileId
          (idxWidth p.numTilesPerGroup))
        m.coreId (idxWidth p.numCoresPerTile))
    0 (p.coreIdWidth + 1)

/-- The adapter of a bank, with LR/SC, on requests that still know their origin. -/
def bankAdapter (groupId : Nat) : AdapterParams Origin where
  registerAmo := false
  lrScEnable := true
  uniqueCoreId o := p.uniqueCoreId (p.bankMeta groupId o)

end Params

end TeraNoC.Hw
