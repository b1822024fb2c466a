import TeraNoC.Hw.AddrScrambler
import TeraNoC.Hw.BankInterco

/-!
# Where a core's access goes

The five decoding stages between a core's load/store unit and a bank, each in
the form its module has: the scrambler, the region rules of `snitch_addr_demux`,
the address slicing of `mempool_tile`, the group's routing (`i_local_interco`
inside the group, the network and the wrapper's tile crossbar outside of it),
and the bank select of the target tile. `corePath` is their composition.

Two of the stages instantiate modules that are not part of this repository:
the group's `variable_latency_interconnect` and the network of `floo_router`s.
They are the structures `LocalInterco` and `Noc`, whose fields state the
routing those modules document.
-/

namespace TeraNoC.Hw

open TeraNoC.Lib

/-- A word of the L1: group, tile of the group, bank of the tile, row. -/
structure Loc where
  group : Nat
  tile : Nat
  bank : Nat
  row : Nat
  deriving DecidableEq, Repr

inductive Slave where
  | tcdmExternal
  | tcdmLocal
  | soc
  deriving DecidableEq, Repr

structure AddressMap where
  slaveIdx : Slave
  mask : Nat
  value : Nat

/-- `addr_decoder`: the slave of the first rule that matches, slave 0 if none
does. -/
def snitchAddrDemux (addressMap : List AddressMap) (reqAddr : Nat) : Slave :=
  match addressMap.find? fun rule => reqAddr &&& rule.mask == rule.value with
  | some rule => rule.slaveIdx
  | none => .tcdmExternal

/-- What a request of core `core` carries that its route depends on. -/
structure CoreReq where
  core : Nat
  wen : Bool
  amoen : Bool

/-- `variable_latency_interconnect` with `ByteOffWidth = 0`: the low address
bits select the output, the bits above them leave through it. -/
structure LocalInterco (numOut addrMemWidth : Nat) where
  route : Nat → Nat × Nat
  route_eq : ∀ addr, route addr =
    (slice addr 0 (clog2 numOut), slice addr (clog2 numOut) addrMemWidth)

/-- The routing the group's interconnect documents. -/
def LocalInterco.direct (numOut addrMemWidth : Nat) : LocalInterco numOut addrMemWidth where
  route addr := (slice addr 0 (clog2 numOut), slice addr (clog2 numOut) addrMemWidth)
  route_eq _ := rfl

/-- `group_xy_id_t'({group_id, 1'b0})`. -/
def groupXyId (groupId : Nat) : Nat := concat groupId 0 1

/-- The mesh of routers: a flit leaves at the group whose router has the id it
is addressed to. -/
structure Noc (numGroups : Nat) where
  deliver : Nat → Nat
  deliver_groupXyId : ∀ g < numGroups, deliver (groupXyId g) = g

/-- A network that delivers to the router addressed. -/
def Noc.direct (numGroups : Nat) : Noc numGroups where
  deliver dst := dst / 2
  deliver_groupXyId g _ := by
    rw [groupXyId, concat]
    omega

namespace Params

variable (p : Params)

/-- `id` of `gen_tiles`: the tile's index in the cluster. -/
def tileId (group tile : Nat) : Nat := (group <<< clog2 p.numTilesPerGroup) ||| tile

/-- `mask_map`, highest priority first. -/
def maskMap (tcdmBaseAddr tileId : Nat) : List AddressMap :=
  [ { slaveIdx := .tcdmLocal
      mask := p.tcdmMask |||
        ((2 ^ idxWidth p.numTiles - 1) <<< (byteOffset + clog2 p.numBanksPerTile))
      value := tcdmBaseAddr ||| (tileId <<< (byteOffset + clog2 p.numBanksPerTile)) },
    { slaveIdx := .tcdmExternal, mask := p.tcdmMask, value := tcdmBaseAddr },
    { slaveIdx := .soc, mask := 0, value := 0 } ]

/-- `local_req_interco_payload.tgt_addr`. -/
def localTgtAddr (addr : Nat) : Nat :=
  slice
    (concat
      (slice addr (byteOffset + idxWidth p.numBanksPerTile + clog2 p.numTiles)
        p.tcdmAddrMemWidth)
      (slice addr byteOffset (idxWidth p.numBanksPerTile))
      (idxWidth p.numBanksPerTile))
    0 p.tcdmAddrWidth

/-- `remote_req_interco.tgt_addr`: tile and bank index are swapped. -/
def remoteTgtAddr (addr : Nat) : Nat :=
  if p.numTilesPerGroup = 1 then
    slice
      (concat
        (slice addr (byteOffset + idxWidth p.numBanksPerTile + clog2 p.numGroups)
          p.tcdmAddrMemWidth)
        (slice addr byteOffset (idxWidth p.numBanksPerTile))
        (idxWidth p.numBanksPerTile))
      0 p.tcdmAddrWidth
  else
    slice
      (concat
        (concat
          (slice addr
            (byteOffset + idxWidth p.numBanksPerTile + clog2 p.numTilesPerGroup +
              clog2 p.numGroups) p.tcdmAddrMemWidth)
          (slice addr byteOffset (idxWidth p.numBanksPerTile))
          (idxWidth p.numBanksPerTile))
        (slice addr (byteOffset + idxWidth p.numBanksPerTile)
          (clog2 p.numTilesPerGroup))
        (clog2 p.numTilesPerGroup))
      0 p.tcdmAddrWidth

/-- `tgt_group_id`. -/
def tgtGroupId (addr : Nat) : Nat :=
  if p.numGroups = 1 then 0
  else
    slice addr (byteOffset + clog2 p.numBanksPerTile + clog2 p.numTilesPerGroup)
      (clog2 p.numGroups)

/-- `mempool_tile_rw_demux`: the tile's port towards the target group. -/
def rwDemuxSel (group : Nat) (req : CoreReq) (addr : Nat) : Nat :=
  slice
    (if slice addr (byteOffset + clog2 p.numBanksPerTile + clog2 p.numTilesPerGroup)
          (clog2 p.numGroups) = group then 0
      else if p.numRdRemoteReqPortsPerTile > 0 ∨ p.numWrRemoteReqPortsPerTile > 0 then
        if !(req.wen || req.amoen) then
          1 + req.core %
            (p.numRdRemoteReqPortsPerTile + p.numRdWrRemoteReqPortsPerTile)
        else 1 + p.numRdRemoteReqPortsPerTile +
          req.core % p.numWideRemoteReqPortsPerTile
      else 1 + req.core % (p.numRemoteReqPortsPerTile - 1))
    0 (idxWidth p.numRemoteReqPortsPerTile)

/-- `remote_req_interco_tgt_sel`. -/
def remoteReqTgtSel (group : Nat) (req : CoreReq) (addr : Nat) : Nat :=
  if p.numGroups = 1 then 0 else p.rwDemuxSel group req addr

/-- `req_tile_sel` of the group wrapper. -/
def reqTileSel (tgtAddr : Nat) : Nat :=
  if p.numTilesPerGroup = 1 then 0
  else slice tgtAddr 0 (idxWidth p.numTilesPerGroup)

/-- `tcdm_slave_req.tgt_addr` of the group wrapper: without the tile offset. -/
def wrapperTgtAddr (tgtAddr : Nat) : Nat :=
  slice tgtAddr (if p.numTilesPerGroup = 1 then 0 else idxWidth p.numTilesPerGroup)
    (idxWidth p.numBanksPerTile + p.tcdmAddrMemWidth)

/-- The bank and the row a narrow request reaches inside its tile. -/
def tileLoc (group tile tgtAddr : Nat) : Loc where
  group := group
  tile := tile
  bank := p.bankInterco.narrowSel tgtAddr
  row := slice tgtAddr (idxWidth p.numBanksPerTile) p.tcdmAddrMemWidth

/-- The route of a request that leaves its tile: through port 0 to a tile of
the same group, through any other port to the network. -/
def remotePath
    (li : LocalInterco p.numTilesPerGroup
      (p.tcdmAddrMemWidth + idxWidth p.numBanksPerTile))
    (noc : Noc p.numGroups) (group : Nat) (req : CoreReq) (addr : Nat) : Loc :=
  let tgtAddr := p.remoteTgtAddr addr
  if p.remoteReqTgtSel group req addr = 0 then
    p.tileLoc group (li.route tgtAddr).1 (li.route tgtAddr).2
  else
    p.tileLoc (noc.deliver (groupXyId (p.tgtGroupId addr))) (p.reqTileSel tgtAddr)
      (p.wrapperTgtAddr tgtAddr)

/-- The word of the L1 that an access of a core of tile `tile` of group `group`
reaches, if it goes to the L1 at all. -/
def corePath (tcdmBaseAddr : Nat)
    (li : LocalInterco p.numTilesPerGroup
      (p.tcdmAddrMemWidth + idxWidth p.numBanksPerTile))
    (noc : Noc p.numGroups) (group tile : Nat) (req : CoreReq) (qaddr : Nat) :
    Option Loc :=
  let addr := addrScrambler (p.coreScrambler tcdmBaseAddr) qaddr
  match snitchAddrDemux (p.maskMap tcdmBaseAddr (p.tileId group tile)) addr with
  | .tcdmLocal => some (p.tileLoc group tile (p.localTgtAddr addr))
  | .tcdmExternal => some (p.remotePath li noc group req addr)
  | .soc => none

end Params

end TeraNoC.Hw
