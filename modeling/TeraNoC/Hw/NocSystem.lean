import TeraNoC.Hw.CorePath
import TeraNoC.Hw.BankMetadata
import TeraNoC.Proofs.TcdmAdapter

/-!
# The path of a remote access, there and back

What happens to a request between the core that issues it and the response that
core gets, in the order the hardware does it: the tile picks a port
(`mempool_tile_rw_demux`), the group wrapper packs a flit and picks a router
channel (`floo_remapper`), the routers carry it to the group its `dst_id` names,
the wrapper there unpacks it and hands it to a tile, the tile hands it to a bank,
and the answer is packed, remapped, carried and unpacked once more. A request to
another tile of the same group takes port 0 and the group's own interconnect
both ways.

Every request in flight is at one `Stage`; an action of the system moves one of
them to its next stage, issues a new one, or is a clock edge, at which the
remappers turn. The order of the actions is free, so every latency, every
arbitration and every back-pressure is a run. A request carries its number in
issue order; nothing the hardware computes depends on it. A bank executes what
it accepts in the order it accepts it, as `specExec`, which the bank adapter
refines.
-/

namespace TeraNoC.Hw

open TeraNoC.Lib

/-- A configuration with a network: the mesh covers the groups, there is a
response channel, the remappers satisfy their elaboration checks, and narrow
channels come in the one combination the wrapper is wired for. -/
structure NocConfig extends L1Config where
  /-- `1 + NOC_RESP_CHANNEL_NUM`. -/
  numRemoteRespPortsPerTile : Nat
  nocRouterRemapping : Nat
  routerRemapGroupSize : Nat
  mesh_eq : numX * toParams.numY = numGroups
  resp_ports : 2 ≤ numRemoteRespPortsPerTile
  /-- The third check of `floo_remapper`, and that its rotation has two elements. -/
  remap_pow : ∃ k, routerRemapGroupSize = 2 ^ (k + 1)
  /-- The second check of `floo_remapper`, on the request side. -/
  remap_req : nocRouterRemapping = 1 ∨ nocRouterRemapping = 3 → routerRemapGroupSize ∣
    toParams.numTilesPerGroup * toParams.numWideRemoteReqPortsPerTile
  /-- The same check on the response side. -/
  remap_resp : nocRouterRemapping = 2 ∨ nocRouterRemapping = 3 → routerRemapGroupSize ∣
    toParams.numTilesPerGroup * (numRemoteRespPortsPerTile - 1)
  /-- "For now, only support 1 narrow + 1 wide, or all wide": the wiring between
  routers and crossbar with narrow channels is written out for blocks of four. -/
  narrow_wired : numRdRemoteReqPortsPerTile ≠ 0 →
    numRdRemoteReqPortsPerTile = 1 ∧ toParams.numWideRemoteReqPortsPerTile = 1 ∧
      routerRemapGroupSize = 4 ∧ 4 ∣ toParams.numTilesPerGroup

/-- `config/terapool.mk`, with two wide request channels (`baseline`) or one narrow
and one wide (`narrow`). -/
def terapool (narrow : Bool) : NocConfig where
  numCores := 1024
  numCoresPerTile := 4
  numGroups := 16
  bankingFactor := 4
  tcdmSizePerBank := 1024
  seqMemSizePerCore := 512
  numDmasPerGroup := 1
  axiDataWidth := 512
  numRdRemoteReqPortsPerTile := narrow.toNat
  numRdWrRemoteReqPortsPerTile := 2 - narrow.toNat
  numWrRemoteReqPortsPerTile := 0
  numX := 4
  tileIdRemap := false
  spmBankIdRemap := false
  groups_pow := by decide
  coresPerTile_pow := four_pow
  tilesPerGroup_pow := by decide +revert
  cores_eq := by decide +revert
  factor_pow := four_pow
  rows_pow := by decide +revert
  seq_pow := by decide +revert
  banks_two := by decide +revert
  seq_row := by decide +revert
  seq_fits := by decide +revert
  l1_fits := by decide +revert
  words_pow := by decide +revert
  words_two := by decide +revert
  words_le := by decide +revert
  rd_ports := by decide +revert
  wide_ports := by decide +revert
  numRemoteRespPortsPerTile := 3
  nocRouterRemapping := 3
  routerRemapGroupSize := 4
  mesh_eq := by decide +revert
  resp_ports := by decide
  remap_pow := ⟨1, rfl⟩
  remap_req := by decide +revert
  remap_resp := by decide +revert
  narrow_wired := by decide +revert

/-! ## Messages -/

structure HartId where
  group : Nat
  tile : Nat
  core : Nat
  deriving DecidableEq, Repr

/-- `dreq_t`, as the load/store unit of a core presents it. -/
structure DataReq where
  addr : Nat
  write : Bool
  amo : AmoOp
  data : Word
  strb : BitVec 4
  id : Nat
  deriving DecidableEq, Repr

/-- A request on its way to a bank and the hart it comes from. -/
structure Issued where
  hart : HartId
  req : DataReq
  deriving DecidableEq, Repr

/-- `tcdm_master_req_t`. -/
structure MasterReq where
  metaId : Nat
  coreId : Nat
  amo : AmoOp
  data : Word
  wen : Bool
  be : BitVec 4
  tgtGroupId : Nat
  tgtAddr : Nat
  deriving DecidableEq, Repr

/-- `floo_tcdm_req_meta_t`. -/
structure ReqMeta where
  metaId : Nat
  coreId : Nat
  srcTileId : Nat
  srcId : Nat
  dstId : Nat
  tgtAddr : Nat
  deriving DecidableEq, Repr

/-- `floo_tcdm_req_payload_t`. -/
structure ReqPayload where
  amo : AmoOp
  wen : Bool
  be : BitVec 4
  data : Word
  deriving DecidableEq, Repr

/-- A flit of a request channel: of a narrow one (`floo_tcdm_rd_req_t`) the
header alone, of a wide one (`floo_tcdm_rdwr_req_t`) header and payload. -/
structure ReqFlit where
  hdr : ReqMeta
  payload : Option ReqPayload
  deriving DecidableEq, Repr

/-- `tcdm_slave_req_t`. -/
structure SlaveReq where
  metaId : Nat
  coreId : Nat
  amo : AmoOp
  data : Word
  wen : Bool
  be : BitVec 4
  tgtAddr : Nat
  iniAddr : Nat
  srcGroupId : Nat
  deriving DecidableEq, Repr

/-- `tcdm_slave_resp_t`. -/
structure SlaveResp where
  metaId : Nat
  coreId : Nat
  data : Word
  iniAddr : Nat
  srcGroupId : Nat
  deriving DecidableEq, Repr

/-- `floo_tcdm_resp_t`. -/
structure RespFlit where
  metaId : Nat
  coreId : Nat
  tileId : Nat
  srcId : Nat
  dstId : Nat
  data : Word
  deriving DecidableEq, Repr

/-- `tcdm_master_resp_t`. -/
structure MasterResp where
  metaId : Nat
  coreId : Nat
  data : Word
  deriving DecidableEq, Repr

/-- A router channel: the tile and the port the routers belong to. -/
structure Channel where
  narrow : Bool
  tile : Nat
  idx : Nat
  deriving DecidableEq, Repr

/-- Where a request or its response is. -/
inductive Stage where
  /-- In the master request register of a tile. -/
  | master (group tile port : Nat) (m : MasterReq)
  /-- In the routers of a request channel, entered at group `src`. -/
  | router (ch : Channel) (src : Nat) (f : ReqFlit)
  /-- In a slave request register of the target tile. -/
  | slave (group tile port : Nat) (q : SlaveReq)
  /-- Accepted by a bank. -/
  | bank (group tile bank : Nat) (m : BankMeta) (data : Word)
  /-- In a slave response register. -/
  | slaveResp (group tile port : Nat) (r : SlaveResp)
  | respRouter (ch : Channel) (src : Nat) (f : RespFlit)
  /-- In a master response register of a tile. -/
  | masterResp (group tile port : Nat) (r : MasterResp)
  /-- At the response port of a core. -/
  | core (hart : HartId) (metaId : Nat) (data : Word)
  deriving DecidableEq, Repr

/-! ## The remapper (`floo_remapper`) -/

/-- `sel_q` after reset: the even outputs, then the odd ones. -/
def selReset (groupSize i : Nat) : Nat :=
  if i < groupSize / 2 then i * 2 else i * 2 - groupSize + 1

/-- `sel_d`: `sel_q` turned by one. -/
def selNext (groupSize : Nat) (selQ : Nat → Nat) (i : Nat) : Nat :=
  if i = groupSize - 1 then selQ 0 else selQ (i + 1)

/-- The output an input of an interleaved remapper is connected to. -/
def remap (groupSize numInp : Nat) (selQ : Nat → Nat) (inp : Nat) : Nat :=
  let numGroup := numInp / groupSize
  inp % numGroup * groupSize + selQ (inp / numGroup)

namespace NocConfig

variable (c : NocConfig)

def numIntOutstandingLoads : Nat := 8

/-- `USE_NARROW_REQ_CHANNEL`, which the Makefile sets with the first read channel. -/
def useNarrowReqChannel : Bool := c.numRdRemoteReqPortsPerTile ≠ 0

def reqRemapping : Bool := c.nocRouterRemapping = 1 ∨ c.nocRouterRemapping = 3
def respRemapping : Bool := c.nocRouterRemapping = 2 ∨ c.nocRouterRemapping = 3

/-! ## The tile, outwards -/

/-- The address past the scrambler. -/
def scrambled (r : DataReq) : Nat := addrScrambler (c.coreScrambler 0) r.addr

/-- The address rules send the access to the port for other tiles. -/
def Remote (x : Issued) : Prop :=
  snitchAddrDemux (c.maskMap 0 (c.tileId x.hart.group x.hart.tile)) (c.scrambled x.req)
    = .tcdmExternal

instance (x : Issued) : Decidable (c.Remote x) := inferInstanceAs (Decidable (_ = _))

/-- `remote_req_interco`. -/
def masterReq (x : Issued) : MasterReq where
  metaId := x.req.id
  coreId := slice x.hart.core 0 (idxWidth c.numCoresPerTile)
  amo := x.req.amo
  data := x.req.data
  wen := x.req.write
  be := x.req.strb
  tgtGroupId := c.tgtGroupId (c.scrambled x.req)
  tgtAddr := c.remoteTgtAddr (c.scrambled x.req)

/-- `remote_req_interco_tgt_sel`; an atomic counts as a write. -/
def masterPort (x : Issued) : Nat :=
  c.remoteReqTgtSel x.hart.group
    { core := x.hart.core, wen := x.req.write, amoen := x.req.amo ≠ .none }
    (c.scrambled x.req)

/-! ## The group wrapper, outwards -/

/-- `group_xy_id_t'({group_id, 1'b0})`, on the bits of the packed coordinates. -/
def xyId (groupId : Nat) : Nat :=
  slice (groupXyId groupId) 0 (idxWidth c.numX + idxWidth c.numY + 1)

/-- `group_id_t'({src_id.x, src_id.y})`. -/
def groupOfXyId (xyId : Nat) : Nat :=
  slice
    (concat (slice xyId (1 + idxWidth c.numY) (idxWidth c.numX))
      (slice xyId 1 (idxWidth c.numY)) (idxWidth c.numY))
    0 (idxWidth c.numGroups)

def reqMeta (group tile : Nat) (m : MasterReq) : ReqMeta where
  metaId := m.metaId
  coreId := m.coreId
  srcTileId := slice tile 0 (idxWidth c.numTilesPerGroup)
  srcId := c.xyId group
  dstId := c.xyId m.tgtGroupId
  tgtAddr := m.tgtAddr

/-- The flit of a master request: the ports of the narrow channels come first. -/
def reqFlit (group tile port : Nat) (m : MasterReq) : ReqFlit where
  hdr := c.reqMeta group tile m
  payload :=
    if port < 1 + c.numRdRemoteReqPortsPerTile then none
    else some { amo := m.amo, wen := m.wen, be := m.be, data := m.data }

/-- The output of a remapper over `ports` channels for each tile. -/
def remapChannel (narrow : Bool) (ports : Nat) (selQ : Nat → Nat) (tile idx : Nat) : Channel :=
  let out := remap c.routerRemapGroupSize (c.numTilesPerGroup * ports) selQ (tile * ports + idx)
  { narrow := narrow, tile := out / ports, idx := out % ports }

/-- The router channel that takes a request of port `port` of tile `tile`. -/
def reqChannel (selQ : Nat → Nat) (tile port : Nat) : Channel :=
  if port < 1 + c.numRdRemoteReqPortsPerTile then
    if c.reqRemapping then
      c.remapChannel true c.numRdRemoteReqPortsPerTile selQ tile (port - 1)
    else { narrow := true, tile := tile, idx := port - 1 }
  else
    if c.reqRemapping then
      c.remapChannel false c.numWideRemoteReqPortsPerTile selQ tile
        (port - (1 + c.numRdRemoteReqPortsPerTile))
    else { narrow := false, tile := tile, idx := port - (1 + c.numRdRemoteReqPortsPerTile) }

/-! ## The group wrapper, inwards -/

/-- The position of a channel among the crossbar inputs before the interleaving. -/
def routerPort (ch : Channel) : Nat :=
  if ch.narrow then 1 + ch.idx else 1 + c.numRdRemoteReqPortsPerTile + ch.idx

/-- `floo_tcdm_req_from_router`: the crossbar input (tile and port) that a router
drives. -/
def fromRouter (tile port : Nat) : Nat × Nat :=
  if c.useNarrowReqChannel then
    let base := tile / c.routerRemapGroupSize * c.routerRemapGroupSize
    match tile % c.routerRemapGroupSize, port with
    | 0, 1 => (base, 1)
    | 1, 1 => (base, 2)
    | 2, 1 => (base + 1, 1)
    | 3, 1 => (base + 1, 2)
    | 0, 2 => (base + 2, 1)
    | 1, 2 => (base + 2, 2)
    | 2, 2 => (base + 3, 1)
    | _, _ => (base + 3, 2)
  else (tile, port)

/-- The slave port behind a router channel. -/
def slavePort (ch : Channel) : Nat := (c.fromRouter ch.tile (c.routerPort ch)).2

/-- `tcdm_slave_req` of the wrapper; the payload of a narrow flit is all zeros. -/
def slaveReq (f : ReqFlit) : SlaveReq :=
  let payload := f.payload.getD { amo := .none, wen := false, be := 0, data := 0 }
  { metaId := f.hdr.metaId
    coreId := f.hdr.coreId
    amo := payload.amo
    data := payload.data
    wen := payload.wen
    be := payload.be
    tgtAddr := c.wrapperTgtAddr f.hdr.tgtAddr
    iniAddr := f.hdr.srcTileId
    srcGroupId := c.groupOfXyId f.hdr.srcId }

/-- The slave request behind the group's own interconnect, from input `tile`. -/
def localSlaveReq (group tile tgtAddr : Nat) (m : MasterReq) : SlaveReq where
  metaId := m.metaId
  coreId := m.coreId
  amo := m.amo
  data := m.data
  wen := m.wen
  be := m.be
  tgtAddr := tgtAddr
  iniAddr := tile
  srcGroupId := group

/-! ## The bank -/

/-- `meta_in` of a slave request that comes in by `port`. -/
def slaveMeta (port : Nat) (q : SlaveReq) : BankMeta where
  iniAddr := c.numCoresPerTile + port
  metaId := q.metaId
  groupId := q.srcGroupId
  tileId := q.iniAddr
  coreId := q.coreId
  wide := false

def bankReq (port : Nat) (q : SlaveReq) : BankReq Nat BankMeta where
  address := slice q.tgtAddr (idxWidth c.numBanksPerTile) c.tcdmAddrMemWidth
  amo := q.amo
  write := q.wen
  wdata := q.data
  be := q.be
  metadata := c.slaveMeta port q

def remoteBankAdapter : AdapterParams BankMeta where
  registerAmo := false
  lrScEnable := true
  uniqueCoreId := c.uniqueCoreId

/-- `bank_resp_payload`. -/
def bankResp (m : BankMeta) (data : Word) : SlaveResp where
  metaId := m.metaId
  coreId := m.coreId
  data := data
  iniAddr := m.tileId
  srcGroupId := m.groupId

/-! ## The tile's response port -/

/-- `bank_resp_payload_raw`. -/
def respRaw (r : SlaveResp) : Nat :=
  concat
    (concat
      (concat (concat (concat r.metaId r.coreId (idxWidth c.numCoresPerTile)) 0 4)
        r.data.toNat 32)
      r.iniAddr (idxWidth c.numTilesPerGroup))
    r.srcGroupId (idxWidth c.numGroups)

def hashWidth : Nat := clog2 (c.numRemoteRespPortsPerTile - 1) + 2
def hashBinningStep : Nat := 2 ^ c.hashWidth / (c.numRemoteRespPortsPerTile - 1)

/-- `{a, b, c, d}`. -/
def nibble (a b d e : Bool) : Nat := 8 * a.toNat + 4 * b.toNat + 2 * d.toNat + e.toNat

def respHash (r : SlaveResp) : Nat :=
  if c.hashWidth = 4 then
    nibble (r.coreId.testBit 0) (r.coreId.testBit 1) (r.srcGroupId.testBit 0)
        (r.srcGroupId.testBit 2) ^^^
      nibble (r.iniAddr.testBit 2) (r.srcGroupId.testBit 3) (r.iniAddr.testBit 0)
        (r.iniAddr.testBit 1)
  else
    slice (c.respRaw r) 0 c.hashWidth ^^^ slice (c.respRaw r) c.hashWidth c.hashWidth

/-- The width of `local_resp_interco_addr_t`. -/
def respAddrWidth : Nat := idxWidth (c.numCoresPerTile + c.numRemoteRespPortsPerTile)

/-- `a - d` on `w` bits. -/
def subBits (a d w : Nat) : Nat := slice (a + 2 ^ w * d - d) 0 w

/-- `superbank_resp_ini_addr`: the output of the response crossbar. -/
def respIniAddr (m : BankMeta) (r : SlaveResp) : Nat :=
  let bankRespIniAddr := slice m.iniAddr 0 c.respAddrWidth
  if c.numRemoteReqPortsPerTile > c.numRemoteRespPortsPerTile then
    if bankRespIniAddr > c.numCoresPerTile + c.numRemoteRespPortsPerTile - 1 then
      subBits bankRespIniAddr
        (c.numRemoteReqPortsPerTile - c.numRemoteRespPortsPerTile) c.respAddrWidth
    else bankRespIniAddr
  else if c.numRemoteReqPortsPerTile = c.numRemoteRespPortsPerTile then bankRespIniAddr
  else if bankRespIniAddr > c.numCoresPerTile then
    (List.range' 1 (c.numRemoteRespPortsPerTile - 2)).foldl
      (fun sel i => if c.respHash r ≥ i * c.hashBinningStep then c.numCoresPerTile + 1 + i else sel)
      (c.numCoresPerTile + 1)
  else bankRespIniAddr

/-! ## The way back -/

def respFlit (group : Nat) (r : SlaveResp) : RespFlit where
  metaId := r.metaId
  coreId := r.coreId
  tileId := r.iniAddr
  srcId := c.xyId group
  dstId := c.xyId r.srcGroupId
  data := r.data

def respChannel (selQ : Nat → Nat) (tile port : Nat) : Channel :=
  if c.respRemapping then
    c.remapChannel false (c.numRemoteRespPortsPerTile - 1) selQ tile (port - 1)
  else { narrow := false, tile := tile, idx := port - 1 }

/-- `resp_tile_sel`. -/
def respTileSel (f : RespFlit) : Nat := if c.numTilesPerGroup = 1 then 0 else f.tileId

/-! ## One move -/

abbrev Interco : Type :=
  LocalInterco c.numTilesPerGroup (c.tcdmAddrMemWidth + idxWidth c.numBanksPerTile)

/-- The next stage, of which there is none after the core. `rdata` is the answer of
the bank to a request it accepts in this move. The group's own interconnect returns
a response to the input that `ini_addr` names. -/
def advance (li : c.Interco) (noc : Noc c.numGroups) (selQ : Nat → Nat) (rdata : Word) :
    Stage → Option Stage
  | .master group tile port m =>
      if port = 0 then
        let out := li.route m.tgtAddr
        some (.slave group out.1 0 (localSlaveReq group tile out.2 m))
      else
        some (.router (c.reqChannel selQ tile port) group (c.reqFlit group tile port m))
  | .router ch _ f =>
      some (.slave (noc.deliver f.hdr.dstId) (c.reqTileSel f.hdr.tgtAddr) (c.slavePort ch)
        (c.slaveReq f))
  | .slave group tile port q =>
      some (.bank group tile (c.bankInterco.narrowSel q.tgtAddr) (c.slaveMeta port q) rdata)
  | .bank group tile _ m data =>
      let resp := bankResp m data
      let sel := c.respIniAddr m resp
      if sel < c.numCoresPerTile then
        some (.core { group := group, tile := tile, core := sel } m.metaId data)
      else some (.slaveResp group tile (sel - c.numCoresPerTile) resp)
  | .slaveResp group tile port r =>
      if port = 0 then
        some (.masterResp group r.iniAddr 0
          { metaId := r.metaId, coreId := r.coreId, data := r.data })
      else some (.respRouter (c.respChannel selQ tile port) group (c.respFlit group r))
  | .respRouter ch _ f =>
      some (.masterResp (noc.deliver f.dstId) (c.respTileSel f) (1 + ch.idx)
        { metaId := f.metaId, coreId := f.coreId, data := f.data })
  | .masterResp group tile _ r =>
      some (.core { group := group, tile := tile, core := r.coreId } r.metaId r.data)
  | .core _ _ _ => none

end NocConfig

/-! ## The system -/

/-- A request or response in flight; `txn` is the number of the request. -/
structure Item where
  txn : Nat
  stage : Stage
  deriving DecidableEq, Repr

/-- A request as its bank accepts it. -/
structure Accepted where
  txn : Nat
  loc : Loc
  req : BankReq Nat BankMeta
  result : Option Word

/-- A response as its core takes it. -/
structure Answer where
  txn : Nat
  hart : HartId
  metaId : Nat
  data : Word
  deriving DecidableEq, Repr

structure NocState where
  selQ : Nat → Nat
  /-- The ids the load/store units have given out. -/
  busy : HartId → Nat → Bool
  issued : List Issued
  flight : List Item
  accepted : List Accepted
  answered : List Answer

inductive Action where
  /-- A clock edge. -/
  | tick
  | issue (x : Issued)
  /-- The item at this position of the list of items in flight moves on. -/
  | move (i : Nat)
  deriving DecidableEq, Repr

namespace NocConfig

variable (c : NocConfig)

def reset : NocState where
  selQ := selReset c.routerRemapGroupSize
  busy := fun _ _ => false
  issued := []
  flight := []
  accepted := []
  answered := []

/-- A core can issue a remote access under an id that is not out. -/
def CanIssue (s : NocState) (x : Issued) : Prop :=
  x.hart.group < c.numGroups ∧ x.hart.tile < c.numTilesPerGroup ∧
    x.hart.core < c.numCoresPerTile ∧ c.Remote x ∧
    x.req.id < numIntOutstandingLoads ∧ s.busy x.hart x.req.id = false

instance (s : NocState) (x : Issued) : Decidable (c.CanIssue s x) :=
  inferInstanceAs (Decidable (_ ∧ _ ∧ _ ∧ _ ∧ _ ∧ _))

/-- A bank after the requests of a log. -/
def bankState (mem : Loc → Word) (log : List Accepted) (group tile bank : Nat) :
    SpecState Nat :=
  specState c.remoteBankAdapter
    { mem := fun row => mem { group := group, tile := tile, bank := bank, row := row }
      resv := { valid := false, addr := 0, core := 0 } }
    ((log.filter fun e =>
      e.loc.group == group && e.loc.tile == tile && e.loc.bank == bank).map (·.req))

/-- What the bank logs when an item enters it. -/
def acceptance (mem : Loc → Word) (log : List Accepted) (it : Item) : Option Accepted :=
  match it.stage with
  | .slave group tile port q =>
      let loc := c.tileLoc group tile q.tgtAddr
      let req := c.bankReq port q
      some
        { txn := it.txn, loc := loc, req := req
          result := (specExec c.remoteBankAdapter (c.bankState mem log group tile loc.bank) req).2 }
  | _ => none

section Run

variable (li : c.Interco) (noc : Noc c.numGroups) (mem : Loc → Word)

def moveItem (s : NocState) (i : Nat) (it : Item) : NocState :=
  let entry := c.acceptance mem s.accepted it
  match c.advance li noc s.selQ ((entry.bind (·.result)).getD 0) it.stage with
  | some stage =>
      { s with
        flight := s.flight.eraseIdx i ++ [{ txn := it.txn, stage := stage }]
        accepted := s.accepted ++ entry.toList }
  | none =>
      match it.stage with
      | .core hart metaId data =>
          { s with
            flight := s.flight.eraseIdx i
            answered := s.answered ++
              [{ txn := it.txn, hart := hart, metaId := metaId, data := data }]
            busy := fun h id => if h = hart ∧ id = metaId then false else s.busy h id }
      | _ => s

/-- One action. An item waits for those before it that `blocks` says it cannot
pass; an action that is not possible changes nothing. -/
def step (blocks : Stage → Stage → Bool) (s : NocState) : Action → NocState
  | .tick => { s with selQ := selNext c.routerRemapGroupSize s.selQ }
  | .issue x =>
      if c.CanIssue s x then
        { s with
          busy := fun h id => if h = x.hart ∧ id = x.req.id then true else s.busy h id
          issued := s.issued ++ [x]
          flight := s.flight ++
            [{ txn := s.issued.length
               stage := .master x.hart.group x.hart.tile (c.masterPort x) (c.masterReq x) }] }
      else s
  | .move i =>
      match s.flight[i]? with
      | some it =>
          if (s.flight.take i).any (fun other => blocks other.stage it.stage) then s
          else c.moveItem li noc mem s i it
      | none => s

/-- The state after the first `t` actions of a run. -/
def after (blocks : Stage → Stage → Bool) (acts : Nat → Action) : Nat → NocState
  | 0 => c.reset
  | t + 1 => c.step li noc mem blocks (after blocks acts t) (acts t)

end Run

end NocConfig

/-! ## Queues -/

/-- What keeps its items in order: a register, a bank, a response port, and a router
channel for the flits of one source and one destination. -/
inductive Queue where
  | master (group tile port : Nat)
  | router (ch : Channel) (src dst : Nat)
  | slave (group tile port : Nat)
  | bank (group tile bank : Nat)
  | slaveResp (group tile port : Nat)
  | respRouter (ch : Channel) (src dst : Nat)
  | masterResp (group tile port : Nat)
  | core (hart : HartId)
  deriving DecidableEq, Repr

def Stage.queue : Stage → Queue
  | .master group tile port _ => .master group tile port
  | .router ch src f => .router ch src f.hdr.dstId
  | .slave group tile port _ => .slave group tile port
  | .bank group tile b _ _ => .bank group tile b
  | .slaveResp group tile port _ => .slaveResp group tile port
  | .respRouter ch src f => .respRouter ch src f.dstId
  | .masterResp group tile port _ => .masterResp group tile port
  | .core hart _ _ => .core hart

/-- Every queue is first in, first out. -/
def inOrder (x y : Stage) : Bool := x.queue = y.queue

end TeraNoC.Hw
