import TeraNoC.Proofs.CorePath
import TeraNoC.Proofs.ResponsePort
import TeraNoC.Lib.Transit
import TeraNoC.Lib.Progress

/-!
# A remote access reaches its bank once and is answered once

`OnPath` says what a stage has to hold to be a stage of a given request: where it
is, and which fields of the request it still carries. The network hands a flit to
the group whose id it is addressed to, so the work is in the packing: every move
of `advance` turns a stage of a request into a stage of the same request
(`OnPath.advance`). Nothing in it looks at the remappers' state or at the order of
the moves, so both are free.

Counting does the rest. A request that has been issued is in flight or answered,
once (`Inv.once`), and it is in its bank's log exactly when it has passed the bank
(`Inv.logged`). A request that keeps being moved runs out of stages.

The response crossbar of the tile has fewer outputs than the request crossbar has
inputs when there are more request than response channels, and folds the surplus
back by one subtraction. `RespPortsFit` is when that stays among the response
ports.
-/

namespace TeraNoC.Hw

open TeraNoC.Lib

namespace NocConfig

variable {c : NocConfig}

/-! ## Group ids in coordinates -/

theorem slice_idxWidth {x n : Nat} (h : x < n) : slice x 0 (idxWidth n) = x :=
  slice_eq_self (Nat.lt_of_lt_of_le h (le_pow_idxWidth n))

theorem numGroups_le_mesh (c : NocConfig) :
    c.numGroups ≤ 2 ^ (idxWidth c.numX + idxWidth c.numY) := by
  rw [← c.mesh_eq, Nat.pow_add]
  exact Nat.mul_le_mul (le_pow_idxWidth _) (le_pow_idxWidth _)

theorem xyId_eq {g : Nat} (hg : g < c.numGroups) : c.xyId g = groupXyId g := by
  have hlt := Nat.lt_of_lt_of_le hg c.numGroups_le_mesh
  refine slice_eq_self ?_
  rw [Nat.add_comm _ 1]
  exact concat_lt (by omega) hlt

theorem deliver_xyId (noc : Noc c.numGroups) {g : Nat} (hg : g < c.numGroups) :
    noc.deliver (c.xyId g) = g := by
  rw [xyId_eq hg]
  exact noc.deliver_groupXyId g hg

theorem groupOfXyId_xyId {g : Nat} (hg : g < c.numGroups) : c.groupOfXyId (c.xyId g) = g := by
  have hlt := Nat.lt_of_lt_of_le hg c.numGroups_le_mesh
  have hx : slice (groupXyId g) (1 + idxWidth c.numY) (idxWidth c.numX)
      = slice g (idxWidth c.numY) (idxWidth c.numX) := by
    rw [groupXyId, slice_concat_hi (by omega) (by omega), Nat.add_sub_cancel_left]
  have hy : slice (groupXyId g) 1 (idxWidth c.numY) = slice g 0 (idxWidth c.numY) := by
    rw [groupXyId, slice_concat_hi (by omega) (Nat.le_refl _), Nat.sub_self]
  have hcat := concat_slice g 0 (idxWidth c.numY) (idxWidth c.numX)
  rw [Nat.zero_add] at hcat
  rw [groupOfXyId, xyId_eq hg, hx, hy, hcat, Nat.add_comm (idxWidth c.numY),
    slice_eq_self hlt]
  exact slice_idxWidth hg

/-! ## Ports -/

theorem numRemoteReqPortsPerTile_eq (c : NocConfig) : c.numRemoteReqPortsPerTile
    = 1 + c.numRdRemoteReqPortsPerTile + c.numWideRemoteReqPortsPerTile := rfl

theorem wide_pos (c : NocConfig) : 0 < c.numWideRemoteReqPortsPerTile := c.wide_ports

/-- A load that is neither a store nor an atomic. -/
def plainRead (r : DataReq) : Bool := !(r.write || decide (r.amo ≠ .none))

/-- The port into the network that a core has for plain loads, or for the rest. -/
def corePort (c : NocConfig) (core : Nat) (plain : Bool) : Nat :=
  if c.numRdRemoteReqPortsPerTile > 0 ∨ c.numWrRemoteReqPortsPerTile > 0 then
    if plain then
      1 + core % (c.numRdRemoteReqPortsPerTile + c.numRdWrRemoteReqPortsPerTile)
    else 1 + c.numRdRemoteReqPortsPerTile + core % c.numWideRemoteReqPortsPerTile
  else 1 + core % (c.numRemoteReqPortsPerTile - 1)

theorem corePort_pos (c : NocConfig) (core : Nat) (plain : Bool) : 0 < c.corePort core plain := by
  rw [corePort]
  split
  · split <;> omega
  · omega

theorem corePort_lt (c : NocConfig) (core : Nat) (plain : Bool) :
    c.corePort core plain < c.numRemoteReqPortsPerTile := by
  have hports := c.numRemoteReqPortsPerTile_eq
  have hwr : c.numWideRemoteReqPortsPerTile
      = c.numRdWrRemoteReqPortsPerTile + c.numWrRemoteReqPortsPerTile := rfl
  have hw := c.wide_pos
  rw [corePort]
  split
  · split
    · have := Nat.mod_lt core c.rd_ports
      omega
    · have := Nat.mod_lt core hw
      omega
  · have := Nat.mod_lt core (show 0 < c.numRemoteReqPortsPerTile - 1 by omega)
    omega

/-- Only plain loads are sent to the ports of the narrow channels. -/
theorem corePort_wide (c : NocConfig) (core : Nat) :
    1 + c.numRdRemoteReqPortsPerTile ≤ c.corePort core false := by
  rw [corePort]
  split
  · simp only [Bool.false_eq_true, if_false]
    omega
  · omega

/-- Port 0 towards the own group, else the core's port. -/
theorem masterPort_eq {x : Issued} (hg : x.hart.group < c.numGroups) :
    c.masterPort x =
      if (c.place (c.scrambled x.req)).group = x.hart.group then 0
      else c.corePort x.hart.core (plainRead x.req) := by
  rw [masterPort, Params.remoteReqTgtSel]
  split
  · rename_i h1
    have hgrp : (c.place (c.scrambled x.req)).group = 0 := by
      simp only [L1Config.place, c.gBits_of_single h1, slice_zero_width]
    rw [if_pos (by omega)]
  · rw [Params.rwDemuxSel, c.clog2_banks, L1Config.byteOffset_eq, c.clog2_groups,
      c.clog2_tilesPerGroup]
    show slice (if (c.place (c.scrambled x.req)).group = x.hart.group then 0
      else c.corePort x.hart.core (plainRead x.req)) 0 _ = _
    refine slice_idxWidth ?_
    split
    · rw [c.numRemoteReqPortsPerTile_eq]
      omega
    · exact c.corePort_lt _ _

theorem masterPort_lt {x : Issued} (hg : x.hart.group < c.numGroups) :
    c.masterPort x < c.numRemoteReqPortsPerTile := by
  rw [masterPort_eq hg]
  split
  · rw [c.numRemoteReqPortsPerTile_eq]
    omega
  · exact c.corePort_lt _ _

theorem masterPort_eq_zero {x : Issued} (hg : x.hart.group < c.numGroups) :
    c.masterPort x = 0 ↔ (c.place (c.scrambled x.req)).group = x.hart.group := by
  have := c.corePort_pos x.hart.core (plainRead x.req)
  rw [masterPort_eq hg]
  split
  · rename_i h
    simp [h]
  · rename_i h
    simp only [h, iff_false]
    omega

/-- The request is sent on a narrow channel. -/
def OnNarrow (c : NocConfig) (x : Issued) : Prop :=
  c.masterPort x ≠ 0 ∧ c.masterPort x < 1 + c.numRdRemoteReqPortsPerTile

theorem OnNarrow.plain {x : Issued} (hg : x.hart.group < c.numGroups) (h : c.OnNarrow x) :
    x.req.write = false ∧ x.req.amo = .none := by
  obtain ⟨hne, hlt⟩ := h
  rw [masterPort_eq hg] at hne hlt
  split at hne
  · exact absurd rfl hne
  · rename_i hgrp
    rw [if_neg hgrp] at hlt
    have hplain : plainRead x.req = true := by
      by_contra hp
      rw [Bool.not_eq_true] at hp
      have := c.corePort_wide x.hart.core
      rw [hp] at hlt
      omega
    simpa [plainRead] using hplain

/-! ## Channels -/

theorem fromRouter_wide (h : c.useNarrowReqChannel = false) (tile port : Nat) :
    c.fromRouter tile port = (tile, port) := by
  rw [fromRouter, h, if_neg Bool.false_ne_true]

/-- With narrow channels every router drives one of the two ports. -/
theorem fromRouter_narrow (h : c.useNarrowReqChannel = true) (tile port : Nat) :
    (c.fromRouter tile port).2 = 1 ∨ (c.fromRouter tile port).2 = 2 := by
  rw [fromRouter, h, if_pos rfl]
  split <;> simp

theorem remapChannel_idx_lt {narrow : Bool} {ports : Nat} (h : 0 < ports) (selQ : Nat → Nat)
    (tile idx : Nat) : (c.remapChannel narrow ports selQ tile idx).idx < ports :=
  Nat.mod_lt _ h

/-- A request leaves the network by a port that is not the local one. -/
theorem slavePort_reqChannel (selQ : Nat → Nat) (tile : Nat) {port : Nat} (hpos : port ≠ 0)
    (hlt : port < c.numRemoteReqPortsPerTile) :
    0 < c.slavePort (c.reqChannel selQ tile port) ∧
      c.slavePort (c.reqChannel selQ tile port) < c.numRemoteReqPortsPerTile := by
  have hports := c.numRemoteReqPortsPerTile_eq
  have hw := c.wide_pos
  cases hn : c.useNarrowReqChannel with
  | true =>
      have hrd : c.numRdRemoteReqPortsPerTile ≠ 0 := of_decide_eq_true hn
      obtain ⟨h1, h2, -⟩ := c.narrow_wired hrd
      rw [slavePort]
      rcases fromRouter_narrow hn (c.reqChannel selQ tile port).tile
        (c.routerPort (c.reqChannel selQ tile port)) with h | h <;> omega
  | false =>
      have hrd : c.numRdRemoteReqPortsPerTile = 0 := by
        by_contra h
        rw [useNarrowReqChannel, decide_eq_true h] at hn
        cases hn
      have hidx : (c.reqChannel selQ tile port).narrow = false ∧
          (c.reqChannel selQ tile port).idx < c.numWideRemoteReqPortsPerTile := by
        rw [reqChannel, if_neg (by omega)]
        split
        · exact ⟨rfl, remapChannel_idx_lt hw _ _ _⟩
        · exact ⟨rfl, by simp only; omega⟩
      rw [slavePort, fromRouter_wide hn, routerPort, hidx.1]
      simp only [Bool.false_eq_true, if_false]
      omega

/-! ## The response port -/

/-- The response crossbar has an output for every request port: there are at least
as many response as request ports, or fewer than twice as many request ports and
their indices fit the response index. -/
def RespPortsFit (c : NocConfig) : Prop :=
  c.numRemoteReqPortsPerTile ≤ c.numRemoteRespPortsPerTile ∨
    (c.numRemoteReqPortsPerTile < 2 * c.numRemoteRespPortsPerTile ∧
      c.numCoresPerTile + c.numRemoteReqPortsPerTile ≤ 2 ^ c.respAddrWidth)

instance (c : NocConfig) : Decidable c.RespPortsFit :=
  inferInstanceAs (Decidable (_ ∨ _ ∧ _))

/-- A request of the own group is answered through port 0. -/
theorem respIniAddr_local {m : BankMeta} (hm : m.iniAddr = c.numCoresPerTile)
    (r : SlaveResp) : c.respIniAddr m r = c.numCoresPerTile := by
  rw [respIniAddr_eq, hm]
  exact TilePorts.superbankRespIniAddr_low (Nat.le_refl _)

/-- A request from the network is answered through a port into the network. -/
theorem respIniAddr_remote (hfits : c.RespPortsFit) {m : BankMeta} {port : Nat}
    (hm : m.iniAddr = c.numCoresPerTile + port) (hpos : 0 < port)
    (hlt : port < c.numRemoteReqPortsPerTile) (r : SlaveResp) :
    c.numCoresPerTile < c.respIniAddr m r ∧
      c.respIniAddr m r < c.numCoresPerTile + c.numRemoteRespPortsPerTile := by
  have hremote := TilePorts.Fits.remote (p := c.tilePorts) hfits (c.respHash r) hpos hlt
  rw [show c.tilePorts.numCoresPerTile = c.numCoresPerTile from rfl, ← hm, ← respIniAddr_eq,
    show c.tilePorts.numRemoteRespPortsPerTile = c.numRemoteRespPortsPerTile from rfl] at hremote
  have hresp := c.resp_ports
  omega

/-! ## The stages of a request -/

/-- The hart is one of the cluster. -/
structure HartOk (c : NocConfig) (h : HartId) : Prop where
  group : h.group < c.numGroups
  tile : h.tile < c.numTilesPerGroup
  core : h.core < c.numCoresPerTile

/-- What a slave request has to carry of the request it came from. -/
structure Carries (c : NocConfig) (x : Issued) (q : SlaveReq) : Prop where
  metaId : q.metaId = x.req.id
  coreId : q.coreId = x.hart.core
  amo : q.amo = x.req.amo
  wen : q.wen = x.req.write
  payload : ¬c.OnNarrow x → q.be = x.req.strb ∧ q.data = x.req.data
  tgtAddr : q.tgtAddr = c.bankAddr (c.scrambled x.req)
  iniAddr : q.iniAddr = x.hart.tile
  srcGroupId : q.srcGroupId = x.hart.group

/-- A slave port a request can come in by: the local one from the own group, one of
the network else. -/
structure ComesIn (c : NocConfig) (x : Issued) (port : Nat) : Prop where
  lt : port < c.numRemoteReqPortsPerTile
  zero : port = 0 ↔ c.masterPort x = 0

def OnPath (c : NocConfig) (x : Issued) : Stage → Prop
  | .master group tile port m =>
      group = x.hart.group ∧ tile = x.hart.tile ∧ port = c.masterPort x ∧ m = c.masterReq x
  | .router ch src f =>
      src = x.hart.group ∧ c.masterPort x ≠ 0 ∧
        f = c.reqFlit x.hart.group x.hart.tile (c.masterPort x) (c.masterReq x) ∧
        0 < c.slavePort ch ∧ c.slavePort ch < c.numRemoteReqPortsPerTile
  | .slave group tile port q =>
      group = (c.place (c.scrambled x.req)).group ∧
        tile = (c.place (c.scrambled x.req)).tile ∧ c.Carries x q ∧ c.ComesIn x port
  | .bank group _ _ m _ =>
      group = (c.place (c.scrambled x.req)).group ∧ m.metaId = x.req.id ∧
        m.groupId = x.hart.group ∧ m.tileId = x.hart.tile ∧ m.coreId = x.hart.core ∧
        ∃ port, m.iniAddr = c.numCoresPerTile + port ∧ c.ComesIn x port
  | .slaveResp group _ port r =>
      group = (c.place (c.scrambled x.req)).group ∧ r.metaId = x.req.id ∧
        r.srcGroupId = x.hart.group ∧ r.iniAddr = x.hart.tile ∧ r.coreId = x.hart.core ∧
        port < c.numRemoteRespPortsPerTile ∧ (port = 0 ↔ c.masterPort x = 0)
  | .respRouter _ _ f =>
      f.metaId = x.req.id ∧ f.coreId = x.hart.core ∧ f.tileId = x.hart.tile ∧
        f.dstId = c.xyId x.hart.group
  | .masterResp group tile _ r =>
      group = x.hart.group ∧ tile = x.hart.tile ∧ r.coreId = x.hart.core ∧
        r.metaId = x.req.id
  | .core hart metaId _ => hart = x.hart ∧ metaId = x.req.id

/-- How far a stage is; the local port skips the two stages in the network. -/
def rank : Stage → Nat
  | .master _ _ port _ => if port = 0 then 1 else 0
  | .router _ _ _ => 1
  | .slave _ _ _ _ => 2
  | .bank _ _ _ _ _ => 3
  | .slaveResp _ _ _ _ => 4
  | .respRouter _ _ _ => 5
  | .masterResp _ _ _ _ => 6
  | .core _ _ _ => 7

theorem place_group_lt (c : NocConfig) (addr : Nat) : (c.place addr).group < c.numGroups := by
  rw [c.numGroups_eq]
  exact slice_lt _ _ _

section OnPath

variable {x : Issued} (hx : c.HartOk x.hart)

include hx

theorem coreId_masterReq : (c.masterReq x).coreId = x.hart.core := slice_idxWidth hx.core

theorem carries_local {addr : Nat} (haddr : addr = c.bankAddr (c.scrambled x.req)) :
    c.Carries x (localSlaveReq x.hart.group x.hart.tile addr (c.masterReq x)) where
  metaId := rfl
  coreId := coreId_masterReq hx
  amo := rfl
  wen := rfl
  payload _ := ⟨rfl, rfl⟩
  tgtAddr := haddr
  iniAddr := rfl
  srcGroupId := rfl

/-- What the wrapper of the target group unpacks is what the one of the source group
packed; the payload a narrow flit does not have is the one a plain load has. -/
theorem carries_flit (hne : c.masterPort x ≠ 0) :
    c.Carries x
      (c.slaveReq (c.reqFlit x.hart.group x.hart.tile (c.masterPort x) (c.masterReq x))) := by
  have htgt : c.wrapperTgtAddr (c.masterReq x).tgtAddr = c.bankAddr (c.scrambled x.req) :=
    c.wrapperTgtAddr_remoteTgtAddr _
  by_cases hn : c.masterPort x < 1 + c.numRdRemoteReqPortsPerTile
  · obtain ⟨hw, ha⟩ := OnNarrow.plain hx.group ⟨hne, hn⟩
    have hp : (c.reqFlit x.hart.group x.hart.tile (c.masterPort x) (c.masterReq x)).payload
        = none := if_pos hn
    exact {
      metaId := rfl
      coreId := coreId_masterReq hx
      amo := by rw [slaveReq, hp, ha]; rfl
      wen := by rw [slaveReq, hp, hw]; rfl
      payload := fun h => absurd ⟨hne, hn⟩ h
      tgtAddr := htgt
      iniAddr := slice_idxWidth hx.tile
      srcGroupId := groupOfXyId_xyId hx.group }
  · have hp : (c.reqFlit x.hart.group x.hart.tile (c.masterPort x) (c.masterReq x)).payload
        = some { amo := x.req.amo, wen := x.req.write, be := x.req.strb, data := x.req.data } :=
      if_neg hn
    exact {
      metaId := rfl
      coreId := coreId_masterReq hx
      amo := by rw [slaveReq, hp]; rfl
      wen := by rw [slaveReq, hp]; rfl
      payload := fun _ => by rw [slaveReq, hp]; exact ⟨rfl, rfl⟩
      tgtAddr := htgt
      iniAddr := slice_idxWidth hx.tile
      srcGroupId := groupOfXyId_xyId hx.group }

variable {li : c.Interco} {noc : Noc c.numGroups} {selQ : Nat → Nat} {rdata : Word}

theorem advance_master {group tile port : Nat} {m : MasterReq} {st : Stage}
    (h : c.OnPath x (.master group tile port m))
    (hadv : c.advance li noc selQ rdata (.master group tile port m) = some st) :
    c.OnPath x st := by
  obtain ⟨rfl, rfl, rfl, rfl⟩ := h
  have hlt := masterPort_lt hx.group
  simp only [advance] at hadv
  split at hadv
  · rename_i h0
    have hroute : li.route (c.masterReq x).tgtAddr
        = ((c.place (c.scrambled x.req)).tile, c.bankAddr (c.scrambled x.req)) :=
      c.route_remoteTgtAddr li _
    obtain rfl := Option.some.inj hadv
    refine ⟨((masterPort_eq_zero hx.group).mp h0).symm, by rw [hroute], ?_, ?_⟩
    · exact carries_local hx (by rw [hroute])
    · exact ⟨by omega, by simp [h0]⟩
  · rename_i hne
    obtain rfl := Option.some.inj hadv
    exact ⟨rfl, hne, rfl, slavePort_reqChannel selQ x.hart.tile hne hlt⟩

theorem advance_router {ch : Channel} {src : Nat} {f : ReqFlit} {st : Stage}
    (h : c.OnPath x (.router ch src f))
    (hadv : c.advance li noc selQ rdata (.router ch src f) = some st) : c.OnPath x st := by
  obtain ⟨rfl, hne, rfl, hpos, hlt⟩ := h
  obtain rfl := Option.some.inj hadv
  refine ⟨?_, ?_, carries_flit hx hne, hlt, ?_⟩
  · have hg : c.tgtGroupId (c.scrambled x.req) = (c.place (c.scrambled x.req)).group :=
      c.tgtGroupId_eq _
    show noc.deliver (c.xyId (c.tgtGroupId (c.scrambled x.req))) = _
    rw [hg, deliver_xyId noc (c.place_group_lt _)]
  · exact c.reqTileSel_remoteTgtAddr _
  · exact ⟨fun h => by omega, fun h => absurd h hne⟩

omit hx in
theorem advance_slave {group tile port : Nat} {q : SlaveReq} {st : Stage}
    (h : c.OnPath x (.slave group tile port q))
    (hadv : c.advance li noc selQ rdata (.slave group tile port q) = some st) :
    c.OnPath x st := by
  obtain ⟨rfl, rfl, hq, hport⟩ := h
  obtain rfl := Option.some.inj hadv
  exact ⟨rfl, hq.metaId, hq.srcGroupId, hq.iniAddr, hq.coreId, port, rfl, hport⟩

omit hx in
theorem advance_bank (hfits : c.RespPortsFit) {group tile b : Nat} {m : BankMeta} {data : Word}
    {st : Stage} (h : c.OnPath x (.bank group tile b m data))
    (hadv : c.advance li noc selQ rdata (.bank group tile b m data) = some st) :
    c.OnPath x st := by
  obtain ⟨rfl, hid, hgroup, htile, hcore, port, hini, hport⟩ := h
  have hresp := c.resp_ports
  have hcases : (port = 0 ∧ c.respIniAddr m (bankResp m data) = c.numCoresPerTile) ∨
      (port ≠ 0 ∧ c.numCoresPerTile < c.respIniAddr m (bankResp m data) ∧
        c.respIniAddr m (bankResp m data)
          < c.numCoresPerTile + c.numRemoteRespPortsPerTile) := by
    by_cases h0 : port = 0
    · exact .inl ⟨h0, respIniAddr_local (by rw [hini, h0, Nat.add_zero]) _⟩
    · exact .inr ⟨h0, respIniAddr_remote hfits hini (by omega) hport.lt _⟩
  simp only [advance] at hadv
  rw [if_neg (by omega)] at hadv
  obtain rfl := Option.some.inj hadv
  refine ⟨rfl, hid, hgroup, htile, hcore, by omega, ?_⟩
  rw [← hport.zero]
  omega

omit hx in
theorem advance_slaveResp {group tile port : Nat} {r : SlaveResp} {st : Stage}
    (hg : x.hart.group < c.numGroups) (h : c.OnPath x (.slaveResp group tile port r))
    (hadv : c.advance li noc selQ rdata (.slaveResp group tile port r) = some st) :
    c.OnPath x st := by
  obtain ⟨rfl, hid, hgroup, htile, hcore, -, hzero⟩ := h
  simp only [advance] at hadv
  split at hadv
  · rename_i h0
    obtain rfl := Option.some.inj hadv
    exact ⟨(masterPort_eq_zero hg).mp (hzero.mp h0), htile, hcore, hid⟩
  · obtain rfl := Option.some.inj hadv
    exact ⟨hid, hcore, htile, congrArg c.xyId hgroup⟩

theorem advance_respRouter {ch : Channel} {src : Nat} {f : RespFlit} {st : Stage}
    (h : c.OnPath x (.respRouter ch src f))
    (hadv : c.advance li noc selQ rdata (.respRouter ch src f) = some st) :
    c.OnPath x st := by
  obtain ⟨hid, hcore, htile, hdst⟩ := h
  obtain rfl := Option.some.inj hadv
  refine ⟨?_, ?_, hcore, hid⟩
  · rw [hdst, deliver_xyId noc hx.group]
  · rw [respTileSel]
    split
    · have := hx.tile
      omega
    · exact htile

/-- Every move turns a stage of a request into a stage of the same request; the
response ports only matter from the bank on. -/
theorem OnPath.advance {st st' : Stage} (hfits : c.RespPortsFit ∨ rank st < 3)
    (h : c.OnPath x st) (hadv : c.advance li noc selQ rdata st = some st') : c.OnPath x st' := by
  cases st with
  | master group tile port m => exact advance_master hx h hadv
  | router ch src f => exact advance_router hx h hadv
  | slave group tile port q => exact advance_slave h hadv
  | bank group tile b m data =>
      exact advance_bank (hfits.resolve_right (Nat.lt_irrefl 3)) h hadv
  | slaveResp group tile port r => exact advance_slaveResp hx.group h hadv
  | respRouter ch src f => exact advance_respRouter hx h hadv
  | masterResp group tile port r =>
      obtain ⟨rfl, rfl, hcore, hid⟩ := h
      obtain rfl := Option.some.inj hadv
      exact ⟨by rw [hcore], hid⟩
  | core hart metaId data => cases hadv

end OnPath

/-! ## Progress along the path -/

/-- A move goes to a later stage; up to the bank, to the next one. -/
theorem rank_advance {li : c.Interco} {noc : Noc c.numGroups} {selQ : Nat → Nat}
    {rdata : Word} {st st' : Stage} (hadv : c.advance li noc selQ rdata st = some st') :
    rank st < rank st' ∧ rank st' < 8 ∧ (rank st < 3 → rank st' = rank st + 1) := by
  cases st with
  | master group tile port m =>
      simp only [NocConfig.advance] at hadv
      split at hadv <;> obtain rfl := Option.some.inj hadv
      · rename_i h
        simp [rank, h]
      · rename_i h
        simp [rank, h]
  | bank group tile b m data =>
      simp only [NocConfig.advance] at hadv
      split at hadv <;> obtain rfl := Option.some.inj hadv <;> simp [rank]
  | slaveResp group tile port r =>
      simp only [NocConfig.advance] at hadv
      split at hadv <;> obtain rfl := Option.some.inj hadv <;> simp [rank]
  | core hart metaId data => cases hadv
  | _ => obtain rfl := Option.some.inj hadv; simp [rank]

theorem advance_eq_none {li : c.Interco} {noc : Noc c.numGroups} {selQ : Nat → Nat}
    {rdata : Word} {st : Stage} (hadv : c.advance li noc selQ rdata st = none) :
    ∃ hart metaId data, st = .core hart metaId data := by
  cases st with
  | core hart metaId data => exact ⟨hart, metaId, data, rfl⟩
  | master group tile port m =>
      simp only [NocConfig.advance] at hadv
      split at hadv <;> cases hadv
  | bank group tile b m data =>
      simp only [NocConfig.advance] at hadv
      split at hadv <;> cases hadv
  | slaveResp group tile port r =>
      simp only [NocConfig.advance] at hadv
      split at hadv <;> cases hadv
  | _ => cases hadv

/-! ## What an action can do -/

section Step

variable (c) (li : c.Interco) (noc : Noc c.numGroups) (mem : Loc → Word)
  (blocks : Stage → Stage → Bool)

/-- The log after an item has moved. -/
def logAfter (s : NocState) (it : Item) : List Accepted :=
  s.accepted ++ (c.acceptance mem s.accepted it).toList

/-- The answer of the bank to an item that moves, if it enters one. -/
def rdataOf (s : NocState) (it : Item) : Word :=
  ((c.acceptance mem s.accepted it).bind (·.result)).getD 0

inductive Moved (s : NocState) : NocState → Prop
  | idle (selQ : Nat → Nat) : Moved s { s with selQ := selQ }
  | issue (x : Issued) (busy : HartId → Nat → Bool) (h : c.CanIssue s x) : Moved s
      { s with
        busy := busy
        issued := s.issued ++ [x]
        flight := s.flight ++
          [{ txn := s.issued.length
             stage := .master x.hart.group x.hart.tile (c.masterPort x) (c.masterReq x) }] }
  | advance (i : Nat) (it : Item) (st : Stage) (hi : s.flight[i]? = some it)
      (hfirst : ∀ y ∈ s.flight.take i, blocks y.stage it.stage = false)
      (hadv : c.advance li noc s.selQ (c.rdataOf mem s it) it.stage = some st) : Moved s
      { s with
        flight := s.flight.eraseIdx i ++ [{ txn := it.txn, stage := st }]
        accepted := c.logAfter mem s it }
  | answer (i : Nat) (it : Item) (hart : HartId) (metaId : Nat) (data : Word)
      (busy : HartId → Nat → Bool) (hi : s.flight[i]? = some it)
      (hst : it.stage = .core hart metaId data) : Moved s
      { s with
        flight := s.flight.eraseIdx i
        answered := s.answered ++
          [{ txn := it.txn, hart := hart, metaId := metaId, data := data }]
        busy := busy }

theorem step_moved (s : NocState) (a : Action) :
    Moved c li noc mem blocks s (c.step li noc mem blocks s a) := by
  cases a with
  | tick => exact .idle _
  | issue x =>
      rw [step]
      split
      · rename_i h
        exact .issue x _ h
      · exact .idle s.selQ
  | move i =>
      rw [step]
      split
      · rename_i it hi
        split
        · exact .idle s.selQ
        · rename_i hfree
          have hfirst : ∀ y ∈ s.flight.take i, blocks y.stage it.stage = false := by
            simpa using hfree
          simp only [moveItem]
          split
          · rename_i st hadv
            exact .advance i it st hi hfirst hadv
          · rename_i hadv
            obtain ⟨hart, metaId, data, hst⟩ := advance_eq_none hadv
            rw [hst]
            exact .answer i it hart metaId data _ hi hst
      · exact .idle s.selQ

end Step

/-! ## The invariant -/

/-- A bank's log entry of a request: the word its address decodes to, and the fields
it was issued with. A plain load on a narrow channel loses its byte enables and its
data, which a load does not have. -/
structure Arrived (c : NocConfig) (x : Issued) (e : Accepted) : Prop where
  loc : e.loc = c.place (c.scrambled x.req)
  address : e.req.address = e.loc.row
  amo : e.req.amo = x.req.amo
  write : e.req.write = x.req.write
  metaId : e.req.metadata.metaId = x.req.id
  payload : ¬c.OnNarrow x → e.req.be = x.req.strb ∧ e.req.wdata = x.req.data

theorem Carries.arrived {x : Issued} {mem : Loc → Word} {log : List Accepted} {txn port : Nat}
    {q : SlaveReq} {group tile : Nat} {e : Accepted}
    (h : c.OnPath x (.slave group tile port q))
    (he : c.acceptance mem log { txn := txn, stage := .slave group tile port q } = some e) :
    c.Arrived x e ∧ e.txn = txn := by
  obtain ⟨rfl, rfl, hq, -⟩ := h
  obtain rfl := Option.some.inj he
  refine ⟨⟨?_, rfl, hq.amo, hq.wen, hq.metaId, hq.payload⟩, rfl⟩
  show c.tileLoc _ _ q.tgtAddr = _
  rw [hq.tgtAddr, c.tileLoc_bankAddr]

/-- Only a move out of a slave register is logged. -/
theorem acceptance_cases (mem : Loc → Word) (log : List Accepted) (it : Item) :
    (∃ group tile port q e, it.stage = .slave group tile port q ∧
      c.acceptance mem log it = some e ∧ e.txn = it.txn) ∨
    (rank it.stage ≠ 2 ∧ c.acceptance mem log it = none) := by
  obtain ⟨txn, stage⟩ := it
  cases stage with
  | slave group tile port q => exact .inl ⟨group, tile, port, q, _, rfl, rfl, rfl⟩
  | master group tile port m =>
      refine .inr ⟨?_, rfl⟩
      rw [rank]
      split <;> decide
  | _ => exact .inr ⟨by simp [rank], rfl⟩

/-- Past its bank. -/
def past (n : Nat) (it : Item) : Bool := it.txn == n && decide (3 ≤ rank it.stage)

structure Inv (c : NocConfig) (s : NocState) : Prop where
  harts : ∀ x ∈ s.issued, c.HartOk x.hart
  path : ∀ it ∈ s.flight, ∃ x, s.issued[it.txn]? = some x ∧
    (c.RespPortsFit ∨ rank it.stage ≤ 3 → c.OnPath x it.stage)
  once : ∀ n, s.flight.countP (·.txn == n) + s.answered.countP (·.txn == n)
    = if n < s.issued.length then 1 else 0
  logged : ∀ n, s.accepted.countP (·.txn == n)
    = s.flight.countP (past n) + s.answered.countP (·.txn == n)
  arrived : ∀ e ∈ s.accepted, ∃ x, s.issued[e.txn]? = some x ∧ c.Arrived x e
  replies : c.RespPortsFit → ∀ a ∈ s.answered, ∃ x, s.issued[a.txn]? = some x ∧
    a.hart = x.hart ∧ a.metaId = x.req.id

theorem inv_reset (c : NocConfig) : c.Inv c.reset where
  harts _ h := absurd h List.not_mem_nil
  path _ h := absurd h List.not_mem_nil
  once _ := rfl
  logged _ := rfl
  arrived _ h := absurd h List.not_mem_nil
  replies _ _ h := absurd h List.not_mem_nil

theorem getElem?_issue {l : List Issued} {n : Nat} {x y : Issued} (h : l[n]? = some x) :
    (l ++ [y])[n]? = some x := by
  rw [List.getElem?_append_left (List.getElem?_eq_some_iff.mp h).1, h]

theorem Inv.txn_lt {s : NocState} (h : c.Inv s) {it : Item} (hit : it ∈ s.flight) :
    it.txn < s.issued.length := by
  obtain ⟨x, hx, -⟩ := h.path it hit
  exact (List.getElem?_eq_some_iff.mp hx).1

theorem rank_master_lt (group tile port : Nat) (m : MasterReq) :
    rank (.master group tile port m) < 2 := by
  rw [rank]
  split <;> omega

theorem Inv.issue {s : NocState} (h : c.Inv s) {x : Issued} (busy : HartId → Nat → Bool)
    (hcan : c.CanIssue s x) : c.Inv
      { s with
        busy := busy
        issued := s.issued ++ [x]
        flight := s.flight ++
          [{ txn := s.issued.length
             stage := .master x.hart.group x.hart.tile (c.masterPort x) (c.masterReq x) }] } where
  harts y hy := by
    rcases List.mem_append.mp hy with hy | hy
    · exact h.harts y hy
    · rw [List.mem_singleton.mp hy]
      exact ⟨hcan.1, hcan.2.1, hcan.2.2.1⟩
  path it hit := by
    rcases List.mem_append.mp hit with hit | hit
    · obtain ⟨y, hy, hp⟩ := h.path it hit
      exact ⟨y, getElem?_issue hy, hp⟩
    · rw [List.mem_singleton.mp hit]
      exact ⟨x, by simp, fun _ => ⟨rfl, rfl, rfl, rfl⟩⟩
  once n := by
    have := h.once n
    simp only [List.countP_append, List.countP_singleton, List.length_append,
      List.length_singleton, beq_iff_eq]
    split at this <;> split <;> split <;> omega
  logged n := by
    have hlow := rank_master_lt x.hart.group x.hart.tile (c.masterPort x) (c.masterReq x)
    have hpast : past n { txn := s.issued.length
                          stage := .master x.hart.group x.hart.tile (c.masterPort x)
                            (c.masterReq x) } = false := by
      rw [past, decide_eq_false (by simp only; omega), Bool.and_false]
    have := h.logged n
    simp only [List.countP_append, List.countP_singleton, hpast, Bool.false_eq_true, if_false]
    omega
  arrived e he := by
    obtain ⟨y, hy, ha⟩ := h.arrived e he
    exact ⟨y, getElem?_issue hy, ha⟩
  replies hfits a ha := by
    obtain ⟨y, hy, hr⟩ := h.replies hfits a ha
    exact ⟨y, getElem?_issue hy, hr⟩

section Step

variable {li : c.Interco} {noc : Noc c.numGroups} {mem : Loc → Word} {s : NocState}
  {i : Nat} {it : Item}

theorem mem_logAfter {e : Accepted} (he : e ∈ c.logAfter mem s it) :
    e ∈ s.accepted ∨ c.acceptance mem s.accepted it = some e := by
  rcases List.mem_append.mp he with he | he
  · exact .inl he
  · exact .inr (Option.mem_toList.mp he)

/-- The log grows by the request of the item exactly when the item passes the bank. -/
theorem Inv.logged_advance (h : c.Inv s) (hi : s.flight[i]? = some it) {st : Stage}
    (hadv : c.advance li noc s.selQ (c.rdataOf mem s it) it.stage = some st) (n : Nat) :
    (c.logAfter mem s it).countP (·.txn == n)
      = (s.flight.eraseIdx i ++ [(⟨it.txn, st⟩ : Item)]).countP (past n)
        + s.answered.countP (·.txn == n) := by
  have hcount := countP_move hi (⟨it.txn, st⟩ : Item) (past n)
  have hlog := h.logged n
  obtain ⟨hrank, -, hnext⟩ := rank_advance hadv
  rw [logAfter, List.countP_append]
  rcases acceptance_cases (c := c) mem s.accepted it with
    ⟨group, tile, port, q, e, hst, he, htxn⟩ | ⟨hne, hnone⟩
  · have h2 : rank it.stage = 2 := by rw [hst]; rfl
    have hbefore : past n it = false := by
      rw [past, decide_eq_false (by omega), Bool.and_false]
    have hafter : past n { txn := it.txn, stage := st } = (it.txn == n) := by
      rw [past, decide_eq_true (by simp only; omega), Bool.and_true]
    rw [hbefore, hafter] at hcount
    rw [he, Option.toList_some, List.countP_singleton, htxn]
    simp only [Bool.false_eq_true, if_false] at hcount
    omega
  · have hsame : past n { txn := it.txn, stage := st } = past n it := by
      rw [past, past]
      congr 1
      exact decide_eq_decide.mpr (by simp only; omega)
    rw [hsame] at hcount
    rw [hnone, Option.toList_none, List.countP_nil]
    omega

theorem Inv.advance (h : c.Inv s) (hi : s.flight[i]? = some it) {st : Stage}
    (hadv : c.advance li noc s.selQ (c.rdataOf mem s it) it.stage = some st) : c.Inv
      { s with
        flight := s.flight.eraseIdx i ++ [{ txn := it.txn, stage := st }]
        accepted := c.logAfter mem s it } where
  harts := h.harts
  path z hz := by
    rcases mem_move hz with hz | rfl
    · exact h.path z hz
    · obtain ⟨x, hx, hp⟩ := h.path it (List.mem_of_getElem? hi)
      obtain ⟨hrank, -, -⟩ := rank_advance hadv
      refine ⟨x, hx, fun hfits => ?_⟩
      have hbefore : c.RespPortsFit ∨ rank it.stage < 3 :=
        hfits.imp_right fun hle => Nat.lt_of_lt_of_le hrank hle
      exact OnPath.advance (h.harts x (List.mem_of_getElem? hx)) hbefore
        (hp (hbefore.imp_right Nat.le_of_lt)) hadv
  once n := by
    have hcount := countP_move hi (⟨it.txn, st⟩ : Item) (fun z => z.txn == n)
    have := h.once n
    simp only at hcount ⊢
    omega
  logged n := h.logged_advance hi hadv n
  arrived e he := by
    rcases mem_logAfter he with he | he
    · exact h.arrived e he
    · obtain ⟨x, hx, hp⟩ := h.path it (List.mem_of_getElem? hi)
      rcases acceptance_cases (c := c) mem s.accepted it with
        ⟨group, tile, port, q, e', hst, he', -⟩ | ⟨-, hnone⟩
      · obtain ⟨txn, stage⟩ := it
        simp only at hst
        subst hst
        obtain ⟨harr, rfl⟩ := Carries.arrived (hp (.inr (by simp [rank]))) he
        exact ⟨x, hx, harr⟩
      · rw [hnone] at he
        cases he
  replies := h.replies

theorem Inv.answer (h : c.Inv s) (hi : s.flight[i]? = some it) {hart : HartId} {metaId : Nat}
    {data : Word} (busy : HartId → Nat → Bool) (hst : it.stage = .core hart metaId data) : c.Inv
      { s with
        flight := s.flight.eraseIdx i
        answered := s.answered ++
          [{ txn := it.txn, hart := hart, metaId := metaId, data := data }]
        busy := busy } where
  harts := h.harts
  path z hz := h.path z (List.mem_of_mem_eraseIdx hz)
  once n := by
    have hcount := countP_eraseIdx hi (fun z => z.txn == n)
    have := h.once n
    simp only [List.countP_append, List.countP_singleton]
    omega
  logged n := by
    have hpast : past n it = (it.txn == n) := by
      rw [past, hst]
      simp [rank]
    have hcount := countP_eraseIdx hi (past n)
    have := h.logged n
    rw [hpast] at hcount
    simp only [List.countP_append, List.countP_singleton]
    omega
  arrived := h.arrived
  replies hfits a ha := by
    rcases List.mem_append.mp ha with ha | ha
    · exact h.replies hfits a ha
    · rw [List.mem_singleton.mp ha]
      obtain ⟨x, hx, hp⟩ := h.path it (List.mem_of_getElem? hi)
      rw [hst] at hp
      exact ⟨x, hx, hp (.inl hfits)⟩

end Step

theorem Inv.step {li : c.Interco} {noc : Noc c.numGroups} {mem : Loc → Word}
    {blocks : Stage → Stage → Bool} {s : NocState} (h : c.Inv s) (a : Action) :
    c.Inv (c.step li noc mem blocks s a) := by
  have hmoved := c.step_moved li noc mem blocks s a
  generalize c.step li noc mem blocks s a = s' at hmoved
  cases hmoved with
  | idle selQ => exact ⟨h.harts, h.path, h.once, h.logged, h.arrived, h.replies⟩
  | issue x busy hcan => exact h.issue busy hcan
  | advance i it st hi _ hadv => exact h.advance hi hadv
  | answer i it hart metaId data busy hi hst => exact h.answer hi busy hst

theorem inv_after (li : c.Interco) (noc : Noc c.numGroups) (mem : Loc → Word)
    (blocks : Stage → Stage → Bool) (acts : Nat → Action) (t : Nat) :
    c.Inv (c.after li noc mem blocks acts t) := by
  induction t with
  | zero => exact c.inv_reset
  | succ t ih => exact ih.step _

/-! ## A request that keeps moving is answered -/

/-- The stages a request still has before it. -/
def weight (n : Nat) (it : Item) : Nat := if it.txn = n then 8 - rank it.stage else 0

def remaining (s : NocState) (n : Nat) : Nat := (s.flight.map (weight n)).sum

section Step

variable {li : c.Interco} {noc : Noc c.numGroups} {mem : Loc → Word}
  {blocks : Stage → Stage → Bool} {s : NocState} {n : Nat}

theorem weight_advance {it : Item} {st : Stage}
    (hadv : c.advance li noc s.selQ (c.rdataOf mem s it) it.stage = some st) :
    weight n { txn := it.txn, stage := st } ≤ weight n it ∧
      (it.txn = n → weight n { txn := it.txn, stage := st } < weight n it) := by
  obtain ⟨hlt, hle, -⟩ := rank_advance hadv
  by_cases h : it.txn = n
  · simp only [weight, h, if_true]
    omega
  · simp [weight, h]

theorem remaining_step_le (hn : n < s.issued.length) (a : Action) :
    remaining (c.step li noc mem blocks s a) n ≤ remaining s n := by
  have hmoved := c.step_moved li noc mem blocks s a
  generalize c.step li noc mem blocks s a = s' at hmoved
  cases hmoved with
  | idle selQ => exact Nat.le_refl _
  | issue x busy hcan =>
      have hw : weight n ⟨s.issued.length, .master x.hart.group x.hart.tile (c.masterPort x)
          (c.masterReq x)⟩ = 0 := if_neg (by simp only; omega)
      simp [remaining, hw]
  | advance i it st hi _ hadv =>
      have hsum := sum_eraseIdx hi (weight n)
      have := (weight_advance (n := n) hadv).1
      simp only [remaining, List.map_append, List.sum_append, List.map_cons, List.map_nil,
        List.sum_cons, List.sum_nil]
      omega
  | answer i it hart metaId data busy hi hst =>
      have hsum := sum_eraseIdx hi (weight n)
      simp only [remaining]
      omega

/-- Item `i` of the flight can move, and belongs to request `n`. -/
def Moves (blocks : Stage → Stage → Bool) (s : NocState) (n : Nat) (a : Action) : Prop :=
  ∃ i it, a = .move i ∧ s.flight[i]? = some it ∧ it.txn = n ∧
    ∀ y ∈ s.flight.take i, blocks y.stage it.stage = false

theorem remaining_step_lt {a : Action} (h : Moves blocks s n a) :
    remaining (c.step li noc mem blocks s a) n < remaining s n := by
  obtain ⟨i, it, rfl, hi, htxn, hfirst⟩ := h
  have hsum := sum_eraseIdx hi (weight n)
  have hfree : ¬((s.flight.take i).any fun other => blocks other.stage it.stage) = true := by
    simpa using hfirst
  simp only [step, hi]
  rw [if_neg hfree]
  simp only [moveItem]
  split
  · rename_i st hadv
    have := (weight_advance (n := n) hadv).2 htxn
    simp only [remaining, List.map_append, List.sum_append, List.map_cons, List.map_nil,
      List.sum_cons, List.sum_nil]
    omega
  · rename_i hadv
    obtain ⟨hart, metaId, data, hst⟩ := advance_eq_none hadv
    have hw : weight n it = 1 := by rw [weight, if_pos htxn, hst]; rfl
    rw [hst]
    simp only [remaining]
    omega

theorem length_issued_step (a : Action) :
    s.issued.length ≤ (c.step li noc mem blocks s a).issued.length := by
  have hmoved := c.step_moved li noc mem blocks s a
  generalize c.step li noc mem blocks s a = s' at hmoved
  cases hmoved with
  | issue x busy hcan => simp
  | _ => exact Nat.le_refl _

end Step

/-- The network and the banks serve request `n`: while it is in flight it is moved on
again and again. -/
def Served (li : c.Interco) (noc : Noc c.numGroups) (mem : Loc → Word)
    (blocks : Stage → Stage → Bool) (acts : Nat → Action) (n : Nat) : Prop :=
  ∀ t, (∃ it ∈ (c.after li noc mem blocks acts t).flight, it.txn = n) →
    ∃ u, t ≤ u ∧ Moves blocks (c.after li noc mem blocks acts u) n (acts u)

theorem issued_le_after (li : c.Interco) (noc : Noc c.numGroups) (mem : Loc → Word)
    (blocks : Stage → Stage → Bool) (acts : Nat → Action) (t d : Nat) :
    (c.after li noc mem blocks acts t).issued.length
      ≤ (c.after li noc mem blocks acts (t + d)).issued.length := by
  induction d with
  | zero => exact Nat.le_refl _
  | succ d ih => exact Nat.le_trans ih (length_issued_step _)

/-- A request that is served leaves the network. -/
theorem Served.lands {li : c.Interco} {noc : Noc c.numGroups} {mem : Loc → Word}
    {blocks : Stage → Stage → Bool} {acts : Nat → Action} {n : Nat}
    (h : Served li noc mem blocks acts n) {t : Nat}
    (hn : n < (c.after li noc mem blocks acts t).issued.length) :
    ∃ u, t ≤ u ∧ remaining (c.after li noc mem blocks acts u) n = 0 := by
  have hissued : ∀ d, n < (c.after li noc mem blocks acts (t + d)).issued.length :=
    fun d => Nat.lt_of_lt_of_le hn (issued_le_after li noc mem blocks acts t d)
  -- the moves of the request are the ticks of the measure
  obtain ⟨d, hd⟩ := eventually_zero
    (μ := fun d => remaining (c.after li noc mem blocks acts (t + d)) n)
    (fun d => remaining_step_le (hissued d) _)
    (fun d (hmove : remaining (c.after li noc mem blocks acts (t + d)) n = 0 ∨
        Moves blocks (c.after li noc mem blocks acts (t + d)) n (acts (t + d))) hpos =>
      remaining_step_lt (hmove.resolve_left (by omega)))
    (fun d => by
      by_cases hz : remaining (c.after li noc mem blocks acts (t + d)) n = 0
      · exact ⟨d, Nat.le_refl _, .inl hz⟩
      · have hin : ∃ it ∈ (c.after li noc mem blocks acts (t + d)).flight, it.txn = n := by
          by_contra hno
          push Not at hno
          refine hz (List.sum_eq_zero fun w hw => ?_)
          obtain ⟨it, hit, rfl⟩ := List.mem_map.mp hw
          exact if_neg (hno it hit)
        obtain ⟨u, hu, hmove⟩ := h (t + d) hin
        exact ⟨u - t, by omega, .inr (by rwa [Nat.add_sub_cancel' (by omega)])⟩)
  exact ⟨t + d, Nat.le_add_right _ _, hd⟩

/-- The first core of the cluster stores to, or loads from, a word of group 1. -/
def toGroupOne (write : Bool) : Issued where
  hart := { group := 0, tile := 0, core := 0 }
  req := { addr := 0x80400, write := write, amo := .none, data := 7, strb := 15, id := 0 }

end NocConfig

end TeraNoC.Hw
