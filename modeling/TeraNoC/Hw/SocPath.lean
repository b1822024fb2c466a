import TeraNoC.Lib.Stream
import TeraNoC.Hw.NocSystem

/-!
# The path of a tile's cores to the SoC

One clock cycle of what lies between the data ports of a tile's cores and its AXI port:
the SoC side of each core's `tcdm_shim`, the `snitch_demux` that the cores share, and the
`snitch_axi_adapter`. The answers carry neither an id nor a core: the shim keeps the ids and
the demux the cores in FIFOs, one for reads and one for writes each, and the adapter keeps
the lane of each read. A request is taken in the cycle in which its address is taken on AXI;
the data of a write follow from a FIFO of their own.
-/

namespace TeraNoC.Hw

open TeraNoC.Lib

/-! ## AXI -/

/-- The operations of an atomic load (`ATOP_ATOMICSWAP`, `ATOP_ADD` and so on). -/
inductive AtopOp where
  | swap | add | clr | set | eor | smax | umax | smin | umin
  deriving DecidableEq, Repr

structure AxiAr where
  addr : Nat
  size : Nat
  len : Nat
  deriving DecidableEq, Repr

/-- `atop` is there for an `ATOP_ATOMICLOAD` in little endian. -/
structure AxiAw where
  addr : Nat
  size : Nat
  len : Nat
  atop : Option AtopOp
  deriving DecidableEq, Repr

/-- A data beat with `2 ^ laneBits` words. -/
structure AxiW (laneBits : Nat) where
  data : BitVec (32 * 2 ^ laneBits)
  strb : BitVec (4 * 2 ^ laneBits)
  deriving DecidableEq

structure AxiR (laneBits : Nat) where
  data : BitVec (32 * 2 ^ laneBits)
  resp : BitVec 2
  deriving DecidableEq

/-- `RESP_OKAY` and `RESP_EXOKAY` are no error. -/
def respError (resp : BitVec 2) : Bool := !(resp == 0 || resp == 1)

/-! ## The tile -/

/-- A tile for any number of cores: the ports of its `snitch_demux` are the
`NumCoresPerTile`, and its AXI port has `2 ^ laneBits` words. -/
structure SocTile extends L1Config where
  numPorts : Nat
  laneBits : Nat
  tileId : Nat
  tile_lt : tileId < toL1Config.numTiles

/-- The first tile of `config/terapool.mk`. -/
def terapoolTile : SocTile where
  toL1Config := (terapool false).toL1Config
  numPorts := 4
  laneBits := 4
  tileId := 0
  tile_lt := by decide

/-- `NumIntOutstandingLoads`, the depth of the shim's FIFOs. -/
def maxOutStandingTrans : Nat := 8

def respDepth : Nat := 8

def writeFIFODepth : Nat := 2

def readFIFODepth : Nat := 2

/-- What `i_fifo_w_data` holds. -/
structure WriteExt where
  data : Word
  strb : BitVec 4
  shift : Nat
  deriving DecidableEq, Repr, Inhabited

/-- The FIFOs and the arbiter that the path is built with. -/
structure SocCells (p : SocTile) where
  metaId : StreamFifo Nat maxOutStandingTrans
  resp : StreamFifo Nat respDepth
  wData : StreamFifo WriteExt writeFIFODepth
  rShift : StreamFifo Nat readFIFODepth
  arbiter : StreamArbiter p.numPorts

/-- The path with the plainest cells. -/
def SocCells.plain (p : SocTile) : SocCells p where
  metaId := .list _ _
  resp := .list _ _
  wData := .list _ _
  rShift := .list _ _
  arbiter := .lowest _

structure SocState {p : SocTile} (z : SocCells p) where
  metaRead : Nat → z.metaId.State
  metaWrite : Nat → z.metaId.State
  rResp : z.resp.State
  wResp : z.resp.State
  wData : z.wData.State
  rShift : z.rShift.State
  arb : z.arbiter.State

def SocState.reset {p : SocTile} (z : SocCells p) : SocState z where
  metaRead _ := z.metaId.reset
  metaWrite _ := z.metaId.reset
  rResp := z.resp.reset
  wResp := z.resp.reset
  wData := z.wData.reset
  rShift := z.rShift.reset
  arb := z.arbiter.reset

structure SocIn (p : SocTile) where
  /-- What each core offers on its data port. -/
  dataQ : Nat → Option DataReq
  dataPready : Nat → Bool
  /-- A response from the L1 is there for the core. -/
  tcdmValid : Nat → Bool
  arReady : Bool
  awReady : Bool
  wReady : Bool
  rValid : Bool
  r : AxiR p.laneBits
  bValid : Bool
  bResp : BitVec 2

/-- `data_p*`: a response at a core. -/
structure SocResp where
  core : Nat
  id : Nat
  data : Word
  write : Bool
  error : Bool
  deriving DecidableEq, Repr

/-! ## The adapter's encodings -/

namespace DataReq

/-- `axi_req_o.aw.atop`. -/
def atop (r : DataReq) : Option AtopOp :=
  match r.amo with
  | .swap => some .swap
  | .add => some .add
  | .and => some .clr
  | .or => some .set
  | .xor => some .eor
  | .max => some .smax
  | .maxu => some .umax
  | .min => some .smin
  | .minu => some .umin
  | .none | .lr | .sc | .reserved => none

/-- `write_data_in.data`: a bit mask to clear for an and. -/
def writeData (r : DataReq) : Word := if r.amo = .and then ~~~r.data else r.data

/-- `slv_qaddr_i[AxiByteOffset-1:SlvByteOffset]`. -/
def shift (laneBits : Nat) (r : DataReq) : Nat := slice r.addr 2 laneBits

def axiAr (r : DataReq) : AxiAr where
  addr := r.addr
  size := 2
  len := 0

def axiAw (r : DataReq) : AxiAw where
  addr := r.addr
  size := 2
  len := 0
  atop := r.atop

def writeExt (laneBits : Nat) (r : DataReq) : WriteExt where
  data := r.writeData
  strb := r.strb
  shift := r.shift laneBits

end DataReq

def WriteExt.beat (laneBits : Nat) (w : WriteExt) : AxiW laneBits where
  data := w.data.setWidth _ <<< (32 * w.shift)
  strb := w.strb.setWidth _ <<< (4 * w.shift)

namespace SocState

variable {p : SocTile} {z : SocCells p} (s : SocState z) (i : SocIn p)

/-! ## Requests -/

/-- `soc_q*` of a core's shim: a request that the address rules send there. -/
def socQ (i : SocIn p) (core : Nat) : Option DataReq :=
  if core < p.numPorts then
    (i.dataQ core).bind fun r =>
      let addr := addrScrambler (p.coreScrambler 0) r.addr
      if snitchAddrDemux (p.maskMap 0 p.tileId) addr = .soc then some { r with addr := addr }
      else none
  else none

def socQvalid (i : SocIn p) (core : Nat) : Bool := (socQ i core).isSome

/-- The stream the demux's arbiter has chosen. -/
def idx : Nat := z.arbiter.sel s.arb (socQvalid i)

/-- `full`; with one core there are no response FIFOs. -/
def full : Bool :=
  if p.numPorts = 1 then false
  else
    match socQ i (s.idx i) with
    | some r => if r.write then !z.resp.ready s.wResp else !z.resp.ready s.rResp
    | none => false

/-- `slv_q*`: what the adapter is offered. -/
def slvQ : Option DataReq := if s.full i then none else socQ i (s.idx i)

def readFull : Bool := p.laneBits ≠ 0 && !z.rShift.ready s.rShift

def writeFull : Bool := !z.wData.ready s.wData

def arValid : Bool := !s.readFull && (s.slvQ i).any fun r => !r.write

def awValid : Bool := !s.writeFull && (s.slvQ i).any fun r => r.write

def slvQready : Bool := i.arReady && s.arValid i || i.awReady && s.awValid i

/-- The request that is taken in this cycle. -/
def taken : Option DataReq := if s.slvQready i then s.slvQ i else none

def takenRead : Bool := (s.taken i).any fun r => !r.write

def takenWrite : Bool := (s.taken i).any fun r => r.write

/-- `axi_req_o.w_valid & axi_resp_i.w_ready`. -/
def sends : Bool := z.wData.valid s.wData && i.wReady

def wBeat : AxiW p.laneBits := (z.wData.data s.wData).beat p.laneBits

/-! ## Responses -/

/-- `i_response_arbiter` has a fixed priority: a read beat goes first. -/
def slvPvalid (i : SocIn p) : Bool := i.rValid || i.bValid

def slvPwrite (i : SocIn p) : Bool := !i.rValid

def readShift : Nat := if p.laneBits = 0 then 0 else z.rShift.data s.rShift

/-- `slv_pdata_o`, for a write as well. -/
def slvPdata : Word := (i.r.data >>> (32 * s.readShift)).setWidth 32

/-- `idx_rsp`. -/
def idxRsp : Nat :=
  if p.numPorts = 1 then 0
  else if slvPwrite i then z.resp.data s.wResp else z.resp.data s.rResp

/-- `soc_pready_o` of a core's shim: a response from the L1 goes first. -/
def socPready (i : SocIn p) (core : Nat) : Bool := i.dataPready core && !i.tcdmValid core

/-- The transfer of a response. -/
def answers : Bool := slvPvalid i && socPready i (s.idxRsp i)

/-- `soc_meta_id` of the core's shim. -/
def socMetaId (core : Nat) : Nat :=
  if slvPwrite i then z.metaId.data (s.metaWrite core) else z.metaId.data (s.metaRead core)

def response : SocResp where
  core := s.idxRsp i
  id := s.socMetaId i (s.idxRsp i)
  data := s.slvPdata i
  write := slvPwrite i
  error := if slvPwrite i then respError i.bResp else respError i.r.resp

def answersRead : Bool := s.answers i && !slvPwrite i

def answersWrite : Bool := s.answers i && slvPwrite i

/-! ## Registers -/

def dataQid (i : SocIn p) (core : Nat) : Nat := ((i.dataQ core).map DataReq.id).getD 0

/-- `slv_qaddr_i` and the like where nothing is offered. -/
def slvPayload : DataReq :=
  (socQ i (s.idx i)).getD { addr := 0, write := false, amo := .none, data := 0, strb := 0, id := 0 }

def next : SocState z where
  metaRead core :=
    z.metaId.next (s.metaRead core) (s.takenRead i && s.idx i = core) (dataQid i core)
      (s.answersRead i && s.idxRsp i = core)
  metaWrite core :=
    z.metaId.next (s.metaWrite core) (s.takenWrite i && s.idx i = core) (dataQid i core)
      (s.answersWrite i && s.idxRsp i = core)
  rResp :=
    if p.numPorts = 1 then s.rResp
    else z.resp.next s.rResp (s.takenRead i) (s.idx i) (s.answersRead i)
  wResp :=
    if p.numPorts = 1 then s.wResp
    else z.resp.next s.wResp (s.takenWrite i) (s.idx i) (s.answersWrite i)
  wData := z.wData.next s.wData (s.takenWrite i) ((s.slvPayload i).writeExt p.laneBits)
    (s.sends i)
  rShift :=
    if p.laneBits = 0 then s.rShift
    else z.rShift.next s.rShift (s.takenRead i) ((s.slvPayload i).shift p.laneBits)
      (s.answersRead i)
  arb := z.arbiter.next s.arb (socQvalid i) (s.slvQready i && !s.full i)

end SocState

end TeraNoC.Hw
