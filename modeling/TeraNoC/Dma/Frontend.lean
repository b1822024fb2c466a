import TeraNoC.Dma.SplitMidend
import TeraNoC.Lib.Stream

/-!
# The DMA frontend (`mempool_dma`) and the launch path of `mempool_system`

The register file the cores see, the flag behind the `DONE` register, and the
cells between the frontend and the split midend: a spill register on the way
down and one register on the metadata on the way up.

`LaunchPath.next` is one clock cycle of all of them. What lies below the split
midend is the environment: in every cycle it may take a sub-request, and it may
report one of those it holds as completed.
-/

namespace TeraNoC.Dma

open TeraNoC.Lib

/-! ## The register file (`mempool_dma_frontend_reg_top`) -/

/-- One access on the register bus, `ctrl_reg_req` with its `valid` set. -/
structure RegReq where
  addr : BitVec 5
  write : Bool
  wdata : BitVec 32
  wstrb : BitVec 4
  deriving DecidableEq, Repr

inductive FrontendReg where
  | srcAddr
  | dstAddr
  | numBytes
  | conf
  | status
  | nextId
  | done
  deriving DecidableEq, Repr

namespace FrontendReg

def offset : FrontendReg → BitVec 5
  | srcAddr => 0x0
  | dstAddr => 0x4
  | numBytes => 0x8
  | conf => 0xc
  | status => 0x10
  | nextId => 0x14
  | done => 0x18

/-- `MEMPOOL_DMA_FRONTEND_PERMIT`: the bytes a write has to enable. -/
def permit : FrontendReg → BitVec 4
  | conf | status => 0b0001
  | _ => 0b1111

end FrontendReg

namespace RegReq

variable (q : RegReq)

def addrHit (r : FrontendReg) : Bool := q.addr == r.offset

/-- `wr_err`, for the register that is hit; `devmode_i` is tied to zero. -/
def wrErr (r : FrontendReg) : Bool := q.write && (r.permit &&& ~~~q.wstrb) != 0

def we (r : FrontendReg) : Bool := q.addrHit r && q.write && !q.wrErr r

def re (r : FrontendReg) : Bool := q.addrHit r && !q.write

end RegReq

structure FrontendState where
  srcAddr : BitVec 32
  dstAddr : BitVec 32
  numBytes : BitVec 32
  confDecouple : Bool
  confDeburst : Bool
  confSerialize : Bool
  transComplete : Bool
  deriving DecidableEq, Repr

namespace FrontendState

def reset : FrontendState where
  srcAddr := 0
  dstAddr := 0
  numBytes := 0
  confDecouple := false
  confDeburst := false
  confSerialize := false
  transComplete := false

/-- `reg_rdata_next`. -/
def regRdata (s : FrontendState) (backendIdle : Bool) (q : RegReq) : BitVec 32 :=
  if q.addrHit .srcAddr then s.srcAddr
  else if q.addrHit .dstAddr then s.dstAddr
  else if q.addrHit .numBytes then s.numBytes
  else if q.addrHit .conf then
    BitVec.ofNat 32 (s.confDecouple.toNat + 2 * s.confDeburst.toNat + 4 * s.confSerialize.toNat)
  else if q.addrHit .status then BitVec.ofNat 32 backendIdle.toNat
  else if q.addrHit .nextId then 0
  else if q.addrHit .done then BitVec.ofNat 32 s.transComplete.toNat
  else BitVec.allOnes 32

/-- `burst_req_o`. The configuration register is not looked at. -/
def burstReq (s : FrontendState) : DmaReq where
  id := 0
  src := s.srcAddr
  dst := s.dstAddr
  numBytes := s.numBytes
  cacheSrc := 0b0010
  cacheDst := 0b0010
  burstSrc := 0b01
  burstDst := 0b01
  decoupleRw := true
  deburst := false
  serialize := false

/-- `valid_o`: high in the cycle of a read of `NEXT_ID`, whether or not anybody
is ready to take the request. -/
def validO (access : Option RegReq) : Bool := access.any (·.re .nextId)

def transCompleteD (s : FrontendState) (validO transCompleteI : Bool) : Bool :=
  if validO then false
  else if transCompleteI then true
  else s.transComplete

def next (s : FrontendState) (access : Option RegReq) (transCompleteI : Bool) :
    FrontendState where
  srcAddr := if access.any (·.we .srcAddr) then (access.map (·.wdata)).getD 0 else s.srcAddr
  dstAddr := if access.any (·.we .dstAddr) then (access.map (·.wdata)).getD 0 else s.dstAddr
  numBytes := if access.any (·.we .numBytes) then (access.map (·.wdata)).getD 0 else s.numBytes
  confDecouple :=
    if access.any (·.we .conf) then access.any (·.wdata.getLsbD 0) else s.confDecouple
  confDeburst :=
    if access.any (·.we .conf) then access.any (·.wdata.getLsbD 1) else s.confDeburst
  confSerialize :=
    if access.any (·.we .conf) then access.any (·.wdata.getLsbD 2) else s.confSerialize
  transComplete := s.transCompleteD (validO access) transCompleteI

end FrontendState

/-! ## The launch path -/

/-- What the cores and the environment do in one cycle. -/
structure LaunchIn where
  access : Option RegReq
  ready : Bool
  complete : Bool
  backendIdle : Bool
  deriving DecidableEq, Repr

/-- `i_mempool_dma`, `i_dma_req_register`, `i_idma_split_midend`, the register
`dma_meta`, and what is below: `inFlight` are the sub-requests taken and not
completed yet, oldest first. `handed` and `completed` are the history: the
requests the split midend has acknowledged, and the sub-requests reported as
completed. -/
structure LaunchState (F : StreamFifo DmaReq 2) where
  front : FrontendState
  spill : F.State
  mid : SplitState
  metaQ : DmaMeta
  inFlight : List DmaReq
  handed : List DmaReq
  completed : List DmaReq

namespace LaunchState

variable {F : StreamFifo DmaReq 2} (p : SplitParams)

def reset : LaunchState F where
  front := .reset
  spill := F.reset
  mid := .reset
  metaQ := { backendIdle := false, transComplete := false }
  inFlight := []
  handed := []
  completed := []

/-- The data a read access returns. -/
def rdata (s : LaunchState F) (q : RegReq) : BitVec 32 :=
  s.front.regRdata s.metaQ.backendIdle q

/-- Only a sub-request that was taken before can complete. -/
def completes (s : LaunchState F) (i : LaunchIn) : Bool := i.complete && !s.inFlight.isEmpty

def splitIn (s : LaunchState F) (i : LaunchIn) : SplitIn where
  burstReq := F.data s.spill
  valid := F.valid s.spill
  ready := i.ready
  downMeta := { backendIdle := i.backendIdle, transComplete := s.completes i }

def next (s : LaunchState F) (i : LaunchIn) : LaunchState F :=
  let validO := FrontendState.validO i.access
  let (mid, fsm, metaCut) := p.splitStep s.mid (s.splitIn i)
  { front := s.front.next i.access s.metaQ.transComplete
    spill := F.next s.spill validO s.front.burstReq fsm.ready
    mid := mid
    metaQ := metaCut
    inFlight :=
      (if s.completes i then s.inFlight.tail else s.inFlight) ++
        (if fsm.valid && i.ready then [fsm.burstReq] else [])
    handed := s.handed ++ (if F.valid s.spill && fsm.ready then [F.data s.spill] else [])
    completed := s.completed ++ (if s.completes i then s.inFlight.take 1 else []) }

def after (inp : Nat → LaunchIn) : Nat → LaunchState F
  | 0 => reset
  | t + 1 => (after inp t).next p (inp t)

end LaunchState

end TeraNoC.Dma
