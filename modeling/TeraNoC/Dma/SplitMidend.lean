import TeraNoC.Dma.Request
import TeraNoC.Hw.Pkg

/-!
# The split midend (`idma_split_midend`)

One clock cycle of the two-state machine that cuts a request at the borders of
the L1 windows: `splitFsm` is the combinational block and the registers it
writes, `splitStep` adds the counter of outstanding sub-requests. In `Idle` the
first sub-request is fed through combinationally while the request itself is
stored and acknowledged; in `Busy` the stored request is worked off.
-/

namespace TeraNoC.Dma

open TeraNoC.Lib

structure SplitParams extends Region where
  dmaRegionWidth : Nat

inductive SplitPhase where
  | idle
  | busy
  deriving DecidableEq, Repr

structure SplitState where
  phase : SplitPhase
  req : DmaReq
  numTrans : BitVec 32
  deriving DecidableEq, Repr

def SplitState.reset : SplitState where
  phase := .idle
  req := .zero
  numTrans := 0

structure SplitIn where
  burstReq : DmaReq
  valid : Bool
  ready : Bool
  downMeta : DmaMeta

/-- The registers `state_q` and `req_q` after the cycle, and the outputs. -/
structure SplitFsm where
  phase : SplitPhase
  req : DmaReq
  burstReq : DmaReq
  valid : Bool
  ready : Bool
  reqValid : Bool

/-- A request with its first `k` bytes taken off. -/
def DmaReq.advance (req : DmaReq) (k : Nat) : DmaReq :=
  { req with
    src := req.src + BitVec.ofNat 32 k
    dst := req.dst + BitVec.ofNat 32 k
    numBytes := req.numBytes - BitVec.ofNat 32 k }

namespace SplitParams

variable (p : SplitParams)

def dmaRegionAddressBits : Nat := clog2 p.dmaRegionWidth

def startAddr (req : DmaReq) : BitVec 32 :=
  if p.contains req.src then req.src else req.dst

/-- Bytes from the start of the request to the end of its first window. -/
def firstBytes (req : DmaReq) : Nat :=
  p.dmaRegionWidth - slice (p.startAddr req).toNat 0 p.dmaRegionAddressBits

def splitFsm (phaseQ : SplitPhase) (reqQ burstReqI : DmaReq) (validI readyI : Bool) :
    SplitFsm :=
  match phaseQ with
  | .idle =>
      if validI then
        if p.firstBytes burstReqI ≥ burstReqI.numBytes.toNat then
          -- no splitting required, just forward
          { phase := .idle, req := reqQ, burstReq := burstReqI, valid := true
            ready := readyI, reqValid := readyI }
        else
          -- store and acknowledge; the first sub-request is fed through
          { phase := .busy
            req := if readyI then burstReqI.advance (p.firstBytes burstReqI) else burstReqI
            burstReq :=
              { burstReqI with numBytes := BitVec.ofNat 32 (p.firstBytes burstReqI) }
            valid := true, ready := true, reqValid := readyI }
      else
        { phase := .idle, req := reqQ, burstReq := .zero, valid := false, ready := false
          reqValid := false }
  | .busy =>
      if reqQ.numBytes.toNat ≤ p.dmaRegionWidth then
        -- last split
        { phase := if readyI then .idle else .busy
          req := reqQ, burstReq := reqQ, valid := true, ready := false, reqValid := readyI }
      else
        { phase := .busy
          req := if readyI then reqQ.advance p.dmaRegionWidth else reqQ
          burstReq := { reqQ with numBytes := BitVec.ofNat 32 p.dmaRegionWidth }
          valid := true, ready := false, reqValid := readyI }

/-- `num_trans_d`. -/
def numTransD (numTransQ : BitVec 32) (reqValid transComplete : Bool) : BitVec 32 :=
  numTransQ + (if reqValid then 1 else 0) - (if transComplete then 1 else 0)

/-- One clock cycle: the state after it, the outputs of the state machine, and
the metadata sent upstream. -/
def splitStep (s : SplitState) (i : SplitIn) : SplitState × SplitFsm × DmaMeta :=
  let fsm := p.splitFsm s.phase s.req i.burstReq i.valid i.ready
  let numTransD := numTransD s.numTrans fsm.reqValid i.downMeta.transComplete
  ({ phase := fsm.phase, req := fsm.req, numTrans := numTransD }, fsm,
    { backendIdle := i.downMeta.backendIdle
      transComplete := s.numTrans == 1 && numTransD == 0 })

end SplitParams

/-- The instance of `mempool_system`. -/
def systemSplit (c : Hw.Params) (tcdmBaseAddr : Nat) : SplitParams where
  dmaRegionWidth := c.numBanksPerGroup * c.numGroups * 4
  dmaRegionStart := tcdmBaseAddr
  dmaRegionEnd := tcdmBaseAddr + c.tcdmSize

/-! ## A run

Upstream presents the oldest request it has not handed over yet and holds it
until it is acknowledged; downstream answers in every cycle with a ready bit
and its metadata. `handed` collects the sub-requests downstream has taken.
-/

structure Down where
  ready : Bool
  downMeta : DmaMeta

structure SplitRun where
  mid : SplitState
  pending : List DmaReq
  handed : List DmaReq

namespace SplitRun

def start (reqs : List DmaReq) : SplitRun where
  mid := .reset
  pending := reqs
  handed := []

def step (p : SplitParams) (r : SplitRun) (d : Down) : SplitRun :=
  let valid := !r.pending.isEmpty
  let (mid, fsm, _) := p.splitStep r.mid
    { burstReq := r.pending.headD .zero, valid := valid, ready := d.ready
      downMeta := d.downMeta }
  { mid := mid
    pending := if valid && fsm.ready then r.pending.tail else r.pending
    handed := if fsm.valid && d.ready then r.handed ++ [fsm.burstReq] else r.handed }

/-- The state after `t` cycles. -/
def after (p : SplitParams) (reqs : List DmaReq) (down : Nat → Down) : Nat → SplitRun
  | 0 => start reqs
  | t + 1 => (after p reqs down t).step p (down t)

end SplitRun

end TeraNoC.Dma
