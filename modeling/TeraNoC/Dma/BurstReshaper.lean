import TeraNoC.Dma.Request

/-!
# The burst reshaper (`axi_dma_burst_reshaper`)

One clock cycle of the module that turns the request of a DMA backend into AXI
bursts. It holds one transfer, as a read and a write channel that each know the
address they have reached and the bytes they have left; a cycle in which the
data mover takes a burst moves the channel on to the next page. The two halves
of the source are the same text for the two channels, so they are one
definition here, applied to each channel with the number of bytes it may send.

The descriptors for the data path (`r`, `w`, `shift`) are left out: they say how
the bytes are realigned, not where they go.
-/

namespace TeraNoC.Dma

open TeraNoC.Lib

/-- `axi_pkg::BURST_INCR`. -/
def burstIncr : BitVec 2 := 0b01

structure ReshaperParams where
  dataWidth : Nat

namespace ReshaperParams

variable (p : ReshaperParams)

def strbWidth : Nat := p.dataWidth / 8
def offsetWidth : Nat := clog2 p.strbWidth
def pageSize : Nat := if 256 * p.strbWidth > 4096 then 4096 else 256 * p.strbWidth
def pageAddrWidth : Nat := clog2 p.pageSize

end ReshaperParams

/-- `burst_chan_t`: what one channel still has to do. -/
structure BurstChan where
  id : Nat
  addr : BitVec 32
  numBytes : BitVec 32
  cache : BitVec 4
  burst : BitVec 2
  valid : Bool
  deriving DecidableEq, Repr

def BurstChan.zero : BurstChan where
  id := 0
  addr := 0
  numBytes := 0
  cache := 0
  burst := 0
  valid := false

/-- `desc_ax_t`: an AR or AW beat. -/
structure AxDesc where
  id : Nat
  last : Bool
  addr : BitVec 32
  len : BitVec 8
  size : Nat
  burst : BitVec 2
  cache : BitVec 4
  deriving DecidableEq, Repr

structure BurstState where
  src : BurstChan
  dst : BurstChan
  decoupleRw : Bool
  deburst : Bool
  deriving DecidableEq, Repr

def BurstState.reset : BurstState where
  src := .zero
  dst := .zero
  decoupleRw := false
  deburst := false

structure ReshapeIn where
  burstReq : DmaReq
  valid : Bool
  rReady : Bool
  wReady : Bool

structure ReshapeOut where
  next : BurstState
  readReq : AxDesc
  writeReq : AxDesc
  rValid : Bool
  wValid : Bool
  ready : Bool

namespace ReshaperParams

variable (p : ReshaperParams)

/-- `r_num_bytes_to_pb` and `w_num_bytes_to_pb`. -/
def numBytesToPb (deburst : Bool) (addr : BitVec 32) : Nat :=
  if deburst then
    (p.strbWidth - slice addr.toNat 0 p.offsetWidth) % (2 * p.strbWidth)
  else p.pageSize - slice addr.toNat 0 p.pageAddrWidth

/-- The AX beat of a channel that sends `numBytes` bytes. -/
def axReq (ch : BurstChan) (numBytes : Nat) (finish : Bool) : AxDesc where
  id := ch.id
  last := finish
  addr := BitVec.ofNat 32 (ch.addr.toNat - slice ch.addr.toNat 0 p.offsetWidth)
  len := BitVec.ofNat 8
    ((numBytes + slice ch.addr.toNat 0 p.offsetWidth + 2 ^ 32 - 1) % 2 ^ 32 / 2 ^ p.offsetWidth)
  size := p.offsetWidth
  burst := ch.burst
  cache := ch.cache

/-- The transaction of one channel: the AX beat, and the channel after it. -/
def transaction (ch : BurstChan) (numBytesPossible : Nat) : AxDesc × BurstChan :=
  if ch.numBytes.toNat > numBytesPossible then
    (p.axReq ch numBytesPossible false,
      { ch with
        numBytes := ch.numBytes - BitVec.ofNat 32 numBytesPossible
        addr := if ch.burst = burstIncr then ch.addr + BitVec.ofNat 32 numBytesPossible
          else ch.addr })
  else (p.axReq ch (slice ch.numBytes.toNat 0 (p.pageAddrWidth + 1)) true, .zero)

/-- One clock cycle. -/
def reshape (q : BurstState) (i : ReshapeIn) : ReshapeOut :=
  let rToPb := p.numBytesToPb q.deburst q.src.addr
  let wToPb := p.numBytesToPb q.deburst q.dst.addr
  let cToPb := if rToPb > wToPb then wToPb else rToPb
  let (ar, src) := p.transaction q.src (if q.decoupleRw then rToPb else cToPb)
  let (aw, dst) := p.transaction q.dst (if q.decoupleRw then wToPb else cToPb)
  let ready := ar.last && aw.last && i.valid && i.rReady && i.wReady
  let req := i.burstReq
  let live := if req.numBytes = 0 then false else i.valid
  -- a new request is taken in when both channels are done
  let src := if ready then
    { id := req.id, addr := req.src, numBytes := req.numBytes, cache := req.cacheSrc
      burst := req.burstSrc, valid := live : BurstChan } else src
  let dst := if ready then
    { id := req.id, addr := req.dst, numBytes := req.numBytes, cache := req.cacheDst
      burst := req.burstDst, valid := live : BurstChan } else dst
  let decoupleRw := if ready then req.decoupleRw else q.decoupleRw
  let moveSrc := if decoupleRw then i.rReady else i.rReady && i.wReady
  let moveDst := if decoupleRw then i.wReady else i.wReady && i.rReady
  { next :=
      { src := if moveSrc then src else q.src
        dst := if moveDst then dst else q.dst
        decoupleRw := decoupleRw
        deburst := if ready then req.deburst else q.deburst }
    readReq := ar
    writeReq := aw
    rValid := if q.decoupleRw then q.src.valid else q.src.valid && i.wReady
    wValid := if q.decoupleRw then q.dst.valid else q.dst.valid && i.rReady
    ready := ready }

end ReshaperParams

/-! ## A run

The requests of a backend wait in a FIFO; its head is presented in the cycles
the backend chooses. `reads` and `writes` collect the bursts the data mover has
taken. -/

structure Mover where
  valid : Bool
  rReady : Bool
  wReady : Bool

structure ReshapeRun where
  state : BurstState
  pending : List DmaReq
  reads : List AxDesc
  writes : List AxDesc

namespace ReshapeRun

def start (reqs : List DmaReq) : ReshapeRun where
  state := .reset
  pending := reqs
  reads := []
  writes := []

def step (p : ReshaperParams) (r : ReshapeRun) (m : Mover) : ReshapeRun :=
  let valid := m.valid && !r.pending.isEmpty
  let out := p.reshape r.state
    { burstReq := r.pending.headD .zero, valid := valid
      rReady := m.rReady, wReady := m.wReady }
  { state := out.next
    pending := if out.ready then r.pending.tail else r.pending
    reads := if out.rValid && m.rReady then r.reads ++ [out.readReq] else r.reads
    writes := if out.wValid && m.wReady then r.writes ++ [out.writeReq] else r.writes }

/-- The state after `t` cycles. -/
def after (p : ReshaperParams) (reqs : List DmaReq) (mover : Nat → Mover) : Nat → ReshapeRun
  | 0 => start reqs
  | t + 1 => (after p reqs mover t).step p (mover t)

end ReshapeRun

end TeraNoC.Dma
