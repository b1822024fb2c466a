import TeraNoC.Dma.DataPath

/-!
# A DMA backend (`axi_dma_backend`, `axi_dma_data_mover`)

The reshaper with the descriptors it makes for the data path, the data mover with its four
queues, the data path, and the memory on the other side of the AXI bus.

The requests wait in front of the reshaper and are shown to it in the cycles the backend chooses.
The memory answers reads in the order it has taken them, in the cycles it chooses and with data it
chooses: `mem q a` is the byte it gives for address `a` to the reads of the `q`-th request. It takes
addresses and data of writes when it chooses, the data of `lead` bursts at most before their
addresses, and the data of a burst up to `w_last`. `written` collects the bytes it is told to
write, in the order it is told; `issued` lists the write bursts that have been handed to the data
mover, which is the order their addresses come in.

The queue that marks which write completes a request is a module of its own and left out here, as
are identifiers, caches and responses, which the data does not depend on.
-/

namespace TeraNoC.Dma

open TeraNoC.Lib

/-! ## The descriptors of the reshaper -/

namespace ReshaperParams

variable (p : ReshaperParams)

/-- `r_num_bytes_possible`. -/
def rNumBytesPossible (q : BurstState) : Nat :=
  let rToPb := p.numBytesToPb q.deburst q.src.addr
  let wToPb := p.numBytesToPb q.deburst q.dst.addr
  if q.decoupleRw then rToPb else if rToPb > wToPb then wToPb else rToPb

/-- `w_num_bytes_possible`. -/
def wNumBytesPossible (q : BurstState) : Nat :=
  let rToPb := p.numBytesToPb q.deburst q.src.addr
  let wToPb := p.numBytesToPb q.deburst q.dst.addr
  if q.decoupleRw then wToPb else if rToPb > wToPb then wToPb else rToPb

/-- `r_num_bytes` and `w_num_bytes`. -/
def numBytes (ch : BurstChan) (possible : Nat) : Nat :=
  if ch.numBytes.toNat > possible then possible
  else slice ch.numBytes.toNat 0 (p.pageAddrWidth + 1)

/-- `read_req_o.r`. -/
def rDesc (q : BurstState) (shift : Nat) : RDesc where
  offset := slice q.src.addr.toNat 0 p.offsetWidth
  tailer := slice (p.numBytes q.src (p.rNumBytesPossible q) +
    slice q.src.addr.toNat 0 p.offsetWidth) 0 p.offsetWidth
  shift := shift

/-- `write_req_o.w`, of a burst with the given `len`. -/
def wDesc (q : BurstState) (len : BitVec 8) : WDesc where
  offset := slice q.dst.addr.toNat 0 p.offsetWidth
  tailer := slice (p.numBytes q.dst (p.wNumBytesPossible q) +
    slice q.dst.addr.toNat 0 p.offsetWidth) 0 p.offsetWidth
  numBeats := len
  isSingle := len == 0

/-- `burst_q.shift` of a request: a difference of `OffsetWidth` bits. -/
def shift (req : DmaReq) : Nat :=
  slice (2 ^ p.offsetWidth + slice req.src.toNat 0 p.offsetWidth -
    slice req.dst.toNat 0 p.offsetWidth) 0 p.offsetWidth

end ReshaperParams

/-! ## The data mover -/

structure BackendParams extends ReshaperParams where
  axReqFifoDepth : Nat
  bufferDepth : Nat

/-- The queues. -/
structure BackendCells (p : BackendParams) where
  ax : StreamFifo AxDesc p.axReqFifoDepth
  r : StreamFifo RDesc p.axReqFifoDepth
  w : StreamFifo WDesc p.axReqFifoDepth
  byte : StreamFifo DataByte p.bufferDepth

deriving instance Inhabited for AxDesc

def BackendCells.list (p : BackendParams) : BackendCells p where
  ax := .list AxDesc p.axReqFifoDepth
  r := .list RDesc p.axReqFifoDepth
  w := .list WDesc p.axReqFifoDepth
  byte := .list DataByte p.bufferDepth

structure MoverState {p : BackendParams} (F : BackendCells p) where
  arEmitter : F.ax.State
  awEmitter : F.ax.State
  rEmitter : F.r.State
  wEmitter : F.w.State
  path : PathState F.byte

def MoverState.reset {p : BackendParams} (F : BackendCells p) : MoverState F where
  arEmitter := F.ax.reset
  awEmitter := F.ax.reset
  rEmitter := F.r.reset
  wEmitter := F.w.reset
  path := .reset F.byte

/-- The requests of the reshaper and the answers of the bus. -/
structure MoverIn where
  ar : AxDesc
  r : RDesc
  rReqValid : Bool
  aw : AxDesc
  w : WDesc
  wReqValid : Bool
  arReady : Bool
  awReady : Bool
  rData : Nat → DataByte
  rValid : Bool
  rLast : Bool
  wReady : Bool

namespace MoverState

variable {p : BackendParams} {F : BackendCells p} (q : MoverState F) (i : MoverIn)

/-- `r_ready_o` of the data mover. -/
def rReqReady : Bool := F.ax.ready q.arEmitter && F.r.ready q.rEmitter

/-- `w_ready_o` of the data mover. -/
def wReqReady : Bool := F.ax.ready q.awEmitter && F.w.ready q.wEmitter

/-- The data path between its queues and the bus. -/
def dataPath : PathOut F.byte :=
  p.dataPath q.path
    { rDpValid := F.r.valid q.rEmitter
      wDpValid := F.w.valid q.wEmitter
      rData := i.rData
      rValid := i.rValid
      rLast := i.rLast
      r := F.r.data q.rEmitter
      wReady := i.wReady
      w := F.w.data q.wEmitter }

/-- One clock cycle. -/
def next : MoverState F where
  arEmitter := F.ax.next q.arEmitter (i.rReqValid && q.rReqReady) i.ar i.arReady
  awEmitter := F.ax.next q.awEmitter (i.wReqValid && q.wReqReady) i.aw i.awReady
  rEmitter := F.r.next q.rEmitter (i.rReqValid && q.rReqReady) i.r (q.dataPath i).rDpReady
  wEmitter := F.w.next q.wEmitter (i.wReqValid && q.wReqReady) i.w (q.dataPath i).wDpReady
  path := (q.dataPath i).next

end MoverState

/-! ## A run -/

/-- A read burst whose address the memory has taken, with the beats it has given. -/
structure Owed where
  ax : AxDesc
  beats : Nat

/-- What is free in a cycle. -/
structure BackendIn where
  valid : Bool
  arReady : Bool
  awReady : Bool
  rValid : Bool
  wReady : Bool

/-- Everything is free in every cycle. -/
def BackendIn.eager : BackendIn where
  valid := true
  arReady := true
  awReady := true
  rValid := true
  wReady := true

structure BackendRun {p : BackendParams} (F : BackendCells p) where
  reshaper : BurstState
  shift : Nat
  mover : MoverState F
  pending : List DmaReq
  /-- The requests the reshaper has taken. -/
  taken : Nat
  /-- The number of the request of every read burst under way, in order. -/
  serves : List Nat
  reads : List Owed
  issued : List AxDesc
  /-- The write bursts whose address, and those whose data, the memory has taken. -/
  awTaken : Nat
  wTaken : Nat
  /-- The beats it has taken of the next one. -/
  wBeats : Nat
  written : List (Nat × DataByte)

namespace BackendRun

variable {p : BackendParams} {F : BackendCells p}

def start (F : BackendCells p) (reqs : List DmaReq) : BackendRun F where
  reshaper := .reset
  shift := 0
  mover := .reset F
  pending := reqs
  taken := 0
  serves := []
  reads := []
  issued := []
  awTaken := 0
  wTaken := 0
  wBeats := 0
  written := []

variable (lead : Nat) (mem : Nat → Nat → DataByte) (s : BackendRun F) (x : BackendIn)

/-- The reshaper in this cycle. -/
def reshape : ReshapeOut :=
  p.reshape s.reshaper
    { burstReq := s.pending.headD .zero
      valid := x.valid && !s.pending.isEmpty
      rReady := s.mover.rReqReady
      wReady := s.mover.wReqReady }

/-- The memory has a read to answer. -/
def rValid : Bool := x.rValid && !s.reads.isEmpty

def rLast : Bool :=
  match s.reads with
  | o :: _ => decide (o.beats = o.ax.len.toNat)
  | [] => false

/-- The beat it gives: the row of the bus that follows the last one of the burst. -/
def rData (lane : Nat) : DataByte :=
  match s.reads, s.serves with
  | o :: _, q :: _ => mem q (o.ax.addr.toNat + p.strbWidth * o.beats + lane)
  | _, _ => 0

/-- The addresses taken after this cycle. -/
def awTakenNext : Nat :=
  if F.ax.valid s.mover.awEmitter && x.awReady then s.awTaken + 1 else s.awTaken

/-- What comes from the reshaper and over the bus. The backend sends data however far they are ahead
of their addresses; it is the memory, at the other end of `w_ready`, that takes at most `lead`
bursts of them. -/
def moverIn : MoverIn where
  ar := (s.reshape x).readReq
  r := p.rDesc s.reshaper s.shift
  rReqValid := (s.reshape x).rValid
  aw := (s.reshape x).writeReq
  w := p.wDesc s.reshaper (s.reshape x).writeReq.len
  wReqValid := (s.reshape x).wValid
  arReady := x.arReady
  awReady := x.awReady
  rData := s.rData mem
  rValid := s.rValid x
  rLast := s.rLast
  wReady := x.wReady && decide (s.wTaken < s.awTakenNext x + lead)

def path : PathOut F.byte := s.mover.dataPath (s.moverIn lead mem x)

/-- The reads under way after this cycle. -/
def readsNext : List Owed :=
  (if s.rValid x && (s.path lead mem x).rReady then
    match s.reads with
    | o :: rest => if s.rLast then rest else { o with beats := o.beats + 1 } :: rest
    | [] => []
  else s.reads) ++
    if F.ax.valid s.mover.arEmitter && x.arReady then [⟨F.ax.data s.mover.arEmitter, 0⟩] else []

/-- A write beat goes over the bus. -/
def wFires : Bool := (s.path lead mem x).wValid && (s.moverIn lead mem x).wReady

/-- The bytes of a write beat, by address. -/
def beatBytes : List (Nat × DataByte) :=
  match s.issued[s.wTaken]? with
  | some ax =>
    ((List.range p.strbWidth).filter (s.path lead mem x).wStrb).map fun lane =>
      (ax.addr.toNat + p.strbWidth * s.wBeats + lane, (s.path lead mem x).wData lane)
  | none => []

def step : BackendRun F where
  reshaper := (s.reshape x).next
  shift := if (s.reshape x).ready then p.shift (s.pending.headD .zero) else s.shift
  mover := s.mover.next (s.moverIn lead mem x)
  pending := if (s.reshape x).ready then s.pending.tail else s.pending
  taken := if (s.reshape x).ready then s.taken + 1 else s.taken
  serves :=
    (if s.rValid x && s.rLast && (s.path lead mem x).rReady then s.serves.tail else s.serves) ++
      if (s.reshape x).rValid && s.mover.rReqReady then [s.taken - 1] else []
  reads := s.readsNext lead mem x
  issued := s.issued ++
    if (s.reshape x).wValid && s.mover.wReqReady then [(s.reshape x).writeReq] else []
  awTaken := s.awTakenNext x
  wTaken := if s.wFires lead mem x && (s.path lead mem x).wLast then s.wTaken + 1 else s.wTaken
  wBeats :=
    if s.wFires lead mem x then if (s.path lead mem x).wLast then 0 else s.wBeats + 1
    else s.wBeats
  written := if s.wFires lead mem x then s.written ++ s.beatBytes lead mem x else s.written

/-- The state after `t` cycles. -/
def after (F : BackendCells p) (lead : Nat) (mem : Nat → Nat → DataByte) (reqs : List DmaReq)
    (input : Nat → BackendIn) : Nat → BackendRun F
  | 0 => start F reqs
  | t + 1 => (after F lead mem reqs input t).step lead mem (input t)

/-- What a list of requests asks for: the address and the value of every byte, where `q` is the
number of the first one. -/
def asked (mem : Nat → Nat → DataByte) (q : Nat) : List DmaReq → List (Nat × DataByte)
  | [] => []
  | req :: reqs =>
    (List.range req.numBytes.toNat).map (fun k => (req.dst.toNat + k, mem q (req.src.toNat + k))) ++
      asked mem (q + 1) reqs

end BackendRun

end TeraNoC.Dma
