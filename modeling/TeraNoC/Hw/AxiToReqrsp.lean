import TeraNoC.Hw.TcdmAdapter
import TeraNoC.Lib.Fork

/-!
# From AXI bursts to requests (`axi_to_reqrsp`)

One clock cycle of the module that connects a DMA to the banks. A read and a write side take the
bursts apart; the arbiter lets one beat at a time through to a fork, which hands it to the
request port and to two queues that remember where its response goes. A response is joined with
the fronts of the queues, and a second fork hands it to the B or the R channel, to both, or, for
a write beat that is not the last one, to none.

The bursts come from three lists, and the responses from a memory that answers the requests in
order, no earlier than in the cycle after it took them; when something is offered and when it is
taken is up to the environment. What has been offered stays until it is taken, which AXI asks of
a master and a bank of itself. Histories: the requests, and the responses of both channels, each
with the `meta` it belongs to.
-/

namespace TeraNoC.Hw.AxiToReqrsp

open TeraNoC.Lib

structure Params where
  addrWidth : Nat
  dataWidth : Nat
  bufDepth : Nat

/-! ## Channels -/

structure ArChan where
  addr : Nat
  len : Nat
  size : Nat
  id : Nat
  qos : Nat
  lock : Bool
  deriving DecidableEq

structure AwChan extends ArChan where
  atop : BitVec 6
  deriving DecidableEq

structure WChan (p : Params) where
  data : BitVec p.dataWidth
  strb : BitVec (p.dataWidth / 8)
  deriving DecidableEq, Inhabited

structure RChan (p : Params) where
  data : BitVec p.dataWidth
  id : Nat
  last : Bool
  resp : BitVec 2
  deriving DecidableEq

structure BChan where
  id : Nat
  resp : BitVec 2
  deriving DecidableEq

/-- `meta_t`. -/
structure MetaT where
  addr : Nat
  atop : BitVec 6
  id : Nat
  last : Bool
  qos : Nat
  size : Nat
  write : Bool
  lock : Bool
  deriving DecidableEq, Inhabited

/-- `reqrsp_req_o.q`. -/
structure ReqChan (p : Params) where
  addr : Nat
  write : Bool
  amo : AmoOp
  data : BitVec p.dataWidth
  strb : BitVec (p.dataWidth / 8)
  size : Nat
  deriving DecidableEq

/-- `reqrsp_rsp_i.p`. -/
structure RspChan (p : Params) where
  data : BitVec p.dataWidth
  error : Bool

/-- `from_axi_amo`: the swap is `110000`, the loads in little endian start with `100`. -/
def fromAxiAmo (atop : BitVec 6) : AmoOp :=
  match atop.toNat with
  | 0b110000 => .swap
  | 0b100000 => .add
  | 0b100001 => .and
  | 0b100011 => .or
  | 0b100010 => .xor
  | 0b100100 => .max
  | 0b100110 => .maxu
  | 0b100101 => .min
  | 0b100111 => .minu
  | _ => .none

/-- `num_bytes`. -/
def numBytes (size : Nat) : Nat := 2 ^ size

/-- `aligned_addr`. -/
def alignedAddr (addr size : Nat) : Nat := addr / 2 ^ size * 2 ^ size

/-! ## The two sides -/

/-- What `rd_meta_d` and `wr_meta_d` are set to for a new burst, and the address it starts at. -/
structure Burst where
  metaD : MetaT
  addr : Nat
  len : Nat
  last_eq : metaD.last = (len == 0)

def ArChan.burst (p : Params) (ar : ArChan) (atop : BitVec 6) (write : Bool) : Burst where
  metaD :=
    { addr := alignedAddr ar.addr ar.size % 2 ^ p.addrWidth
      atop := atop
      id := ar.id
      last := ar.len == 0
      qos := ar.qos
      size := ar.size
      write := write
      lock := ar.lock }
  addr := ar.addr % 2 ^ p.addrWidth
  len := ar.len
  last_eq := rfl

/-- "Handle new AR if there is one." -/
def ArChan.read (p : Params) (ar : ArChan) : Burst := ar.burst p 0 false

/-- "Handle new AW if there is one." -/
def AwChan.write (p : Params) (aw : AwChan) : Burst := aw.burst p aw.atop true

/-- `r_cnt_q` and `rd_meta_q`, or `w_cnt_q` and `wr_meta_q`. -/
structure Side where
  cnt : Nat
  metaQ : MetaT

namespace Side

variable (p : Params) (s : Side) (new : Option Burst) (data ready : Bool)

/-- `rd_valid`, `wr_valid`: `data` is `w_valid` for the writes. -/
def valid : Bool := if 0 < s.cnt then data else new.isSome

/-- `rd_meta`, `wr_meta`. -/
def axMeta : MetaT :=
  if 0 < s.cnt then
    { s.metaQ with
      last := s.cnt == 1
      addr := (s.metaQ.addr + numBytes s.metaQ.size) % 2 ^ p.addrWidth }
  else
    match new with
    | some b => { b.metaD with addr := b.addr }
    | none => default

/-- The burst is taken. -/
def takes : Bool := s.cnt == 0 && new.isSome && ready

def next : Side :=
  if 0 < s.cnt then
    if data && ready then { cnt := s.cnt - 1, metaQ := s.axMeta p new }
    else { s with metaQ := { s.metaQ with last := s.cnt == 1 } }
  else
    match new with
    | some b => { cnt := if ready then b.len else 0, metaQ := b.metaD }
    | none => s

end Side

/-! ## The module -/

/-- The outputs of the two forks. -/
inductive ReqOut
  | sel
  | metaBuf
  | req
  deriving DecidableEq

inductive RspOut
  | b
  | r
  deriving DecidableEq

def reqOuts : List ReqOut := [.sel, .metaBuf, .req]

def rspOuts : List RspOut := [.b, .r]

/-- The two forks and the two queues: `sel_b` and `sel_r` in one of them. -/
structure Cells (p : Params) where
  fork : StreamFork reqOuts
  dynFork : StreamFork rspOuts
  sel : FallThroughFifo (Bool × Bool) (1 + p.bufDepth)
  metaBuf : FallThroughFifo MetaT (1 + p.bufDepth)

def Cells.list (p : Params) : Cells p where
  fork := .marks _
  dynFork := .marks _
  sel := .list _ _
  metaBuf := .list _ _

structure State {p : Params} (F : Cells p) where
  ars : List ArChan
  aws : List AwChan
  ws : List (WChan p)
  arShown : Bool
  awShown : Bool
  wShown : Bool
  read : Side
  write : Side
  metaSel : Bool
  selLock : Bool
  fork : F.fork.State
  selBuf : F.sel.State
  metaBuf : F.metaBuf.State
  dynFork : F.dynFork.State
  pShown : Bool
  sent : List (MetaT × ReqChan p)
  answered : Nat
  rs : List (MetaT × RChan p)
  bs : List (MetaT × BChan)

def State.start {p : Params} (F : Cells p) (ars : List ArChan) (aws : List AwChan)
    (ws : List (WChan p)) : State F where
  ars := ars
  aws := aws
  ws := ws
  arShown := false
  awShown := false
  wShown := false
  read := ⟨0, default⟩
  write := ⟨0, default⟩
  metaSel := false
  selLock := false
  fork := F.fork.reset
  selBuf := F.sel.reset
  metaBuf := F.metaBuf.reset
  dynFork := F.dynFork.reset
  pShown := false
  sent := []
  answered := 0
  rs := []
  bs := []

/-- What the environment does in a cycle. -/
structure In where
  arValid : Bool
  awValid : Bool
  wValid : Bool
  bReady : Bool
  rReady : Bool
  qReady : Bool
  pValid : Bool

/-- Nothing is held back. -/
def In.eager : In := ⟨true, true, true, true, true, true, true⟩

namespace MetaT

variable {p : Params} (m : MetaT)

def selB : Bool := m.write && m.last

def selR : Bool := !m.write || m.atop.getLsbD 5

/-- The exclusive accesses replace the operation of `atop`. -/
def amo : AmoOp :=
  if m.lock then if m.write then .sc else .lr else fromAxiAmo m.atop

/-- "The `AMOAnd` has a slightly different semantic to the AXI `Set`." -/
def data (w : WChan p) : BitVec p.dataWidth :=
  if fromAxiAmo m.atop = .and then ~~~w.data else w.data

/-- `reqrsp_req_o.q`. -/
def request (w : WChan p) : ReqChan p where
  addr := m.addr
  write := m.write && m.amo == .none
  amo := m.amo
  data := if m.write then m.data w else 0
  strb := if m.write then w.strb else 0
  size := m.size

/-- "Compose error flag": the success is encoded in the LSB. -/
def resp (rsp : RspChan p) : BitVec 2 :=
  (if rsp.error then 2 else 0) ||| if m.lock && rsp.data.getLsbD 0 then 1 else 0

def rBeat (rsp : RspChan p) : RChan p := ⟨rsp.data, m.id, m.last, m.resp rsp⟩

def bBeat (rsp : RspChan p) : BChan := ⟨m.id, m.resp rsp⟩

end MetaT

namespace State

variable {p : Params} {F : Cells p} (answer : Nat → RspChan p) (s : State F) (x : In)

/-! ### Up to the arbiter -/

def wValid : Bool := (s.wShown || x.wValid) && !s.ws.isEmpty

/-- `axi_req_i.w`. -/
def w : WChan p := s.ws.headD default

def newRead : Option Burst :=
  if s.arShown || x.arValid then s.ars.head?.map (ArChan.read p) else none

/-- A burst of writes starts together with its first beat. -/
def newWrite : Option Burst :=
  if (s.awShown || x.awValid) && s.wValid x then s.aws.head?.map (AwChan.write p) else none

def rdValid : Bool := s.read.valid (s.newRead x) true

def wrValid : Bool := s.write.valid (s.newWrite x) (s.wValid x)

def rdMeta : MetaT := s.read.axMeta p (s.newRead x)

def wrMeta : MetaT := s.write.axMeta p (s.newWrite x)

/-- `meta_sel_d`: the writes. -/
def metaSelD : Bool :=
  if s.selLock then s.metaSel
  else if s.wrValid x ^^ s.rdValid x then s.wrValid x
  else if s.wrValid x && s.rdValid x then
    if (s.rdMeta x).qos < (s.wrMeta x).qos then true
    else if (s.wrMeta x).qos < (s.rdMeta x).qos then false
    else if (s.wrMeta x).last && !(s.rdMeta x).last then true
    else if 0 < s.write.cnt then true
    else if 0 < s.read.cnt then false
    else !s.metaSel
  else s.metaSel

def axMeta : MetaT := if s.metaSelD x then s.wrMeta x else s.rdMeta x

def arbValid : Bool := if s.metaSelD x then s.wrValid x else s.rdValid x

/-! ### The requests -/

def reqReady : ReqOut → Bool
  | .sel => !F.sel.full s.selBuf
  | .metaBuf => !F.metaBuf.full s.metaBuf
  | .req => x.qReady

/-- What an output of the first fork does. -/
def reqTakes (o : ReqOut) : Bool := F.fork.takes s.fork (s.arbValid x) (s.reqReady x) o

def arbReady : Bool := F.fork.ready s.fork (s.arbValid x) (s.reqReady x)

def rdReady : Bool := !s.metaSelD x && s.arbReady x

def wrReady : Bool := s.metaSelD x && s.arbReady x

/-- `ar_ready` and `ar_valid`. -/
def arTakes : Bool := s.read.takes (s.newRead x) (s.rdReady x)

def awTakes : Bool := s.write.takes (s.newWrite x) (s.wrReady x)

def wTakes : Bool := s.wrValid x && s.wrReady x

/-- What the fork hands out. -/
def item : MetaT × ReqChan p := (s.axMeta x, (s.axMeta x).request s.w)

def selItem : Bool × Bool := ((s.axMeta x).selB, (s.axMeta x).selR)

/-! ### The responses -/

def selBufValid : Bool := !F.sel.empty s.selBuf (s.reqTakes x .sel)

def metaBufValid : Bool := !F.metaBuf.empty s.metaBuf (s.reqTakes x .metaBuf)

/-- `{sel_buf_b, sel_buf_r}`. -/
def selOut : Bool × Bool := F.sel.data s.selBuf (s.reqTakes x .sel) (s.selItem x)

def metaOut : MetaT := F.metaBuf.data s.metaBuf (s.reqTakes x .metaBuf) (s.axMeta x)

def pValid : Bool := (s.pShown || x.pValid) && decide (s.answered < s.sent.length)

/-- The response, joined with its `meta` and its selection. -/
def joined : Bool := s.pValid x && s.metaBufValid x && s.selBufValid x

def selected : RspOut → Bool
  | .b => (s.selOut x).1
  | .r => (s.selOut x).2

/-- An output of the second fork that is not selected takes the response and drops it. -/
def rspReady : RspOut → Bool
  | .b => !s.selected x .b || x.bReady
  | .r => !s.selected x .r || x.rReady

def rspTakes (o : RspOut) : Bool := F.dynFork.takes s.dynFork (s.joined x) (s.rspReady x) o

def joinReady : Bool := F.dynFork.ready s.dynFork (s.joined x) (s.rspReady x)

/-- `axi_rsp_o.b_valid` and `axi_rsp_o.r_valid`. -/
def rspValid (o : RspOut) : Bool := F.dynFork.valid s.dynFork (s.joined x) o && s.selected x o

/-- `axi_rsp_o.b`. -/
def b : BChan := (s.metaOut x).bBeat (answer s.answered)

/-- `axi_rsp_o.r`. -/
def r : RChan p := (s.metaOut x).rBeat (answer s.answered)

/-! ### A cycle -/

def next : State F where
  ars := if s.arTakes x then s.ars.tail else s.ars
  aws := if s.awTakes x then s.aws.tail else s.aws
  ws := if s.wTakes x then s.ws.tail else s.ws
  arShown := (s.arShown || x.arValid) && !s.ars.isEmpty && !s.arTakes x
  awShown := (s.awShown || x.awValid) && !s.aws.isEmpty && !s.awTakes x
  wShown := s.wValid x && !s.wTakes x
  read := s.read.next p (s.newRead x) true (s.rdReady x)
  write := s.write.next p (s.newWrite x) (s.wValid x) (s.wrReady x)
  metaSel := s.metaSelD x
  selLock :=
    if s.selLock then !(s.arbValid x && s.arbReady x) else s.arbValid x && !s.arbReady x
  fork := F.fork.next s.fork (s.arbValid x) (s.reqReady x)
  selBuf := F.sel.next s.selBuf (s.reqTakes x .sel) (s.selItem x) (s.joinReady x)
  metaBuf := F.metaBuf.next s.metaBuf (s.reqTakes x .metaBuf) (s.axMeta x) (s.joinReady x)
  dynFork := F.dynFork.next s.dynFork (s.joined x) (s.rspReady x)
  pShown := s.pValid x && !s.joinReady x
  sent := s.sent ++ if s.reqTakes x .req then [s.item x] else []
  answered := s.answered + (s.joinReady x).toNat
  rs := s.rs ++ if s.rspTakes x .r && s.selected x .r then [(s.metaOut x, s.r answer x)] else []
  bs := s.bs ++ if s.rspTakes x .b && s.selected x .b then [(s.metaOut x, s.b answer x)] else []

end State

def after {p : Params} (F : Cells p) (answer : Nat → RspChan p) (ars : List ArChan)
    (aws : List AwChan) (ws : List (WChan p)) (x : Nat → In) : Nat → State F
  | 0 => .start F ars aws ws
  | t + 1 => (after F answer ars aws ws x t).next answer (x t)

end TeraNoC.Hw.AxiToReqrsp
