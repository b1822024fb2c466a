import TeraNoC.Hw.BankInterco
import TeraNoC.Hw.Sram
import TeraNoC.Lib.Fork

/-!
# The bank interconnect at work (`mempool_tcdm_bank_interco`)

One clock cycle of the interconnect between the requesters of a tile and its
banks. A bank executes the accesses it accepts in order and answers them in
order; when it accepts and when it shows its next answer is up to the
environment, so every latency is covered. The arbitration of the crossbars, the
requests and the back-pressure on the responses are the environment's too. The
fork and the rotation FIFO of a superbank are parameters.

A wide request is presented until all banks of its superbank have taken their
word of it; the fork knows the banks that have. Histories: every bank logs the
accesses it has accepted with the data it answers, and the tile lists the wide
requests accepted and the wide responses delivered.
-/

namespace TeraNoC.Hw

open TeraNoC.Lib

/-- `narrow_req_t`; the metadata comes back with the response. -/
structure NarrowReq (w : Nat) (M : Type) where
  tgtAddr : BitVec w
  wen : Bool
  be : BitVec 4
  wdata : Word
  metadata : M

/-- `wide_req_t`, its data and byte enables by words. -/
structure WideReq (w : Nat) (M : Type) where
  tgtAddr : BitVec w
  wen : Bool
  be : Nat → BitVec 4
  wdata : Nat → Word
  metadata : M

structure WideResp (M : Type) where
  rdata : Nat → Word
  metadata : M

/-- An access to a bank: a narrow request, or word `j` of the wide request that
is number `n` among those accepted. -/
inductive Access (w : Nat) (M : Type) where
  | narrow (r : NarrowReq w M)
  | wide (n : Nat) (r : WideReq w M) (j : Nat)

namespace Access

variable {w : Nat} {M : Type}

def tgtAddr : Access w M → BitVec w
  | narrow r => r.tgtAddr
  | wide _ r _ => r.tgtAddr

def wen : Access w M → Bool
  | narrow r => r.wen
  | wide _ r _ => r.wen

def be : Access w M → BitVec 4
  | narrow r => r.be
  | wide _ r j => r.be j

def wdata : Access w M → Word
  | narrow r => r.wdata
  | wide _ r j => r.wdata j

def metadata : Access w M → M
  | narrow r => r.metadata
  | wide _ r _ => r.metadata

def isWide : Access w M → Bool
  | narrow _ => false
  | wide _ _ _ => true

end Access

/-- A bank: the answers to `log.drop answered` are still to come. -/
structure Bank (w : Nat) (M : Type) where
  mem : Nat → Word
  log : List (Access w M × Word)
  answered : Nat

def Bank.accept {w : Nat} {M : Type} (bank : Bank w M) (row : Nat) (a : Access w M)
    (junk : Word) : Bank w M :=
  { bank with
    mem :=
      if a.wen then setWord bank.mem row (mergeBytes a.be (bank.mem row) a.wdata) else bank.mem
    log := bank.log ++ [(a, if a.wen then junk else bank.mem row)] }

/-- The cells of a superbank with that many banks. -/
structure TileCells (banks : Nat) where
  fork : StreamFork (List.range banks)
  rot : StreamFifo Nat 2

def TileCells.list (banks : Nat) : TileCells banks where
  fork := .marks _
  rot := .list Nat 2

structure TileState {banks : Nat} (F : TileCells banks) (w : Nat) (M : Type) where
  bank : Nat → Bank w M
  fork : Nat → F.fork.State
  rot : Nat → F.rot.State
  wide : Option (WideReq w M)
  accepted : List (WideReq w M)
  delivered : List (Nat × WideResp M)

def TileState.reset {banks : Nat} {F : TileCells banks} {w : Nat} {M : Type}
    (mem : Nat → Nat → Word) : TileState F w M where
  bank b := { mem := mem b, log := [], answered := 0 }
  fork _ := F.fork.reset
  rot _ := F.rot.reset
  wide := none
  accepted := []
  delivered := []

/-- What the environment does in a cycle. `narrow` are the narrow request ports,
`grant` the port each bank's arbiter looks at, `respValid` and `narrowRespReady`
whether a bank shows its next answer and whether the narrow side would take it. -/
structure TileIn (w : Nat) (M : Type) where
  narrow : Nat → Option (NarrowReq w M)
  grant : Nat → Nat
  wideNew : Option (WideReq w M)
  bankReady : Nat → Bool
  junk : Nat → Word
  respValid : Nat → Bool
  narrowRespReady : Nat → Bool
  wideRespSel : Nat
  wideRespReady : Bool

namespace IntercoParams

variable (q : IntercoParams) {F : TileCells q.numBanksPerSB} {rowBits : Nat} {M : Type}
variable (s : TileState F (q.bankOffsetBits + rowBits) M)
variable (i : TileIn (q.bankOffsetBits + rowBits) M)

/-- The row of a bank that an address is in. -/
def bankRow {rowBits : Nat} (tgtAddr : BitVec (q.bankOffsetBits + rowBits)) : Nat :=
  slice tgtAddr.toNat q.bankOffsetBits rowBits

/-- The superbank of a bank, and its port there. -/
def sbOf (b : Nat) : Nat := b / q.numBanksPerSB
def portOf (b : Nat) : Nat := b % q.numBanksPerSB

/-! ## Requests -/

def slvWideReq : Option (WideReq (q.bankOffsetBits + rowBits) M) :=
  s.wide.or i.wideNew

def wideToSbValid (d : Nat) : Bool :=
  (q.slvWideReq s i).any fun r => q.wideSel r.tgtAddr.toNat == d

/-- `valid_i` of `i_wide_fork`. -/
def forkValid (d : Nat) : Bool := q.wideToSbValid s i d && F.rot.ready (s.rot d)

def wideForkValid (b : Nat) : Bool :=
  F.fork.valid (s.fork (q.sbOf b)) (q.forkValid s i (q.sbOf b)) (q.portOf b)

def narrowToBank (b : Nat) : Option (NarrowReq (q.bankOffsetBits + rowBits) M) :=
  (i.narrow (i.grant b)).filter fun r => q.narrowSel r.tgtAddr.toNat == b

/-- `mst_req_o`: wide overrides narrow at the request port. -/
def mstReq (b : Nat) : Option (Access (q.bankOffsetBits + rowBits) M) :=
  if q.wideForkValid s i b then
    (q.slvWideReq s i).map fun r =>
      .wide s.accepted.length r (q.wideWord (q.reqRot r.tgtAddr.toNat) (q.portOf b))
  else (q.narrowToBank i b).map .narrow

def wideForkReady (b : Nat) : Bool := q.wideForkValid s i b && i.bankReady b

/-- `ready_o` of `i_wide_fork`: every bank has taken its word or takes it now. -/
def wideAccReady (d : Nat) : Bool :=
  F.fork.ready (s.fork d) (q.forkValid s i d) fun p => i.bankReady (q.globalBank d p)

def wideToSbReady (d : Nat) : Bool := q.wideAccReady s i d && F.rot.ready (s.rot d)

def slvWideReqReady : Bool :=
  (q.slvWideReq s i).any fun r => q.wideToSbReady s i (q.wideSel r.tgtAddr.toNat)

/-! ## Responses -/

/-- `mst_resp_i` of a bank, if it is valid. -/
def mstResp (b : Nat) : Option (Access (q.bankOffsetBits + rowBits) M × Word) :=
  if i.respValid b then (s.bank b).log[(s.bank b).answered]? else none

def wideJoinValid (b : Nat) : Bool := (q.mstResp s i b).any (·.1.isWide)

def sbWideRespValid (d : Nat) : Bool :=
  (List.range q.numBanksPerSB).all fun p => q.wideJoinValid s i (q.globalBank d p)

def sbWideRespReady (d : Nat) : Bool :=
  if q.numSuperbanks > 1 then i.wideRespReady && i.wideRespSel == d else i.wideRespReady

/-- A wide response of superbank `d` is delivered: the pop of its rotation FIFO. -/
def sbWideRespFire (d : Nat) : Bool := q.sbWideRespValid s i d && q.sbWideRespReady i d

def bankRdata (b : Nat) : Word := ((q.mstResp s i b).map (·.2)).getD 0

/-- The words put back in order, with the metadata of the lowest bank. -/
def sbWideResp (d : Nat) : Option (WideResp M) :=
  (q.mstResp s i (q.globalBank d 0)).map fun e =>
    { rdata := (List.range q.numBanksPerSB).foldl
        (fun rdata p => Function.update rdata (q.wideWord (F.rot.data (s.rot d)) p)
          (q.bankRdata s i (q.globalBank d p))) fun _ => 0
      metadata := e.1.metadata }

def mstRespFire (b : Nat) : Bool :=
  match q.mstResp s i b with
  | none => false
  | some e => if e.1.isWide then q.sbWideRespFire s i (q.sbOf b) else i.narrowRespReady b

/-! ## The clock edge -/

def bankNext (b : Nat) : Bank (q.bankOffsetBits + rowBits) M :=
  let bank := { s.bank b with
    answered := (s.bank b).answered + (q.mstRespFire s i b).toNat }
  match q.mstReq s i b with
  | some a => if i.bankReady b then bank.accept (q.bankRow a.tgtAddr) a (i.junk b) else bank
  | none => bank

/-- The superbank whose response `slv_wide_resp_o` carries. -/
def wideRespSb : Nat := if q.numSuperbanks > 1 then i.wideRespSel else 0

def tileNext : TileState F (q.bankOffsetBits + rowBits) M where
  bank := q.bankNext s i
  fork d :=
    F.fork.next (s.fork d) (q.forkValid s i d) fun p => i.bankReady (q.globalBank d p)
  rot d := F.rot.next (s.rot d) (q.wideToSbValid s i d && q.wideAccReady s i d)
    (((q.slvWideReq s i).map fun r => q.reqRot r.tgtAddr.toNat).getD 0) (q.sbWideRespFire s i d)
  wide := if q.slvWideReqReady s i then none else q.slvWideReq s i
  accepted :=
    if q.slvWideReqReady s i then s.accepted ++ (q.slvWideReq s i).toList else s.accepted
  delivered :=
    if q.sbWideRespFire s i (q.wideRespSb i) then
      s.delivered ++ ((q.sbWideResp s i (q.wideRespSb i)).map (q.wideRespSb i, ·)).toList
    else s.delivered

def tileAfter (s : TileState F (q.bankOffsetBits + rowBits) M)
    (inp : Nat → TileIn (q.bankOffsetBits + rowBits) M) :
    Nat → TileState F (q.bankOffsetBits + rowBits) M
  | 0 => s
  | t + 1 => q.tileNext (tileAfter s inp t) (inp t)

end IntercoParams

end TeraNoC.Hw
