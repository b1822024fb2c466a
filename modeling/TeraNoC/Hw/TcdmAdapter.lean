import TeraNoC.Hw.Sram
import TeraNoC.Lib.Stream

/-!
# The bank adapter (`tcdm_adapter`)

One clock cycle of the adapter in front of an SRAM bank. It passes loads and
stores through, performs atomics by reading, computing and writing back while
it keeps its request port closed, keeps one LR reservation for the bank, and
holds responses until they are taken: metadata in a spill register, read data
in a fall-through FIFO. The two queues are cells of their own and parameters of
the model (`AdapterCells`).
-/

namespace TeraNoC.Hw

open TeraNoC.Lib

inductive AmoOp where
  | none
  | swap
  | add
  | and
  | or
  | xor
  | max
  | maxu
  | min
  | minu
  | lr
  | sc
  /-- The codes 12 to 15, which no operation has. -/
  | reserved
  deriving DecidableEq, Repr

/-- `!(amo inside {AMONone, AMOLR, AMOSC})`. -/
def AmoOp.modifies : AmoOp → Bool
  | .none | .lr | .sc => false
  | _ => true

/-! ## The ALU -/

def adderSum (a b : BitVec 33) : BitVec 34 := a.setWidth 34 + b.setWidth 34

def amoAlu (op : AmoOp) (a b : Word) : Word :=
  match op with
  | .swap => b
  | .add => (adderSum (a.signExtend 33) (b.signExtend 33)).setWidth 32
  | .and => a &&& b
  | .or => a ||| b
  | .xor => a ^^^ b
  | .max =>
      if (adderSum (a.signExtend 33) (-(b.signExtend 33))).getLsbD 32 then b else a
  | .min =>
      if (adderSum (a.signExtend 33) (-(b.signExtend 33))).getLsbD 32 then a else b
  | .maxu =>
      if (adderSum (a.setWidth 33) (-(b.setWidth 33))).getLsbD 32 then b else a
  | .minu =>
      if (adderSum (a.setWidth 33) (-(b.setWidth 33))).getLsbD 32 then a else b
  | _ => 0

/-! ## State and ports -/

structure BankReq (Addr Meta : Type) where
  address : Addr
  amo : AmoOp
  write : Bool
  wdata : Word
  be : BitVec 4
  metadata : Meta

inductive AdapterPhase where
  | idle
  | doAmo
  | writeBackAmo
  deriving DecidableEq, Repr

structure Reservation (Addr : Type) where
  valid : Bool
  addr : Addr
  core : Nat

structure AdapterParams (Meta : Type) where
  registerAmo : Bool
  lrScEnable : Bool
  uniqueCoreId : Meta → Nat

/-- The metadata register and the read-data FIFO. -/
structure AdapterCells (Meta : Type) where
  metaReg : StreamFifo Meta 2
  rdataFifo : FallThroughFifo Word 2

structure AdapterState (Addr : Type) {Meta : Type} (k : AdapterCells Meta) where
  phase : AdapterPhase
  amoOpQ : AmoOp
  addrQ : Addr
  amoOperandBQ : Word
  amoResultQ : Word
  outGnt : Bool
  scQ : Bool
  scSuccessfulQ : Bool
  reservationQ : Reservation Addr
  metaReg : k.metaReg.State
  rdataFifo : k.rdataFifo.State

def AdapterState.reset {Addr Meta : Type} [Inhabited Addr] (k : AdapterCells Meta) :
    AdapterState Addr k where
  phase := .idle
  amoOpQ := .none
  addrQ := default
  amoOperandBQ := 0
  amoResultQ := 0
  outGnt := false
  scQ := false
  scSuccessfulQ := false
  reservationQ := { valid := false, addr := default, core := 0 }
  metaReg := k.metaReg.reset
  rdataFifo := k.rdataFifo.reset

/-- What the adapter sees in a cycle besides the SRAM. -/
structure AdapterIn (Addr Meta : Type) where
  valid : Bool
  req : BankReq Addr Meta
  respReady : Bool

/-! ## One cycle -/

section Cycle

variable {Addr Meta : Type} [DecidableEq Addr]

/-- `gen_lrsc`: the reservation after an accepted request, and whether the request
is an SC that succeeds. -/
def lrsc (p : AdapterParams Meta) (q : Reservation Addr) (r : BankReq Addr Meta) :
    Reservation Addr × Bool :=
  let uniqueCoreId := p.uniqueCoreId r.metadata
  let q1 : Reservation Addr :=
    if r.amo = .lr ∧ (q.valid = false ∨ q.core = uniqueCoreId) then
      { valid := true, addr := r.address, core := uniqueCoreId }
    else q
  -- another core makes a write attempt
  let q2 : Reservation Addr :=
    if uniqueCoreId ≠ q.core ∧ r.address = q.addr ∧ (r.amo.modifies || r.write) then
      { q1 with valid := false }
    else q1
  -- an SC from the same core clears the reservation
  if q.valid = true ∧ r.amo = .sc ∧ q.core = uniqueCoreId then
    ({ q2 with valid := false }, decide (q.addr = r.address))
  else (q2, false)

variable (p : AdapterParams Meta) {k : AdapterCells Meta} (s : AdapterState Addr k)
variable (i : AdapterIn Addr Meta) (outRdataI : Word)

/-- `rdata_ready`; the usage is a single bit. -/
def rdataReady : Bool :=
  k.rdataFifo.usage s.rdataFifo == 0 && !k.rdataFifo.full s.rdataFifo

def inReadyO : Bool :=
  match s.phase with
  | .idle => rdataReady s
  | .doAmo | .writeBackAmo => false

/-- A request is accepted in this cycle. -/
def fire : Bool := i.valid && inReadyO s

def outRdata : Word :=
  if s.scQ && p.lrScEnable then (if s.scSuccessfulQ then 0 else 1) else outRdataI

def inValidO : Bool :=
  k.metaReg.valid s.metaReg && !k.rdataFifo.empty s.rdataFifo s.outGnt

def inRdataO : Word :=
  k.rdataFifo.data s.rdataFifo s.outGnt (outRdata p s outRdataI)

def inMetaO : Meta := k.metaReg.data s.metaReg

def popResp : Bool := i.respReady && inValidO s

def scSuccessfulD : Bool :=
  p.lrScEnable && fire s i && (lrsc p s.reservationQ i.req).2

def reservationD : Reservation Addr :=
  if p.lrScEnable && fire s i then (lrsc p s.reservationQ i.req).1 else s.reservationQ

def amoResult : Word := amoAlu s.amoOpQ outRdataI s.amoOperandBQ

/-- The request at the SRAM port. -/
def sramPort : SramPort Addr :=
  match s.phase with
  | .idle =>
      { req := fire s i
        write := i.req.write || (scSuccessfulD p s i && decide (i.req.amo = .sc))
        addr := i.req.address
        wdata := i.req.wdata
        be := i.req.be }
  | .doAmo | .writeBackAmo =>
      { req := true
        write := true
        addr := s.addrQ
        wdata := if p.registerAmo then s.amoResultQ else amoResult s outRdataI
        be := 0b1111#4 }

def phaseD : AdapterPhase :=
  match s.phase with
  | .idle => if fire s i && i.req.amo.modifies then .doAmo else .idle
  | .doAmo => if p.registerAmo then .writeBackAmo else .idle
  | .writeBackAmo => .idle

def adapterNext : AdapterState Addr k :=
  let loadAmo := decide (s.phase = .idle) && fire s i && i.req.amo.modifies
  { phase := phaseD p s i
    amoOpQ := if loadAmo then i.req.amo else .none
    addrQ := if loadAmo then i.req.address else s.addrQ
    amoOperandBQ := if loadAmo then i.req.wdata else s.amoOperandBQ
    amoResultQ :=
      if p.registerAmo then
        (if s.phase = .doAmo then amoResult s outRdataI else s.amoResultQ)
      else 0
    -- one cycle after a request to the bank, except an AMO's write-back
    outGnt := decide (s.phase = .idle) && (sramPort p s i outRdataI).req
    scQ := p.lrScEnable && fire s i && decide (i.req.amo = .sc)
    scSuccessfulQ := scSuccessfulD p s i
    reservationQ := reservationD p s i
    metaReg := k.metaReg.next s.metaReg (fire s i) i.req.metadata (popResp s i)
    rdataFifo := k.rdataFifo.next s.rdataFifo s.outGnt (outRdata p s outRdataI)
      (popResp s i && !k.rdataFifo.empty s.rdataFifo s.outGnt) }

end Cycle

/-! ## The bank

The adapter with its SRAM, and what its requesters have seen of it: the requests
it accepted and the responses it delivered, oldest first.
-/

section Bank

variable {Addr Meta : Type} [DecidableEq Addr]

structure BankState (Addr : Type) {Meta : Type} (k : AdapterCells Meta) where
  adapter : AdapterState Addr k
  sram : SramState Addr
  accepted : List (BankReq Addr Meta)
  delivered : List (Meta × Word)

def BankState.reset {Addr Meta : Type} [Inhabited Addr] (k : AdapterCells Meta)
    (sram : SramState Addr) : BankState Addr k where
  adapter := .reset k
  sram := sram
  accepted := []
  delivered := []

def BankState.next (p : AdapterParams Meta) {k : AdapterCells Meta} (b : BankState Addr k)
    (i : AdapterIn Addr Meta) (junk : Word) : BankState Addr k where
  adapter := adapterNext p b.adapter i b.sram.rdata
  sram := b.sram.next (sramPort p b.adapter i b.sram.rdata) junk
  accepted := if fire b.adapter i then b.accepted ++ [i.req] else b.accepted
  delivered :=
    if popResp b.adapter i then
      b.delivered ++ [(inMetaO b.adapter, inRdataO p b.adapter b.sram.rdata)]
    else b.delivered

/-- A run over the inputs of successive cycles. -/
def BankState.run (p : AdapterParams Meta) {k : AdapterCells Meta} (b : BankState Addr k)
    (cycles : List (AdapterIn Addr Meta × Word)) : BankState Addr k :=
  cycles.foldl (fun b c => b.next p c.1 c.2) b

end Bank

end TeraNoC.Hw
