import TeraNoC.Dma.DistributedMidend
import TeraNoC.Lib.Fork

/-!
# The completion of distributed requests (`idma_distributed_midend`)

One clock cycle of the midend. A request is offered to all ports at once; a port that has no
part in it takes its slice without telling its backend, and reports it complete in the next
cycle (`tieOff`). Every port has a queue of completions, and the midend reports a request
complete when no queue is empty.

The requests come one after the other, each offered until all ports have taken their slice;
when it is offered, when a backend takes its slice and when it completes one is up to the
environment. Histories: how many requests have been accepted and reported complete, and for
each backend how many slices it has taken and completed.
-/

namespace TeraNoC.Dma

open TeraNoC.Lib

/-- The cells: a queue a port, and the fork in front of the ports. -/
structure MidendCells (ports depth : Nat) where
  fifo : StreamFifo Bool depth
  fork : StreamFork (List.range ports)

def MidendCells.list (ports depth : Nat) : MidendCells ports depth where
  fifo := .list Bool depth
  fork := .marks _

structure MidendState {ports depth : Nat} (F : MidendCells ports depth) where
  transCompleteFifo : Nat → F.fifo.State
  tieOff : Nat → Bool
  fork : F.fork.State
  accepted : Nat
  reported : Nat
  taken : Nat → Nat
  completed : Nat → Nat

def MidendState.reset {ports depth : Nat} (F : MidendCells ports depth) : MidendState F where
  transCompleteFifo _ := F.fifo.reset
  tieOff _ := false
  fork := F.fork.reset
  accepted := 0
  reported := 0
  taken _ := 0
  completed _ := 0

/-- What the environment does in a cycle: `meta_i[i].trans_complete` is `transComplete i`. -/
structure MidendIn where
  valid : Bool
  ready : Nat → Bool
  transComplete : Nat → Bool

namespace DistParams

section Ports

variable {ports depth : Nat} {F : MidendCells ports depth}
variable (reqs : Nat → DmaReq) (s : MidendState F) (x : MidendIn)

/-- `burst_req_i`. -/
def burstReq : DmaReq := reqs s.accepted

/-- `trans_complete_q[i]`. -/
def transCompleteQ (i : Nat) : Bool :=
  F.fifo.data (s.transCompleteFifo i) && F.fifo.valid (s.transCompleteFifo i)

/-- `trans_complete_d[i]`. -/
def transCompleteD (i : Nat) : Bool := x.transComplete i || s.tieOff i

end Ports

variable (p : DistParams) {depth : Nat} {F : MidendCells p.noMstPorts depth}
variable (reqs : Nat → DmaReq) (s : MidendState F) (x : MidendIn)

def fifoReady : Bool := (List.range p.noMstPorts).all fun i => F.fifo.ready (s.transCompleteFifo i)

/-- `meta_o.trans_complete`. -/
def transCompleteO : Bool := (List.range p.noMstPorts).all (transCompleteQ s)

/-- `valid_i` of the fork. -/
def forkValidI : Bool := x.valid && p.fifoReady s

/-- `valid[i]`, at the output of the fork. -/
def forkValid (i : Nat) : Bool := F.fork.valid s.fork (p.forkValidI s x) i

/-- `ready[i]`: a port that has no part in the transfer makes the handshake itself. -/
def forkOutReady (i : Nat) : Bool := if p.portValid (burstReq reqs s) i then x.ready i else true

def forkTakes (i : Nat) : Bool :=
  F.fork.takes s.fork (p.forkValidI s x) (p.forkOutReady reqs s x) i

/-- `valid_i && ready_o`. -/
def accepts : Bool := F.fork.ready s.fork (p.forkValidI s x) (p.forkOutReady reqs s x)

/-- "Inject trans complete". -/
def injects (i : Nat) : Bool := p.forkValid s x i && !p.portValid (burstReq reqs s) i

/-- `tie_off_trans_complete_d[i]`. -/
def tieOffD (i : Nat) : Bool :=
  if p.injects reqs s x i then true else s.tieOff i && x.transComplete i

def midendNext : MidendState F where
  transCompleteFifo i :=
    F.fifo.next (s.transCompleteFifo i) (transCompleteD s x i) true (p.transCompleteO s)
  tieOff := p.tieOffD reqs s x
  fork := F.fork.next s.fork (p.forkValidI s x) (p.forkOutReady reqs s x)
  accepted := s.accepted + (p.accepts reqs s x).toNat
  reported := s.reported + (p.transCompleteO s).toNat
  taken i := s.taken i + (p.forkTakes reqs s x i && p.portValid (burstReq reqs s) i).toNat
  completed i := s.completed i + (x.transComplete i).toNat

def midendAfter (F : MidendCells p.noMstPorts depth) (reqs : Nat → DmaReq) (x : Nat → MidendIn) :
    Nat → MidendState F
  | 0 => .reset F
  | t + 1 => p.midendNext reqs (midendAfter F reqs x t) (x t)

end DistParams

end TeraNoC.Dma
