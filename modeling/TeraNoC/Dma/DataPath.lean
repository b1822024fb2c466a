import TeraNoC.Dma.BurstReshaper
import TeraNoC.Lib.Stream

/-!
# The data path of a DMA backend (`axi_dma_data_path`)

One clock cycle of the module between the R and the W channel. The bytes of a read beat are
rotated to the lanes they are written from, those that belong to the burst are put into the byte
queues of their lanes, and a write beat leaves when the queues of all its lanes have a byte. Which
bytes belong to a burst is decided by masks on its first and its last beat; the read side knows
these by `r_last`, the write side counts its beats.

Masks and data buses are functions of the lane, below `StrbWidth`. The lanes' queues are
`fifo_v3`, which shows anything while it is empty.
-/

namespace TeraNoC.Dma

open TeraNoC.Lib

abbrev DataByte : Type := BitVec 8

/-- `desc_r_t`. -/
structure RDesc where
  offset : Nat
  tailer : Nat
  shift : Nat
  deriving DecidableEq, Repr, Inhabited

/-- `desc_w_t`. -/
structure WDesc where
  offset : Nat
  tailer : Nat
  numBeats : BitVec 8
  isSingle : Bool
  deriving DecidableEq, Repr, Inhabited

structure PathState {bufferDepth : Nat} (F : StreamFifo DataByte bufferDepth) where
  buffer : Nat → F.State
  isFirstR : Bool
  wNumBeats : BitVec 8
  wCntValid : Bool

def PathState.reset {bufferDepth : Nat} (F : StreamFifo DataByte bufferDepth) : PathState F where
  buffer _ := F.reset
  isFirstR := true
  wNumBeats := 0
  wCntValid := false

structure PathIn where
  rDpValid : Bool
  wDpValid : Bool
  rData : Nat → DataByte
  rValid : Bool
  rLast : Bool
  r : RDesc
  wReady : Bool
  w : WDesc

structure PathOut {bufferDepth : Nat} (F : StreamFifo DataByte bufferDepth) where
  next : PathState F
  rDpReady : Bool
  wDpReady : Bool
  idle : Bool
  rReady : Bool
  wData : Nat → DataByte
  wStrb : Nat → Bool
  wValid : Bool
  wLast : Bool

namespace ReshaperParams

variable (p : ReshaperParams) {bufferDepth : Nat} {F : StreamFifo DataByte bufferDepth}
variable (q : PathState F) (i : PathIn)

/-- A condition on all lanes. -/
def onLanes (c : Nat → Bool) : Bool := (List.range p.strbWidth).all c

/-! ## The read side -/

def rFirstMask (lane : Nat) : Bool := decide (i.r.offset ≤ lane)

def rLastMask (lane : Nat) : Bool := decide (lane + (p.strbWidth - i.r.tailer) < p.strbWidth)

def readAlignedInMask (lane : Nat) : Bool :=
  (!q.isFirstR || rFirstMask i lane) && (!(i.r.tailer != 0 && i.rLast) || p.rLastMask i lane)

/-- The barrel shifter, for data and mask. -/
def bufferIn (lane : Nat) : DataByte := i.rData ((lane + i.r.shift) % p.strbWidth)

def inMask (lane : Nat) : Bool := p.readAlignedInMask q i ((lane + i.r.shift) % p.strbWidth)

def pathFull : Bool := !p.onLanes fun lane => F.ready (q.buffer lane) || !p.inMask q i lane

def isFirstRd : Bool :=
  if i.rValid && !i.rLast then false else if i.rLast && i.rValid then true else q.isFirstR

/-! ## The write side -/

def wFirstMask (lane : Nat) : Bool := decide (i.w.offset ≤ lane)

def wLastMask (lane : Nat) : Bool := decide (lane + (p.strbWidth - i.w.tailer) < p.strbWidth)

/-- All lanes of a mask have a byte, and some lane has one. -/
def holds (mask : Nat → Bool) : Bool :=
  (p.onLanes fun lane => F.valid (q.buffer lane) || !mask lane) &&
    !(p.onLanes fun lane => !F.valid (q.buffer lane))

def isFirstW : Bool :=
  if i.w.isSingle then true else p.holds q (wFirstMask i) && !q.wCntValid

def isLastW : Bool :=
  if i.w.isSingle then true else q.wCntValid && q.wNumBeats == 1

def outMask (lane : Nat) : Bool :=
  (!p.isFirstW q i || wFirstMask i lane) &&
    (!(i.w.tailer != 0 && isLastW q i) || p.wLastMask i lane)

def readyToWrite : Bool := p.holds q (p.outMask q i)

def writeHappening : Bool := p.readyToWrite q i && i.wReady

/-- One clock cycle. -/
def dataPath : PathOut F :=
  let push := i.rValid && !p.pathFull q i
  let happening := p.writeHappening q i
  let load := !i.w.isSingle && p.isFirstW q i && happening
  let done := !i.w.isSingle && isLastW q i && happening
  let rDpReady := i.rDpValid && i.rLast && i.rValid && !p.pathFull q i
  let wDpReady := isLastW q i && happening
  { next :=
      { buffer := fun lane => F.next (q.buffer lane) (push && p.inMask q i lane)
          (p.bufferIn i lane) (happening && p.outMask q i lane)
        isFirstR := if i.rValid && !p.pathFull q i then isFirstRd q i else q.isFirstR
        wNumBeats :=
          if !i.w.isSingle && q.wCntValid && happening then q.wNumBeats - 1
          else if load then i.w.numBeats else q.wNumBeats
        wCntValid := if done then false else if load then true else q.wCntValid }
    rDpReady := rDpReady
    wDpReady := wDpReady
    idle := !(i.rDpValid || rDpReady || i.wDpValid || wDpReady ||
      !(p.onLanes fun lane => !F.valid (q.buffer lane)))
    rReady := !p.pathFull q i
    wData := fun lane =>
      if p.readyToWrite q i && p.outMask q i lane then F.data (q.buffer lane) else 0
    wStrb := fun lane => p.readyToWrite q i && p.outMask q i lane
    wValid := p.readyToWrite q i
    wLast := isLastW q i && p.readyToWrite q i }

end ReshaperParams

end TeraNoC.Dma
