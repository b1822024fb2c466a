import TeraNoC.Dma.Backend
import TeraNoC.Dma.L2Path

/-!
# A transfer, down to its bytes (`mempool_group`)

The backends of a cluster, each at work on the requests the midends have for it, and what they
write together. Source and destination of a transfer are different memories, so the bytes at the
source are the same throughout.
-/

namespace TeraNoC.Dma

open TeraNoC.Lib

namespace L2DmaConfig

variable (c : L2DmaConfig)

/-- A backend as `mempool_group` makes it. -/
def backend : BackendParams where
  toReshaperParams := c.reshaper
  axReqFifoDepth := 8
  bufferDepth := 4

variable (F : BackendCells c.backend) (lead : Nat) (mem : Nat → DataByte) (req : DmaReq)
  (down : Nat → Down) (input : Nat → Nat → Nat → BackendIn)

/-- Backend `d` of group `g` after `u` cycles, on the requests of `t` cycles of the split midend. -/
def backendRun (t u g d : Nat) : BackendRun F :=
  .after F lead (fun _ => mem) (c.backendReqs req down t g d) (input g d) u

/-- What all of them have written. -/
def writes (t u : Nat) : List (Nat × DataByte) :=
  (List.range c.dma.numGroups).flatMap fun g =>
    (List.range c.dma.numDmasPerGroup).flatMap fun d =>
      (c.backendRun F lead mem req down input t u g d).written

end L2DmaConfig

/-- What a request asks for: every byte of its destination, with the byte at the source. -/
def copies (mem : Nat → DataByte) (req : DmaReq) : List (Nat × DataByte) :=
  (List.range req.numBytes.toNat).map fun k => (req.dst.toNat + k, mem (req.src.toNat + k))

end TeraNoC.Dma
