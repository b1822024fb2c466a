import TeraNoC.Dma.Request
import TeraNoC.Hw.Pkg

/-!
# The distributed midend (`idma_distributed_midend`)

How one request is cut into a slice for each port. The L1 is interleaved over
the ports in stretches of `DmaRegionWidth` bytes, so the cut is made on the
low address bits of the L1 side only; every port computes its own slice from
them.
-/

namespace TeraNoC.Dma

open TeraNoC.Lib

structure DistParams extends Region where
  noMstPorts : Nat
  dmaRegionWidth : Nat

namespace DistParams

variable (p : DistParams)

def dmaRegionAddressBits : Nat := clog2 p.dmaRegionWidth
def fullRegionAddressBits : Nat := clog2 (p.dmaRegionWidth * p.noMstPorts)

def startAddr (req : DmaReq) : Nat :=
  if p.contains req.src then slice req.src.toNat 0 p.fullRegionAddressBits
  else slice req.dst.toNat 0 p.fullRegionAddressBits

-- one bit wider than an address of the window, so that its end is representable
def endAddr (req : DmaReq) : Nat :=
  (p.startAddr req + req.numBytes.toNat) % 2 ^ (p.fullRegionAddressBits + 1)

/-- `valid_o[i]`: port `i` takes part in the transfer. -/
def portValid (req : DmaReq) (i : Nat) : Bool :=
  !(decide (p.startAddr req ≥ (i + 1) * p.dmaRegionWidth) ||
    decide (p.endAddr req ≤ i * p.dmaRegionWidth))

/-- `burst_req_o[i]`. -/
def portReq (req : DmaReq) (i : Nat) : DmaReq :=
  if !p.portValid req i then { req with src := 0, dst := 0, numBytes := 1 }
  else if p.startAddr req ≥ i * p.dmaRegionWidth then
    -- first (and potentially only) slice
    if p.endAddr req ≤ (i + 1) * p.dmaRegionWidth then req
    else
      { req with
        numBytes := BitVec.ofNat 32
          (p.dmaRegionWidth - slice (p.startAddr req) 0 p.dmaRegionAddressBits) }
  else
    -- the address is rounded up to the next boundary
    let rounded :=
      if p.contains req.src then
        { req with
          src := BitVec.ofNat 32
            (splice req.src.toNat 0 p.fullRegionAddressBits (i * p.dmaRegionWidth))
          dst := req.dst + BitVec.ofNat 32 (i * p.dmaRegionWidth)
            - BitVec.ofNat 32 (p.startAddr req) }
      else
        { req with
          src := req.src + BitVec.ofNat 32 (i * p.dmaRegionWidth)
            - BitVec.ofNat 32 (p.startAddr req)
          dst := BitVec.ofNat 32
            (splice req.dst.toNat 0 p.fullRegionAddressBits (i * p.dmaRegionWidth)) }
    if p.endAddr req ≥ (i + 1) * p.dmaRegionWidth then
      { rounded with numBytes := BitVec.ofNat 32 p.dmaRegionWidth }
    else
      { rounded with
        numBytes := BitVec.ofNat 32 (slice (p.endAddr req) 0 p.dmaRegionAddressBits) }

/-- What leaves the midend at port `i`. -/
def portOut (req : DmaReq) (i : Nat) : Option DmaReq :=
  if p.portValid req i then some (p.portReq req i) else none

end DistParams

/-- The instance of `mempool_system`, with a port for every group. -/
def systemMidend (c : Hw.Params) (tcdmBaseAddr : Nat) : DistParams where
  noMstPorts := c.numGroups
  dmaRegionWidth := c.numBanksPerGroup * 4
  dmaRegionStart := tcdmBaseAddr
  dmaRegionEnd := tcdmBaseAddr + c.tcdmSize

/-- The instance of `mempool_group`, with a port for every DMA of the group. -/
def groupMidend (c : Hw.Params) (tcdmBaseAddr : Nat) : DistParams where
  noMstPorts := c.numDmasPerGroup
  dmaRegionWidth := c.numBanksPerGroup * 4 / c.numDmasPerGroup
  dmaRegionStart := tcdmBaseAddr
  dmaRegionEnd := tcdmBaseAddr + c.tcdmSize

/-- The two levels: what the system's midend sends to group `g` is cut again by
the midend of that group, for its backend `d`. -/
def backendReq (sys grp : DistParams) (req : DmaReq) (g d : Nat) : Option DmaReq :=
  (sys.portOut req g).bind fun groupReq => grp.portOut groupReq d

end TeraNoC.Dma
