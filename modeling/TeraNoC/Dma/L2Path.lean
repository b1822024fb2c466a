import TeraNoC.Dma.BurstReshaper
import TeraNoC.Dma.DistributedMidend
import TeraNoC.Dma.Frontend
import TeraNoC.Hw.L2

/-!
# From a transfer to the L2 (`mempool_group_floonoc_wrapper`)

A transfer is cut at the windows of the L1 by the split midend, distributed over
the groups and their backends, and turned into AXI bursts by every backend. On
its way to the L2 a burst passes the burst splitter, if the configuration has
one, and the interleaver, which permutes the address of the burst and knows
nothing of its length; the beats after the first are wherever that address plus
their offset is.
-/

namespace TeraNoC.Dma

open TeraNoC.Lib

/-- A cluster with DMAs and an L2: one AXI width that the backends accept, and an
L1 below the L2. -/
structure L2DmaConfig where
  dma : Hw.DmaConfig
  l2 : Hw.L2Config
  tcdmBaseAddr : Nat
  axi_eq : l2.axiDataWidth = dma.axiDataWidth
  /-- The `$fatal` of the backend. -/
  axi_le : dma.axiDataWidth ≤ 1024
  l1_below : tcdmBaseAddr + dma.tcdmSize ≤ Hw.L2Params.l2MemoryBaseAddr

namespace L2DmaConfig

variable (c : L2DmaConfig)

def region : Region where
  dmaRegionStart := c.tcdmBaseAddr
  dmaRegionEnd := c.tcdmBaseAddr + c.dma.tcdmSize

def reshaper : ReshaperParams where
  dataWidth := c.dma.axiDataWidth

/-- The requests backend `d` of group `g` has been given after `t` cycles of the
split midend. -/
def backendReqs (req : DmaReq) (down : Nat → Down) (t g d : Nat) : List DmaReq :=
  (SplitRun.after (systemSplit c.dma.toParams c.tcdmBaseAddr) [req] down t).handed.filterMap
    fun sub => backendReq (systemMidend c.dma.toParams c.tcdmBaseAddr)
      (groupMidend c.dma.toParams c.tcdmBaseAddr) sub g d

/-- The bursts on the L2 side of the transfer that the backend has sent after `u`
more cycles: its writes if the transfer reads the L1, its reads otherwise. -/
def l2Bursts (req : DmaReq) (down : Nat → Down) (t g d : Nat) (mover : Nat → Mover)
    (u : Nat) : List AxDesc :=
  let run := ReshapeRun.after c.reshaper (c.backendReqs req down t g d) mover u
  if c.region.contains req.src then run.writes else run.reads

/-- What reaches the interleaver of a burst, as addresses and lengths. The burst
splitter, a dependency, makes every beat a burst of its own. -/
def toInterleaver (ax : AxDesc) : List (Nat × Nat) :=
  if c.dma.dmaBurstLen > c.l2.interleave then
    (List.range (ax.len.toNat + 1)).map fun k =>
      (ax.addr.toNat + k * c.l2.l2BankBeWidth, 0)
  else [(ax.addr.toNat, ax.len.toNat)]

/-- Every beat of the burst lands where its own address belongs: the burst's
address permuted once and incremented, and the beat's address permuted, agree. -/
def Lands (ax : AxDesc) : Prop :=
  ∀ b ∈ c.toInterleaver ax, ∀ k ≤ b.2,
    c.l2.interleaveAddr b.1 + k * c.l2.l2BankBeWidth =
      c.l2.interleaveAddr (b.1 + k * c.l2.l2BankBeWidth)

/-- The L2 address of a request. -/
def l2Addr (req : DmaReq) : BitVec 32 :=
  if c.region.contains req.src then req.dst else req.src

/-- A transfer of at least one byte with one side in the L1 and the other in the
L2. -/
structure Transfer (req : DmaReq) : Prop where
  nonempty : 1 ≤ req.numBytes.toNat
  l1_ge : c.tcdmBaseAddr ≤ (req.l1Addr c.region).toNat
  l1_le : (req.l1Addr c.region).toNat + req.numBytes.toNat ≤
    c.tcdmBaseAddr + c.dma.tcdmSize
  l2_ge : Hw.L2Params.l2MemoryBaseAddr ≤ (c.l2Addr req).toNat
  l2_le : (c.l2Addr req).toNat + req.numBytes.toNat ≤
    Hw.L2Params.l2MemoryBaseAddr + c.l2.l2Size

/-- Bytes of the L1 that one backend covers in a row. -/
def stretch : Nat := c.dma.numBanksPerGroup * 4 / c.dma.numDmasPerGroup

/-- Bytes of the L2 that stay in one bank. -/
def chunk : Nat := c.l2.l2BankBeWidth * c.l2.interleave

end L2DmaConfig

end TeraNoC.Dma
