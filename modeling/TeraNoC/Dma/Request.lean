import TeraNoC.Lib.Bits
import TeraNoC.Lib.Span

/-!
# DMA requests (`dma_req_t`)

A one-dimensional request and what it asks for: `bytes` lists the copies of a
request, one pair of byte addresses per byte, in the order the addresses grow.
-/

namespace TeraNoC.Dma

open TeraNoC.Lib

structure DmaReq where
  id : Nat := 0
  src : BitVec 32
  dst : BitVec 32
  numBytes : BitVec 32
  cacheSrc : BitVec 4 := 0
  cacheDst : BitVec 4 := 0
  burstSrc : BitVec 2 := 0
  burstDst : BitVec 2 := 0
  decoupleRw : Bool := false
  deburst : Bool := false
  serialize : Bool := false
  deriving DecidableEq, Repr

structure DmaMeta where
  backendIdle : Bool
  transComplete : Bool
  deriving DecidableEq, Repr

/-- The memory region a midend takes for L1. -/
structure Region where
  dmaRegionStart : Nat
  dmaRegionEnd : Nat

def Region.contains (rg : Region) (addr : BitVec 32) : Bool :=
  decide (addr.toNat ≥ rg.dmaRegionStart) && decide (addr.toNat < rg.dmaRegionEnd)

namespace DmaReq

/-- The all-zero request, `'0`. -/
def zero : DmaReq := { src := 0, dst := 0, numBytes := 0 }

/-- Byte `k` of a request: where it comes from and where it goes. -/
def byte (req : DmaReq) (k : Nat) : BitVec 32 × BitVec 32 :=
  (req.src + BitVec.ofNat 32 k, req.dst + BitVec.ofNat 32 k)

/-- The bytes of a request, in order. -/
def bytes (req : DmaReq) : List (BitVec 32 × BitVec 32) :=
  span req.byte 0 req.numBytes.toNat

/-- The part of a request that starts `off` bytes in. -/
def part (req : DmaReq) (off len : Nat) : DmaReq :=
  { req with
    src := req.src + BitVec.ofNat 32 off
    dst := req.dst + BitVec.ofNat 32 off
    numBytes := BitVec.ofNat 32 len }

/-- The L1 address of a request: its source if that lies in the region, its
destination otherwise. -/
def l1Addr (rg : Region) (req : DmaReq) : BitVec 32 :=
  if rg.contains req.src then req.src else req.dst

/-- The L1 address of one of its bytes. -/
def l1Byte (rg : Region) (req : DmaReq) (b : BitVec 32 × BitVec 32) : BitVec 32 :=
  if rg.contains req.src then b.1 else b.2

theorem byte_part (req : DmaReq) (off len k : Nat) :
    (req.part off len).byte k = req.byte (off + k) := by
  simp only [byte, part, BitVec.add_assoc, BitVec.ofNat_add]

theorem bytes_part (req : DmaReq) (off : Nat) {len : Nat} (hlen : len < 2 ^ 32) :
    (req.part off len).bytes = span req.byte off len := by
  have hfun : (req.part off len).byte = fun k => req.byte (off + k) :=
    funext fun k => req.byte_part off len k
  have hn : (req.part off len).numBytes.toNat = len := by
    rw [part, BitVec.toNat_ofNat, Nat.mod_eq_of_lt hlen]
  rw [bytes, hfun, hn, span_shift, Nat.add_zero]

theorem part_zero (req : DmaReq) : req.part 0 req.numBytes.toNat = req := by
  simp [part]

theorem l1Byte_byte (rg : Region) (req : DmaReq) (k : Nat) :
    req.l1Byte rg (req.byte k) = req.l1Addr rg + BitVec.ofNat 32 k := by
  rw [l1Byte, l1Addr, byte]
  split <;> rfl

end DmaReq

end TeraNoC.Dma
