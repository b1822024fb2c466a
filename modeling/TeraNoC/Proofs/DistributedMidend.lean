import TeraNoC.Dma.DistributedMidend

/-!
# The distributed midends partition a transfer

Everything rests on one computation, `portReq_eq`: a port that takes part gets
the part of the request that falls into its stretch of the window, no matter
which of the four cases of the source produced it. From there on the midend is
interval arithmetic. The slices of the ports tile the request because the
stretches tile the window (`flatMap_clip`), and the L1 bytes of a slice lie in
the stretch of its port.

A second midend behind every port cuts the slice again. It finds the window
condition met, since a slice never leaves its stretch, and it picks the same
side for L1, since the request lies on one side of the L1 border.
-/

namespace TeraNoC.Dma

open TeraNoC.Lib

/-- Power-of-two ports and stretches inside the 32-bit address space. -/
structure DistConfig extends DistParams where
  ports_pow : noMstPorts = 2 ^ clog2 noMstPorts
  width_pow : dmaRegionWidth = 2 ^ clog2 dmaRegionWidth
  window_fits : dmaRegionWidth * noMstPorts < 2 ^ 32

/-- The offset of a request's L1 address in the window it starts in. -/
def DistParams.l1Offset (p : DistParams) (req : DmaReq) : Nat :=
  (req.l1Addr p.toRegion).toNat % (p.dmaRegionWidth * p.noMstPorts)

/-- The source stays on its side of the border of the L1. -/
def DmaReq.OneSided (rg : Region) (req : DmaReq) : Prop :=
  ∀ k < req.numBytes.toNat,
    rg.contains (req.src + BitVec.ofNat 32 k) = rg.contains req.src

namespace DistConfig

variable (p : DistConfig)

theorem window_eq :
    p.dmaRegionWidth * p.noMstPorts = 2 ^ p.fullRegionAddressBits := by
  have h : p.dmaRegionWidth * p.noMstPorts
      = 2 ^ (clog2 p.dmaRegionWidth + clog2 p.noMstPorts) := by
    rw [Nat.pow_add, ← p.width_pow, ← p.ports_pow]
  rw [DistParams.fullRegionAddressBits, h, clog2_pow]

theorem fullRegionAddressBits_lt : p.fullRegionAddressBits < 32 := by
  have h := p.window_fits
  rw [p.window_eq] at h
  exact (Nat.pow_lt_pow_iff_right (by omega)).mp h

theorem width_pos : 0 < p.dmaRegionWidth := by
  rw [p.width_pow]
  exact Nat.two_pow_pos _

theorem slice_region (x : Nat) :
    slice x 0 p.dmaRegionAddressBits = x % p.dmaRegionWidth := by
  rw [slice, Nat.pow_zero, Nat.div_one, DistParams.dmaRegionAddressBits, ← p.width_pow]

theorem startAddr_eq (req : DmaReq) : p.startAddr req = p.l1Offset req := by
  rw [DistParams.startAddr, DistParams.l1Offset, DmaReq.l1Addr, p.window_eq]
  split <;> rw [slice, Nat.pow_zero, Nat.div_one]

section Window

variable {p} {req : DmaReq}

/-- Overwriting the low bits of the L1 address rounds it up. -/
theorem splice_start {a : BitVec 32} {i : Nat} (hi : i < p.noMstPorts)
    (hoff : a.toNat % (p.dmaRegionWidth * p.noMstPorts) ≤ i * p.dmaRegionWidth) :
    BitVec.ofNat 32 (splice a.toNat 0 p.fullRegionAddressBits (i * p.dmaRegionWidth))
      = a + BitVec.ofNat 32
          (i * p.dmaRegionWidth - a.toNat % (p.dmaRegionWidth * p.noMstPorts)) := by
  have hlt : i * p.dmaRegionWidth < 2 ^ p.fullRegionAddressBits := by
    rw [← p.window_eq, Nat.mul_comm]
    exact Nat.mul_lt_mul_of_pos_left hi p.width_pos
  rw [p.window_eq] at hoff ⊢
  refine BitVec.eq_of_toNat_eq ?_
  rw [BitVec.toNat_add, BitVec.toNat_ofNat, BitVec.toNat_ofNat, Nat.add_mod_mod]
  congr 1
  have hsplit := Nat.div_add_mod a.toNat (2 ^ p.fullRegionAddressBits)
  rw [splice, Nat.pow_zero, Nat.mod_one, Nat.zero_add, Nat.mod_eq_of_lt hlt]
  omega

/-- Rounding up to stretch `i`, on either side. -/
theorem roundUp_eq {i : Nat} (hi : i < p.noMstPorts)
    (hoff : p.l1Offset req ≤ i * p.dmaRegionWidth) :
    (if p.contains req.src then
      { req with
        src := BitVec.ofNat 32
          (splice req.src.toNat 0 p.fullRegionAddressBits (i * p.dmaRegionWidth))
        dst := req.dst + BitVec.ofNat 32 (i * p.dmaRegionWidth)
          - BitVec.ofNat 32 (p.l1Offset req) }
    else
      { req with
        src := req.src + BitVec.ofNat 32 (i * p.dmaRegionWidth)
          - BitVec.ofNat 32 (p.l1Offset req)
        dst := BitVec.ofNat 32
          (splice req.dst.toNat 0 p.fullRegionAddressBits (i * p.dmaRegionWidth)) })
    = req.part (i * p.dmaRegionWidth - p.l1Offset req) req.numBytes.toNat := by
  have hsub : ∀ a : BitVec 32,
      a + BitVec.ofNat 32 (i * p.dmaRegionWidth) - BitVec.ofNat 32 (p.l1Offset req)
        = a + BitVec.ofNat 32 (i * p.dmaRegionWidth - p.l1Offset req) := by
    intro a
    have hadd : i * p.dmaRegionWidth
        = i * p.dmaRegionWidth - p.l1Offset req + p.l1Offset req := by omega
    rw [hadd, BitVec.ofNat_add, ← BitVec.add_assoc, BitVec.add_sub_cancel, ← hadd]
  rw [hsub, hsub]
  split
  · rename_i hin
    rw [DistParams.l1Offset, DmaReq.l1Addr, if_pos hin] at hoff ⊢
    rw [splice_start hi hoff]
    simp [DmaReq.part]
  · rename_i hin
    rw [DistParams.l1Offset, DmaReq.l1Addr, if_neg hin] at hoff ⊢
    rw [splice_start hi hoff]
    simp [DmaReq.part]

/-- Byte `x` of a request, as long as it stays in the window, has the L1 address
of the window plus its offset in it. -/
theorem toNat_l1Byte {x : Nat}
    (hx : p.l1Offset req + x < p.dmaRegionWidth * p.noMstPorts) :
    (req.l1Byte p.toRegion (req.byte x)).toNat =
      p.dmaRegionWidth * p.noMstPorts *
        ((req.l1Addr p.toRegion).toNat / (p.dmaRegionWidth * p.noMstPorts))
      + (p.l1Offset req + x) := by
  have hdvd : p.dmaRegionWidth * p.noMstPorts ∣ 2 ^ 32 := by
    rw [p.window_eq]
    exact Nat.pow_dvd_pow 2 (Nat.le_of_lt p.fullRegionAddressBits_lt)
  obtain ⟨m, hm⟩ := hdvd
  have hsplit := Nat.div_add_mod (req.l1Addr p.toRegion).toNat
    (p.dmaRegionWidth * p.noMstPorts)
  have hq : (req.l1Addr p.toRegion).toNat / (p.dmaRegionWidth * p.noMstPorts) < m := by
    rw [Nat.div_lt_iff_lt_mul (by omega), Nat.mul_comm, ← hm]
    exact (req.l1Addr p.toRegion).isLt
  have htop : p.dmaRegionWidth * p.noMstPorts *
      ((req.l1Addr p.toRegion).toNat / (p.dmaRegionWidth * p.noMstPorts))
        + p.dmaRegionWidth * p.noMstPorts ≤ 2 ^ 32 := by
    rw [hm, ← Nat.mul_succ]
    exact Nat.mul_le_mul_left _ hq
  have hfit := p.window_fits
  rw [DmaReq.l1Byte_byte, BitVec.toNat_add, BitVec.toNat_ofNat, Nat.add_mod_mod,
    DistParams.l1Offset] at *
  rw [Nat.mod_eq_of_lt (by omega)]
  omega

/-- The offset of a point inside stretch `i`. -/
theorem mod_of_stretch {x W i : Nat} (hlo : i * W ≤ x) (hhi : x < (i + 1) * W) :
    x % W = x - i * W := by
  have hmul : (i + 1) * W = i * W + W := Nat.succ_mul i W
  have hx : x = W * i + (x - i * W) := by
    rw [Nat.mul_comm W]
    omega
  rw [hx, Nat.mul_add_mod, ← hx, Nat.mod_eq_of_lt (by omega)]

/-- Stretch `i` ends inside the window. -/
theorem stretch_le {i : Nat} (hi : i < p.noMstPorts) :
    (i + 1) * p.dmaRegionWidth ≤ p.dmaRegionWidth * p.noMstPorts := by
  rw [Nat.mul_comm]
  exact Nat.mul_le_mul_left _ hi

theorem under_of_inside
    (hwin : p.l1Offset req + req.numBytes.toNat ≤ p.dmaRegionWidth * p.noMstPorts) :
    p.l1Offset req + req.numBytes.toNat < 2 * (p.dmaRegionWidth * p.noMstPorts) := by
  have hpos := Nat.two_pow_pos p.fullRegionAddressBits
  rw [p.window_eq] at hwin ⊢
  omega

-- a request that ends in the next window at the latest; the part past the window
-- reaches no port
variable (hund : p.l1Offset req + req.numBytes.toNat < 2 * (p.dmaRegionWidth * p.noMstPorts))

include hund

theorem endAddr_eq : p.endAddr req = p.l1Offset req + req.numBytes.toNat := by
  rw [DistParams.endAddr, p.startAddr_eq]
  refine Nat.mod_eq_of_lt ?_
  rw [p.window_eq] at hund
  rw [Nat.pow_succ]
  omega

theorem portValid_iff {i : Nat} (hn : 1 ≤ req.numBytes.toNat) :
    p.portValid req i = true ↔
      clipLo (p.l1Offset req) p.dmaRegionWidth i
        < clipHi (p.l1Offset req) req.numBytes.toNat p.dmaRegionWidth i := by
  have hmul : (i + 1) * p.dmaRegionWidth = i * p.dmaRegionWidth + p.dmaRegionWidth :=
    Nat.succ_mul _ _
  have hpos := p.width_pos
  rw [DistParams.portValid, p.startAddr_eq, endAddr_eq hund, clipLo, clipHi]
  simp only [Bool.not_eq_true', Bool.or_eq_false_iff, decide_eq_false_iff_not]
  omega

/-- A port that takes part gets the part of the request in its stretch. -/
theorem portReq_eq {i : Nat} (hi : i < p.noMstPorts) (hn : 1 ≤ req.numBytes.toNat)
    (hv : p.portValid req i = true) :
    p.portReq req i =
      req.part (clipLo (p.l1Offset req) p.dmaRegionWidth i - p.l1Offset req)
        (clipHi (p.l1Offset req) req.numBytes.toNat p.dmaRegionWidth i
          - clipLo (p.l1Offset req) p.dmaRegionWidth i) := by
  have hmul : (i + 1) * p.dmaRegionWidth = i * p.dmaRegionWidth + p.dmaRegionWidth :=
    Nat.succ_mul _ _
  have hcl := (portValid_iff hund hn).mp hv
  rw [DistParams.portReq, hv, p.startAddr_eq, endAddr_eq hund]
  simp only [Bool.not_true, Bool.false_eq_true, if_false, p.slice_region]
  rw [clipLo, clipHi] at hcl
  rw [clipLo, clipHi]
  split
  · -- the request starts in this stretch
    rename_i hge
    have hlo : max (p.l1Offset req) (i * p.dmaRegionWidth) = p.l1Offset req := by omega
    rw [hlo, Nat.sub_self]
    split
    · rename_i hle
      rw [Nat.min_eq_left hle, Nat.add_sub_cancel_left, req.part_zero]
    · have hlen : p.dmaRegionWidth - (p.l1Offset req - i * p.dmaRegionWidth)
          = min (p.l1Offset req + req.numBytes.toNat) ((i + 1) * p.dmaRegionWidth)
            - p.l1Offset req := by omega
      rw [mod_of_stretch hge (by omega), hlen]
      simp [DmaReq.part]
  · -- it reaches in from an earlier one
    have hlo : max (p.l1Offset req) (i * p.dmaRegionWidth) = i * p.dmaRegionWidth := by omega
    rw [roundUp_eq hi (by omega), hlo]
    split
    · have hlen : min (p.l1Offset req + req.numBytes.toNat) ((i + 1) * p.dmaRegionWidth)
          - i * p.dmaRegionWidth = p.dmaRegionWidth := by omega
      rw [hlen]
      rfl
    · have hlen : min (p.l1Offset req + req.numBytes.toNat) ((i + 1) * p.dmaRegionWidth)
          - i * p.dmaRegionWidth
          = p.l1Offset req + req.numBytes.toNat - i * p.dmaRegionWidth := by omega
      have hmod : (p.l1Offset req + req.numBytes.toNat) % p.dmaRegionWidth
          = p.l1Offset req + req.numBytes.toNat - i * p.dmaRegionWidth :=
        mod_of_stretch (by omega) (by omega)
      rw [hmod, hlen]
      rfl

/-! ## One level -/

omit hund in
theorem clipHi_lt {i : Nat} (hi : i < p.noMstPorts) :
    clipHi (p.l1Offset req) req.numBytes.toNat p.dmaRegionWidth i < 2 ^ 32 := by
  have hfit := p.window_fits
  have hle := stretch_le hi
  rw [clipHi]
  omega

/-- The bytes of a slice, as bytes of the request. -/
theorem bytes_portReq {i : Nat} (hi : i < p.noMstPorts) (hn : 1 ≤ req.numBytes.toNat)
    (hv : p.portValid req i = true) :
    (p.portReq req i).bytes =
      span req.byte (clipLo (p.l1Offset req) p.dmaRegionWidth i - p.l1Offset req)
        (clipHi (p.l1Offset req) req.numBytes.toNat p.dmaRegionWidth i
          - clipLo (p.l1Offset req) p.dmaRegionWidth i) := by
  rw [portReq_eq hund hi hn hv]
  refine DmaReq.bytes_part _ _ ?_
  have := @clipHi_lt p req i hi
  omega

theorem numBytes_portReq {i : Nat} (hi : i < p.noMstPorts)
    (hn : 1 ≤ req.numBytes.toNat) (hv : p.portValid req i = true) :
    (p.portReq req i).numBytes.toNat =
      clipHi (p.l1Offset req) req.numBytes.toNat p.dmaRegionWidth i
        - clipLo (p.l1Offset req) p.dmaRegionWidth i := by
  have := @clipHi_lt p req i hi
  rw [portReq_eq hund hi hn hv, DmaReq.part, BitVec.toNat_ofNat, Nat.mod_eq_of_lt (by omega)]

omit hund in
/-- The slices of the ports, in port order, are the request. -/
theorem flatMap_portOut
    (hwin : p.l1Offset req + req.numBytes.toNat ≤ p.dmaRegionWidth * p.noMstPorts)
    (hn : 1 ≤ req.numBytes.toNat) :
    ((List.range p.noMstPorts).flatMap fun i =>
        (p.portOut req i).elim [] DmaReq.bytes) = req.bytes := by
  have hund := under_of_inside hwin
  have hport : ∀ i ∈ List.range p.noMstPorts,
      (p.portOut req i).elim [] DmaReq.bytes =
        span req.byte (clipLo (p.l1Offset req) p.dmaRegionWidth i - p.l1Offset req)
          (clipHi (p.l1Offset req) req.numBytes.toNat p.dmaRegionWidth i
            - clipLo (p.l1Offset req) p.dmaRegionWidth i) := by
    intro i hi
    rw [DistParams.portOut]
    split
    · rename_i hv
      exact bytes_portReq hund (List.mem_range.mp hi) hn hv
    · rename_i hv
      have hcl := mt (portValid_iff hund hn).mpr hv
      rw [Nat.sub_eq_zero_of_le (Nat.le_of_not_lt hcl)]
      rfl
  rw [List.flatMap_congr hport, flatMap_clip, Nat.mul_comm, Nat.min_eq_left hwin,
    Nat.add_sub_cancel_left]
  rfl

/-- The L1 bytes of the slice for port `i` lie in the stretches of port `i`. -/
theorem l1_of_portReq {i : Nat} (hi : i < p.noMstPorts) (hn : 1 ≤ req.numBytes.toNat)
    (hv : p.portValid req i = true) {b : BitVec 32 × BitVec 32}
    (hb : b ∈ (p.portReq req i).bytes) :
    (req.l1Byte p.toRegion b).toNat / p.dmaRegionWidth % p.noMstPorts = i := by
  have hmul : (i + 1) * p.dmaRegionWidth = i * p.dmaRegionWidth + p.dmaRegionWidth :=
    Nat.succ_mul _ _
  rw [bytes_portReq hund hi hn hv] at hb
  obtain ⟨k, hk, rfl⟩ := mem_span.mp hb
  have hle := stretch_le hi
  rw [clipLo, clipHi] at hk
  rw [clipLo, toNat_l1Byte (by omega)]
  have hy : (p.l1Offset req
      + (max (p.l1Offset req) (i * p.dmaRegionWidth) - p.l1Offset req + k))
      / p.dmaRegionWidth = i := by
    refine Nat.div_eq_of_lt_le ?_ ?_ <;> omega
  rw [Nat.mul_assoc, Nat.mul_add_div p.width_pos, hy, Nat.mul_add_mod, Nat.mod_eq_of_lt hi]

end Window

/-! ## Two levels -/

section Nested

variable {sys grp : DistConfig} {req : DmaReq}

/-- What the second level needs to know about the slice it gets: it lies in one
stretch of the first level, and on the same side of the L1. -/
structure GroupSlice (sys grp : DistConfig) (req r : DmaReq) : Prop where
  nonempty : 1 ≤ r.numBytes.toNat
  inside : grp.l1Offset r + r.numBytes.toNat ≤ grp.dmaRegionWidth * grp.noMstPorts
  side : sys.contains r.src = sys.contains req.src

theorem groupSlice (hregion : grp.toRegion = sys.toRegion)
    (hnest : grp.dmaRegionWidth * grp.noMstPorts = sys.dmaRegionWidth)
    (hn : 1 ≤ req.numBytes.toNat)
    (hund : sys.l1Offset req + req.numBytes.toNat <
      2 * (sys.dmaRegionWidth * sys.noMstPorts))
    (hside : req.OneSided sys.toRegion) {g : Nat} (hg : g < sys.noMstPorts)
    (hv : sys.portValid req g = true) :
    GroupSlice sys grp req (sys.portReq req g) := by
  have hcl := (portValid_iff hund hn).mp hv
  have hnum := numBytes_portReq hund hg hn hv
  have hle := stretch_le hg
  have hmul : (g + 1) * sys.dmaRegionWidth = g * sys.dmaRegionWidth + sys.dmaRegionWidth :=
    Nat.succ_mul _ _
  have hsrc : sys.contains (sys.portReq req g).src = sys.contains req.src := by
    rw [portReq_eq hund hg hn hv]
    refine hside _ ?_
    rw [clipLo, clipHi] at hcl
    rw [clipLo]
    omega
  have haddr : (sys.portReq req g).l1Addr sys.toRegion
      = req.l1Byte sys.toRegion
          (req.byte (clipLo (sys.l1Offset req) sys.dmaRegionWidth g - sys.l1Offset req)) := by
    rw [DmaReq.l1Addr, DmaReq.l1Byte, hsrc, portReq_eq hund hg hn hv]
    rfl
  refine ⟨by omega, ?_, hsrc⟩
  rw [DistParams.l1Offset, hregion, haddr, hnest, hnum]
  rw [clipLo, clipHi] at hcl ⊢
  rw [toNat_l1Byte (by omega), Nat.mul_assoc, Nat.mul_add_mod,
    mod_of_stretch (i := g) (by omega) (by omega)]
  omega

/-- What reaches backend `d` of group `g` is what both levels let through. -/
theorem backendReq_eq_some {sys grp : DistParams} {r : DmaReq} {g d : Nat}
    (h : backendReq sys grp req g d = some r) :
    sys.portValid req g = true ∧ grp.portValid (sys.portReq req g) d = true ∧
      r = grp.portReq (sys.portReq req g) d := by
  rw [backendReq, DistParams.portOut] at h
  split at h
  · rename_i hv
    rw [Option.bind_some, DistParams.portOut] at h
    split at h
    · rename_i hv'
      exact ⟨hv, hv', (Option.some.inj h).symm⟩
    · cases h
  · cases h

/-- The L1 address of a byte names the group and the backend it is sent to. -/
theorem backend_of_byte (sys grp : DistConfig) (hregion : grp.toRegion = sys.toRegion)
    (hnest : grp.dmaRegionWidth * grp.noMstPorts = sys.dmaRegionWidth)
    (hn : 1 ≤ req.numBytes.toNat)
    (hwin : sys.l1Offset req + req.numBytes.toNat ≤ sys.dmaRegionWidth * sys.noMstPorts)
    (hside : req.OneSided sys.toRegion) {g d : Nat} (hg : g < sys.noMstPorts)
    (hd : d < grp.noMstPorts) {r : DmaReq}
    (hr : backendReq sys.toDistParams grp.toDistParams req g d = some r)
    {b : BitVec 32 × BitVec 32} (hb : b ∈ r.bytes) :
    (req.l1Byte sys.toRegion b).toNat / sys.dmaRegionWidth % sys.noMstPorts = g ∧
      (req.l1Byte sys.toRegion b).toNat / grp.dmaRegionWidth % grp.noMstPorts = d := by
  obtain ⟨hv, hv', rfl⟩ := backendReq_eq_some hr
  have hs := groupSlice hregion hnest hn (under_of_inside hwin) hside hg hv
  have hbg : b ∈ (sys.portReq req g).bytes := by
    rw [← flatMap_portOut hs.inside hs.nonempty, List.mem_flatMap]
    refine ⟨d, List.mem_range.mpr hd, ?_⟩
    rw [DistParams.portOut, if_pos hv']
    exact hb
  have h2 := l1_of_portReq (under_of_inside hs.inside) hd hs.nonempty hv' hb
  have hsame : (sys.portReq req g).l1Byte sys.toRegion b = req.l1Byte sys.toRegion b := by
    rw [DmaReq.l1Byte, DmaReq.l1Byte, hs.side]
  rw [hregion, hsame] at h2
  exact ⟨l1_of_portReq (under_of_inside hwin) hg hn hv hbg, h2⟩

/-- Through both levels, every byte of a transfer goes to exactly one backend,
and its L1 address to a tile that backend is attached to. -/
theorem distributed_midends_partition (sys grp : DistConfig) {req : DmaReq}
    {tilesPerDma tileBytes : Nat} (hregion : grp.toRegion = sys.toRegion)
    (hnest : grp.dmaRegionWidth * grp.noMstPorts = sys.dmaRegionWidth)
    (htiles : tileBytes * tilesPerDma = grp.dmaRegionWidth)
    (hn : 1 ≤ req.numBytes.toNat)
    (hwin : sys.l1Offset req + req.numBytes.toNat ≤ sys.dmaRegionWidth * sys.noMstPorts)
    (hside : req.OneSided sys.toRegion) :
    ((List.range sys.noMstPorts).flatMap fun g =>
      (List.range grp.noMstPorts).flatMap fun d =>
        (backendReq sys.toDistParams grp.toDistParams req g d).elim [] DmaReq.bytes)
      = req.bytes ∧
    ∀ g < sys.noMstPorts, ∀ d < grp.noMstPorts, ∀ r,
      backendReq sys.toDistParams grp.toDistParams req g d = some r →
      0 < r.numBytes.toNat ∧
      ∀ b ∈ r.bytes,
        (req.l1Byte sys.toRegion b).toNat / tileBytes
          % (tilesPerDma * (grp.noMstPorts * sys.noMstPorts)) / tilesPerDma
            = g * grp.noMstPorts + d := by
  constructor
  · -- the second level gives back each slice of the first
    rw [← flatMap_portOut hwin hn]
    refine List.flatMap_congr fun g hg => ?_
    have hg' := List.mem_range.mp hg
    simp only [backendReq]
    rw [DistParams.portOut]
    split
    · rename_i hv
      have hs := groupSlice hregion hnest hn (under_of_inside hwin) hside hg' hv
      exact flatMap_portOut hs.inside hs.nonempty
    · simp
  · intro g hg d hd r hr
    constructor
    · obtain ⟨hv, hv', rfl⟩ := backendReq_eq_some hr
      have hs := groupSlice hregion hnest hn (under_of_inside hwin) hside hg hv
      have hcl := (portValid_iff (under_of_inside hs.inside) hs.nonempty).mp hv'
      rw [numBytes_portReq (under_of_inside hs.inside) hd hs.nonempty hv']
      omega
    · intro b hb
      obtain ⟨h1, h2⟩ := backend_of_byte sys grp hregion hnest hn hwin hside hg hd hr hb
      -- tile, backend and group are digits of the L1 address
      rw [Nat.mod_mul_right_div_self, Nat.div_div_eq_div_mul, htiles, Nat.mod_mul,
        Nat.div_div_eq_div_mul, hnest, h1, h2]
      ring

end Nested

end DistConfig

/-! ## The instances -/

section Instances

variable (c : Hw.DmaConfig) (tcdmBaseAddr : Nat)

def systemConfig : DistConfig where
  toDistParams := systemMidend c.toParams tcdmBaseAddr
  ports_pow := c.groups_pow
  width_pow := by
    show c.numBanksPerGroup * 4 = 2 ^ clog2 (c.numBanksPerGroup * 4)
    rw [c.groupBytes_eq, clog2_pow]
  window_fits := by
    show c.numBanksPerGroup * 4 * c.numGroups < 2 ^ 32
    have hd := c.dBits_le
    have hn := c.tcdmBits_lt
    rw [c.groupBytes_eq, c.numGroups_eq, ← Nat.pow_add]
    exact Nat.pow_lt_pow_right (by omega) (by omega)

def groupConfig : DistConfig where
  toDistParams := groupMidend c.toParams tcdmBaseAddr
  ports_pow := c.dmas_pow
  width_pow := by
    show c.numBanksPerGroup * 4 / c.numDmasPerGroup
      = 2 ^ clog2 (c.numBanksPerGroup * 4 / c.numDmasPerGroup)
    rw [c.dmaBytes_eq, clog2_pow]
  window_fits := by
    show c.numBanksPerGroup * 4 / c.numDmasPerGroup * c.numDmasPerGroup < 2 ^ 32
    have hd := c.dBits_le
    have hn := c.tcdmBits_lt
    rw [c.dmaBytes_eq, c.numDmasPerGroup_eq, ← Nat.pow_add]
    exact Nat.pow_lt_pow_right (by omega) (by omega)

theorem groupConfig_nested :
    (groupConfig c tcdmBaseAddr).dmaRegionWidth * (groupConfig c tcdmBaseAddr).noMstPorts
      = (systemConfig c tcdmBaseAddr).dmaRegionWidth := by
  show c.numBanksPerGroup * 4 / c.numDmasPerGroup * c.numDmasPerGroup
    = c.numBanksPerGroup * 4
  rw [c.dmaBytes_eq, c.groupBytes_eq, c.numDmasPerGroup_eq, ← Nat.pow_add]

theorem groupConfig_tiles :
    4 * c.numBanksPerTile * c.numTilesPerDma
      = (groupConfig c tcdmBaseAddr).dmaRegionWidth := by
  show 4 * c.numBanksPerTile * c.numTilesPerDma
    = c.numBanksPerGroup * 4 / c.numDmasPerGroup
  rw [c.dmaBytes_eq, c.numBanksPerTile_eq, c.numTilesPerDma_eq,
    show (4 : Nat) = 2 ^ 2 from rfl, ← Nat.pow_add, ← Nat.pow_add]

end Instances

/-- A transfer of 100 bytes from the L2 to byte 40 of the L1, on minpool. -/
def minpoolReq : DmaReq := { src := 0x80000000#32, dst := 40#32, numBytes := 100#32 }

theorem minpoolReq_oneSided :
    minpoolReq.OneSided (systemMidend (Hw.minpool true true).toParams 0).toRegion := by
  have hend : (systemMidend (Hw.minpool true true).toParams 0).dmaRegionEnd = 65536 := by
    decide
  intro k hk
  have hk' : k < 100 := hk
  have hsrc : (minpoolReq.src + BitVec.ofNat 32 k).toNat = 2147483648 + k := by
    rw [BitVec.toNat_add, BitVec.toNat_ofNat, show minpoolReq.src.toNat = 2147483648 from rfl]
    omega
  have hout : ∀ a : BitVec 32, 65536 ≤ a.toNat →
      (systemMidend (Hw.minpool true true).toParams 0).contains a = false := by
    intro a ha
    rw [Region.contains, hend, decide_eq_false (Nat.not_lt.mpr ha), Bool.and_false]
  rw [hout _ (by omega), hout _ (by decide)]

theorem distributed_midends_partition_minpool :
    1 ≤ minpoolReq.numBytes.toNat ∧
    ((List.range 4).flatMap fun g => (List.range 1).flatMap fun d =>
      (backendReq (systemMidend (Hw.minpool true true).toParams 0)
        (groupMidend (Hw.minpool true true).toParams 0) minpoolReq g d).elim [] DmaReq.bytes)
      = minpoolReq.bytes :=
  ⟨by decide,
    (DistConfig.distributed_midends_partition (systemConfig (Hw.minpool true true) 0)
      (groupConfig (Hw.minpool true true) 0) rfl (groupConfig_nested _ 0)
      (groupConfig_tiles _ 0) (by decide) (by decide) minpoolReq_oneSided).1⟩

end TeraNoC.Dma
