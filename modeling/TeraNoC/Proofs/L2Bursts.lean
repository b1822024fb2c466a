import TeraNoC.Dma.L2Path
import TeraNoC.Proofs.BurstReshaper
import TeraNoC.Proofs.DistributedMidend
import TeraNoC.Proofs.L2Preload

/-!
# Bursts and the interleaver

The interleaver moves whole chunks, so a burst that stays inside a chunk arrives
in one piece, and a burst that goes on into the next chunk does not: its tail is
written behind the first chunk in the same bank while it belongs to the next
bank. What keeps a burst from crossing a border between chunks is either the
burst splitter, or a cut that happens to fall on the border: a page border of
the reshaper, or the end of the L1 stretch of the backend. The group has no
splitter when a stretch is no longer than a chunk, but a stretch can start in
the middle of a chunk.

The proof follows the transfer. Every request a backend is given is a part of
the transfer with no stretch border inside (`Piece`), every burst is a part of
such a request with no page border inside (`Cut`), and the rest is the
arithmetic of the permutation. Conversely every byte that is on no stretch
border reaches its backend together with the byte before it.
-/

namespace TeraNoC.Hw.L2Config

open TeraNoC.Lib

variable (c : L2Config)

/-! ## The permutation moves chunks -/

/-- Where a chunk goes. -/
def permuteChunk (x : Nat) : Nat :=
  concat (x % 2 ^ c.kBits) (x / 2 ^ c.kBits % 2 ^ c.qBits) c.qBits

theorem permute_eq (x : Nat) :
    c.permute x = 2 ^ (c.eBits + c.iBits) * c.permuteChunk (x / 2 ^ (c.eBits + c.iBits)) +
      x % 2 ^ (c.eBits + c.iBits) := by
  have hbyte : c.chunkByte x = x % 2 ^ (c.eBits + c.iBits) := by
    rw [chunkByte, slice, Nat.pow_zero, Nat.div_one]
  have hchunk : c.chunkField x =
      x / 2 ^ (c.eBits + c.iBits) / 2 ^ c.kBits % 2 ^ c.qBits := by
    rw [chunkField, slice, Nat.pow_add, Nat.div_div_eq_div_mul]
  rw [permute, bankByte, Nat.add_comm (c.eBits + c.iBits) c.qBits, ← concat_assoc, concat,
    hbyte, hchunk, permuteChunk]
  rfl

/-- The chunk after the next is never the next chunk of the same bank. -/
theorem permuteChunk_succ {x : Nat} (hx : x + 1 < 2 ^ (c.kBits + c.qBits)) :
    c.permuteChunk (x + 1) ≠ c.permuteChunk x + 1 := by
  have hk : 2 ^ 1 ≤ 2 ^ c.kBits := Nat.pow_le_pow_right (by omega) c.kBits_pos
  have hq : 2 ^ 1 ≤ 2 ^ c.qBits := Nat.pow_le_pow_right (by omega) c.qBits_pos
  rw [Nat.pow_add] at hx
  have hlt : ∀ y, y < 2 ^ c.kBits * 2 ^ c.qBits → y / 2 ^ c.kBits < 2 ^ c.qBits := by
    intro y hy
    exact Nat.div_lt_of_lt_mul hy
  simp only [permuteChunk, concat]
  rw [Nat.mod_eq_of_lt (hlt x (Nat.lt_of_succ_lt hx)), Nat.mod_eq_of_lt (hlt (x + 1) hx)]
  have hsplit := Nat.div_add_mod x (2 ^ c.kBits)
  have hmod := Nat.mod_lt x (show 0 < 2 ^ c.kBits by omega)
  rcases Nat.lt_or_ge (x % 2 ^ c.kBits + 1) (2 ^ c.kBits) with hin | hlast
  · -- the next bank, at the same place
    have hdiv : (x + 1) / 2 ^ c.kBits = x / 2 ^ c.kBits := by
      rw [Nat.succ_div_of_not_dvd]
      intro hdvd
      have h0 := Nat.mod_eq_zero_of_dvd hdvd
      rw [← Nat.mod_add_mod, Nat.mod_eq_of_lt hin] at h0
      omega
    have hmod' : (x + 1) % 2 ^ c.kBits = x % 2 ^ c.kBits + 1 := by
      rw [← Nat.mod_add_mod, Nat.mod_eq_of_lt hin]
    rw [hdiv, hmod', Nat.mul_add, Nat.mul_one]
    omega
  · -- back to the first bank
    have hdvd : 2 ^ c.kBits ∣ x + 1 := by
      refine ⟨x / 2 ^ c.kBits + 1, ?_⟩
      rw [Nat.mul_add, Nat.mul_one]
      omega
    rw [Nat.mod_eq_zero_of_dvd hdvd, Nat.succ_div_of_dvd hdvd, Nat.mul_zero, Nat.zero_add]
    have hbank : 1 ≤ x % 2 ^ c.kBits := by omega
    have hbig := Nat.mul_le_mul_left (2 ^ c.qBits) hbank
    omega

section Chunks

variable {c} {x y : Nat} (hy : y < 2 ^ c.lBits) (hwin : y < 2 ^ 28)
include hy hwin

/-- Inside a chunk the interleaver keeps distances. -/
theorem interleaveAddr_same_chunk (hxy : x ≤ y)
    (hchunk : x / 2 ^ (c.eBits + c.iBits) = y / 2 ^ (c.eBits + c.iBits)) :
    c.interleaveAddr (L2Params.l2MemoryBaseAddr + x) + (y - x) =
      c.interleaveAddr (L2Params.l2MemoryBaseAddr + y) := by
  have hdx := Nat.div_add_mod x (2 ^ (c.eBits + c.iBits))
  have hdy := Nat.div_add_mod y (2 ^ (c.eBits + c.iBits))
  rw [c.interleaveAddr_base_add (by omega) (by omega), c.interleaveAddr_base_add hy hwin,
    c.permute_eq, c.permute_eq y, hchunk]
  rw [hchunk] at hdx
  omega

/-- Over the border between two chunks it does not. -/
theorem interleaveAddr_next_chunk (hxy : x < y)
    (hchunk : x / 2 ^ (c.eBits + c.iBits) + 1 = y / 2 ^ (c.eBits + c.iBits))
    (hborder : 2 ^ (c.eBits + c.iBits) ∣ y) :
    c.interleaveAddr (L2Params.l2MemoryBaseAddr + x) + (y - x) ≠
      c.interleaveAddr (L2Params.l2MemoryBaseAddr + y) := by
  have hdx := Nat.div_add_mod x (2 ^ (c.eBits + c.iBits))
  have hdy := Nat.div_add_mod y (2 ^ (c.eBits + c.iBits))
  have hy0 := Nat.mod_eq_zero_of_dvd hborder
  have hlt : x / 2 ^ (c.eBits + c.iBits) + 1 < 2 ^ (c.kBits + c.qBits) := by
    rw [hchunk, Nat.div_lt_iff_lt_mul (Nat.two_pow_pos _), ← Nat.pow_add]
    rw [c.lBits_eq] at hy
    rw [show c.kBits + c.qBits + (c.eBits + c.iBits) =
      c.eBits + c.iBits + c.kBits + c.qBits by omega]
    exact hy
  have hne := c.permuteChunk_succ hlt
  rw [c.interleaveAddr_base_add (by omega) (by omega), c.interleaveAddr_base_add hy hwin,
    c.permute_eq, c.permute_eq y, ← hchunk, hy0]
  intro heq
  have hmul : 2 ^ (c.eBits + c.iBits) * (c.permuteChunk (x / 2 ^ (c.eBits + c.iBits)) + 1) =
      2 ^ (c.eBits + c.iBits) *
        c.permuteChunk (x / 2 ^ (c.eBits + c.iBits) + 1) := by
    rw [← hchunk, Nat.mul_add] at hdy
    rw [Nat.mul_add]
    omega
  exact hne (Nat.eq_of_mul_eq_mul_left (Nat.two_pow_pos _) hmul).symm

end Chunks

end TeraNoC.Hw.L2Config

namespace TeraNoC.Dma

open TeraNoC.Lib

/-! ## Parts of a transfer -/

namespace DmaReq

theorem part_part (req : DmaReq) (off len off' len' : Nat) :
    (req.part off len).part off' len' = req.part (off + off') len' := by
  simp only [part, BitVec.add_assoc, BitVec.ofNat_add]

/-- The part of a request lies on the same side of the L1 as the request. -/
theorem l1Addr_part {rg : Region} {req : DmaReq} (hside : req.OneSided rg) {off len : Nat}
    (hoff : off < req.numBytes.toNat) :
    (req.part off len).l1Addr rg = req.l1Addr rg + BitVec.ofNat 32 off := by
  have hsrc : rg.contains (req.part off len).src = rg.contains req.src := hside off hoff
  rw [l1Addr, l1Addr, hsrc]
  split <;> rfl

theorem oneSided_part {rg : Region} {req : DmaReq} (hside : req.OneSided rg) {off len : Nat}
    (hin : off + len ≤ req.numBytes.toNat) : (req.part off len).OneSided rg := by
  have hn := req.numBytes.isLt
  intro k hk
  rw [numBytes_part _ _ (by omega)] at hk
  have hsrc : (req.part off len).src + BitVec.ofNat 32 k =
      req.src + BitVec.ofNat 32 (off + k) := by
    rw [part, BitVec.add_assoc, ← BitVec.ofNat_add]
  have h0 : rg.contains (req.part off len).src = rg.contains req.src := hside off (by omega)
  rw [hsrc, hside (off + k) (by omega), h0]

end DmaReq

/-- A part of a request with no multiple of `W` strictly inside its L1 side. -/
structure Piece (rg : Region) (W : Nat) (req r : DmaReq) (off len : Nat) : Prop where
  eq : r = req.part off len
  nonempty : 1 ≤ len
  inside : off + len ≤ req.numBytes.toNat
  free : ∀ j, off < j → j < off + len → ¬W ∣ (req.l1Addr rg).toNat + j

namespace DistConfig

variable {p : DistConfig} {req : DmaReq}

theorem l1Addr_eq (p : DistConfig) (req : DmaReq) : (req.l1Addr p.toRegion).toNat =
    p.dmaRegionWidth * (p.noMstPorts *
      ((req.l1Addr p.toRegion).toNat / (p.dmaRegionWidth * p.noMstPorts))) + p.l1Offset req := by
  rw [← Nat.mul_assoc, DistParams.l1Offset]
  exact (Nat.div_add_mod _ _).symm

/-- A slice is a piece of the request. -/
theorem piece_portReq (hn : 1 ≤ req.numBytes.toNat)
    (hund : p.l1Offset req + req.numBytes.toNat < 2 * (p.dmaRegionWidth * p.noMstPorts))
    {i : Nat} (hi : i < p.noMstPorts) (hv : p.portValid req i = true) :
    ∃ off len, Piece p.toRegion p.dmaRegionWidth req (p.portReq req i) off len := by
  have hcl := (portValid_iff hund hn).mp hv
  have hmul : (i + 1) * p.dmaRegionWidth = i * p.dmaRegionWidth + p.dmaRegionWidth :=
    Nat.succ_mul _ _
  refine ⟨_, _, portReq_eq hund hi hn hv, by omega, ?_, ?_⟩
  · rw [clipLo, clipHi] at hcl ⊢
    omega
  · intro j hlo hhi hdvd
    rw [p.l1Addr_eq, Nat.add_assoc] at hdvd
    have hdvd' := (Nat.dvd_add_right (Nat.dvd_mul_right _ _)).mp hdvd
    rw [clipLo, clipHi] at *
    have h0 := Nat.mod_eq_zero_of_dvd hdvd'
    rw [mod_of_stretch (i := i) (by omega) (by omega)] at h0
    omega

/-- Every byte of a request that stays in the window is in some slice, which
starts with the request or on a border. -/
theorem exists_portReq (hn : 1 ≤ req.numBytes.toNat)
    (hwin : p.l1Offset req + req.numBytes.toNat ≤ p.dmaRegionWidth * p.noMstPorts)
    {j : Nat} (hj : j < req.numBytes.toNat) :
    ∃ i < p.noMstPorts, p.portValid req i = true ∧
      ∃ off len, p.portReq req i = req.part off len ∧ off ≤ j ∧ j < off + len ∧
        off + len ≤ req.numBytes.toNat ∧ len ≤ p.dmaRegionWidth ∧
        (off = 0 ∨ p.dmaRegionWidth ∣ (req.l1Addr p.toRegion).toNat + off) := by
  have hpos := p.width_pos
  have hund := under_of_inside hwin
  obtain ⟨i, hi⟩ : ∃ i, i = (p.l1Offset req + j) / p.dmaRegionWidth := ⟨_, rfl⟩
  have hdiv := Nat.div_add_mod (p.l1Offset req + j) p.dmaRegionWidth
  have hmod := Nat.mod_lt (p.l1Offset req + j) hpos
  rw [← hi, Nat.mul_comm] at hdiv
  have hmul : (i + 1) * p.dmaRegionWidth = i * p.dmaRegionWidth + p.dmaRegionWidth :=
    Nat.succ_mul _ _
  have hports : i < p.noMstPorts := by
    rw [hi, Nat.div_lt_iff_lt_mul hpos, Nat.mul_comm]
    omega
  have hv : p.portValid req i = true := by
    rw [portValid_iff hund hn, clipLo, clipHi]
    omega
  refine ⟨i, hports, hv, _, _, portReq_eq hund hports hn hv, ?_, ?_, ?_, ?_, ?_⟩
  · rw [clipLo]
    omega
  · rw [clipLo, clipHi]
    omega
  · rw [clipLo, clipHi]
    omega
  · rw [clipLo, clipHi]
    omega
  · rcases Nat.lt_or_ge (p.l1Offset req) (i * p.dmaRegionWidth) with hlt | hge
    · right
      rw [p.l1Addr_eq, Nat.add_assoc, clipLo]
      refine (Nat.dvd_add_right (Nat.dvd_mul_right _ _)).mpr ⟨i, ?_⟩
      rw [Nat.mul_comm p.dmaRegionWidth]
      omega
    · left
      rw [clipLo]
      omega

end DistConfig

/-- A downstream that takes everything. -/
def Down.eager : Down where
  ready := true
  downMeta := { backendIdle := true, transComplete := false }

namespace SplitRun

variable {p : SplitConfig} {req : DmaReq} {r : SplitRun} {d : Down}

/-- What the split midend hands over: a part no longer than a window. -/
structure SubPart (p : SplitConfig) (req sub : DmaReq) (off len : Nat) : Prop where
  eq : sub = req.part off len
  nonempty : 1 ≤ len
  inside : off + len ≤ req.numBytes.toNat
  short : len ≤ p.dmaRegionWidth

theorem subPart_step (hn : 1 ≤ req.numBytes.toNat) (h : Progress req r) {sub : DmaReq}
    (hsub : sub ∈ (r.step p.toSplitParams d).handed) :
    sub ∈ r.handed ∨ ∃ off len, SubPart p req sub off len := by
  have hnew : ∀ new : DmaReq, (∃ off len, SubPart p req new off len) →
      sub ∈ (if d.ready then r.handed ++ [new] else r.handed) →
      sub ∈ r.handed ∨ ∃ off len, SubPart p req sub off len := by
    intro new hpart hmem
    split at hmem
    · rcases List.mem_append.mp hmem with hold | hlast
      · exact Or.inl hold
      · rw [List.mem_singleton.mp hlast]
        exact Or.inr hpart
    · exact Or.inl hmem
  have hfirst_le := p.firstBytes_le req
  cases h with
  | waiting hph hpend hhand =>
      rcases Nat.lt_or_ge (p.firstBytes req) req.numBytes.toNat with hfirst | hfirst
      · rw [(step_store hph hpend hfirst).2.2.2] at hsub
        have hpos : 1 ≤ p.firstBytes req := by
          have := Nat.mod_lt (req.sideAddr p.toRegion req).toNat p.width_pos
          rw [p.firstBytes_eq]
          omega
        refine hnew _ ⟨0, p.firstBytes req, ?_, hpos, by omega, hfirst_le⟩ hsub
        simp [DmaReq.part]
      · rw [(step_forward hph hpend hfirst).2.2] at hsub
        exact hnew _ ⟨0, req.numBytes.toNat, req.part_zero.symm, hn, by omega, by omega⟩ hsub
  | working off hoff hph hpend hreg hhand =>
      have hnum : r.mid.req.numBytes.toNat = req.numBytes.toNat - off := by
        rw [hreg]
        exact req.numBytes_part _ (by have := req.numBytes.isLt; omega)
      have hwpos := p.width_pos
      rcases Nat.lt_or_ge p.dmaRegionWidth r.mid.req.numBytes.toNat with hw | hw
      · rw [(step_clip hph hpend hw).2.2.2] at hsub
        refine hnew _ ⟨off, p.dmaRegionWidth, ?_, hwpos, by omega, Nat.le_refl _⟩ hsub
        rw [hreg]
        rfl
      · rw [(step_last hph hpend hw).2.2.2] at hsub
        exact hnew _ ⟨off, req.numBytes.toNat - off, hreg, by omega, by omega, by omega⟩ hsub
  | finished hph hpend hhand =>
      rw [(step_finished hph hpend).2.2] at hsub
      exact Or.inl hsub

theorem subPart_after (p : SplitConfig) (hn : 1 ≤ req.numBytes.toNat) (down : Nat → Down)
    (t : Nat) : ∀ sub ∈ (after p.toSplitParams [req] down t).handed,
      ∃ off len, SubPart p req sub off len := by
  induction t with
  | zero => exact fun sub hsub => absurd hsub List.not_mem_nil
  | succ t ih =>
      intro sub hsub
      rcases subPart_step hn (progress_after p req down t) hsub with hold | hnew
      · exact ih sub hold
      · exact hnew

/-! A downstream that is always ready gets every byte, in a sub-request that
starts with the transfer or on a window border and stays in the window. -/

/-- The first `k` bytes are in sub-requests that respect the windows. -/
def Handed (p : SplitConfig) (req : DmaReq) (h : List DmaReq) (k : Nat) : Prop :=
  ∀ j < k, ∃ off len, req.part off len ∈ h ∧ off ≤ j ∧ j < off + len ∧
    off + len ≤ req.numBytes.toNat ∧
    (off = 0 ∨ p.dmaRegionWidth ∣ (req.l1Addr p.toRegion).toNat + off) ∧
    ((req.l1Addr p.toRegion).toNat + off) % p.dmaRegionWidth + len ≤ p.dmaRegionWidth

theorem Handed.concat {h : List DmaReq} {off : Nat} (hh : Handed p req h off) (len : Nat)
    (hin : off + len ≤ req.numBytes.toNat)
    (hstart : off = 0 ∨ p.dmaRegionWidth ∣ (req.l1Addr p.toRegion).toNat + off)
    (hfit : ((req.l1Addr p.toRegion).toNat + off) % p.dmaRegionWidth + len ≤
      p.dmaRegionWidth) :
    Handed p req (h ++ [req.part off len]) (off + len) := by
  intro j hj
  rcases Nat.lt_or_ge j off with hlt | hge
  · obtain ⟨off', len', hmem, hrest⟩ := hh j hlt
    exact ⟨off', len', List.mem_append_left _ hmem, hrest⟩
  · exact ⟨off, len, List.mem_append_right _ (List.mem_singleton_self _), hge, hj, hin,
      hstart, hfit⟩

inductive Covering (p : SplitConfig) (req : DmaReq) (r : SplitRun) : Prop where
  | waiting (hph : r.mid.phase = .idle) (hpend : r.pending = [req]) (hhand : r.handed = [])
  | working (off : Nat) (hoff : off < req.numBytes.toNat) (hph : r.mid.phase = .busy)
      (hpend : r.pending = []) (hreg : r.mid.req = req.part off (req.numBytes.toNat - off))
      (hborder : p.dmaRegionWidth ∣ (req.l1Addr p.toRegion).toNat + off)
      (hhand : Handed p req r.handed off)
  | finished (hph : r.mid.phase = .idle) (hpend : r.pending = [])
      (hhand : Handed p req r.handed req.numBytes.toNat)

theorem Covering.step (h : Covering p req r) :
    Covering p req (r.step p.toSplitParams .eager) := by
  have h32 := req.numBytes.isLt
  have hwpos := p.width_pos
  have hnil : Handed p req [] 0 := fun j hj => absurd hj (Nat.not_lt_zero j)
  have hfirst_eq : p.firstBytes req =
      p.dmaRegionWidth - (req.l1Addr p.toRegion).toNat % p.dmaRegionWidth :=
    p.firstBytes_eq req
  have hmod := Nat.mod_lt (req.l1Addr p.toRegion).toNat hwpos
  cases h with
  | waiting hph hpend hhand =>
      rcases Nat.lt_or_ge (p.firstBytes req) req.numBytes.toNat with hfirst | hfirst
      · obtain ⟨hph', hreq', hpend', hhand'⟩ := step_store (d := Down.eager) hph hpend hfirst
        have hadv := req.advance_part 0 (p.firstBytes req) (by omega)
        rw [Nat.sub_zero, req.part_zero, Nat.zero_add] at hadv
        have hsub : { req with numBytes := BitVec.ofNat 32 (p.firstBytes req) }
            = req.part 0 (p.firstBytes req) := by simp [DmaReq.part]
        have hborder : p.dmaRegionWidth ∣ (req.l1Addr p.toRegion).toNat + p.firstBytes req := by
          refine ⟨(req.l1Addr p.toRegion).toNat / p.dmaRegionWidth + 1, ?_⟩
          have hdiv := Nat.div_add_mod (req.l1Addr p.toRegion).toNat p.dmaRegionWidth
          rw [Nat.mul_add, Nat.mul_one]
          omega
        refine .working (p.firstBytes req) hfirst hph' hpend' (hreq'.trans hadv) hborder ?_
        have hhanded := hnil.concat (p.firstBytes req) (by omega) (Or.inl rfl)
          (by rw [Nat.add_zero]; omega)
        rw [Nat.zero_add] at hhanded
        have hlist : (r.step p.toSplitParams .eager).handed =
            r.handed ++ [req.part 0 (p.firstBytes req)] := hhand'.trans (by rw [hsub]; rfl)
        rw [hlist, hhand]
        exact hhanded
      · obtain ⟨hph', hpend', hhand'⟩ := step_forward (d := Down.eager) hph hpend hfirst
        refine .finished hph' hpend' ?_
        have hhanded := hnil.concat req.numBytes.toNat (by omega) (Or.inl rfl)
          (by rw [Nat.add_zero]; omega)
        rw [Nat.zero_add, req.part_zero] at hhanded
        have hlist : (r.step p.toSplitParams .eager).handed = r.handed ++ [req] := hhand'
        rw [hlist, hhand]
        exact hhanded
  | working off hoff hph hpend hreg hborder hhand =>
      have hnum : r.mid.req.numBytes.toNat = req.numBytes.toNat - off := by
        rw [hreg]
        exact req.numBytes_part _ (by omega)
      have hmod0 := Nat.mod_eq_zero_of_dvd hborder
      rcases Nat.lt_or_ge p.dmaRegionWidth r.mid.req.numBytes.toNat with hw | hw
      · obtain ⟨hph', hreq', hpend', hhand'⟩ := step_clip (d := Down.eager) hph hpend hw
        have hadv := req.advance_part off p.dmaRegionWidth (by omega)
        have hreq'' : (r.step p.toSplitParams .eager).mid.req =
            req.part (off + p.dmaRegionWidth) (req.numBytes.toNat - (off + p.dmaRegionWidth)) :=
          hreq'.trans (by rw [hreg]; exact hadv)
        have hlist : (r.step p.toSplitParams .eager).handed =
            r.handed ++ [req.part off p.dmaRegionWidth] := hhand'.trans (by rw [hreg]; rfl)
        refine .working (off + p.dmaRegionWidth) (by omega) hph' hpend' hreq'' ?_ ?_
        · rw [← Nat.add_assoc]
          exact Nat.dvd_add hborder (Nat.dvd_refl _)
        · rw [hlist]
          exact hhand.concat p.dmaRegionWidth (by omega) (Or.inr hborder) (by omega)
      · obtain ⟨hph', -, hpend', hhand'⟩ := step_last (d := Down.eager) hph hpend hw
        refine .finished hph' hpend' ?_
        have hlist : (r.step p.toSplitParams .eager).handed =
            r.handed ++ [req.part off (req.numBytes.toNat - off)] :=
          hhand'.trans (by rw [hreg]; rfl)
        have hhanded := hhand.concat (req.numBytes.toNat - off) (by omega)
          (Or.inr hborder) (by omega)
        rw [Nat.add_sub_cancel' (by omega)] at hhanded
        rw [hlist]
        exact hhanded
  | finished hph hpend hhand =>
      obtain ⟨hph', hpend', hhand'⟩ := step_finished (p := p) (d := Down.eager) hph hpend
      exact .finished hph' hpend' (by rw [hhand']; exact hhand)

theorem all_handed (p : SplitConfig) (req : DmaReq) : ∃ t,
    Handed p req (after p.toSplitParams [req] (fun _ => .eager) t).handed
      req.numBytes.toNat := by
  have hcov : ∀ t, Covering p req (after p.toSplitParams [req] (fun _ => Down.eager) t) := by
    intro t
    induction t with
    | zero => exact .waiting rfl rfl rfl
    | succ t ih => exact ih.step
  have hfair : ∀ t, ∃ u, t ≤ u ∧ ((fun _ => Down.eager) u).ready = true :=
    fun t => ⟨t, Nat.le_refl t, rfl⟩
  obtain ⟨t, ht⟩ := eventually_zero
    (fun t => (progress_after p req (fun _ => Down.eager) t).step.le)
    (fun t => (progress_after p req (fun _ => Down.eager) t).step.lt) hfair
  refine ⟨t, ?_⟩
  have ht' : left req (after p.toSplitParams [req] (fun _ => Down.eager) t) = 0 := ht
  cases hcov t with
  | waiting _ hpend _ =>
      simp only [left, hpend] at ht'
      omega
  | working off hoff hph hpend hreg _ _ =>
      have hnum := req.numBytes_part off
        (show req.numBytes.toNat - off < 2 ^ 32 by have := req.numBytes.isLt; omega)
      simp only [left, hpend, hph, hreg, hnum] at ht'
      omega
  | finished _ _ hhand => exact hhand

end SplitRun

/-! ## The cluster -/

namespace L2DmaConfig

variable (c : L2DmaConfig)

def sys : DistConfig := systemConfig c.dma c.tcdmBaseAddr

def grp : DistConfig := groupConfig c.dma c.tcdmBaseAddr

theorem splitWidth_eq : (systemSplit c.dma.toParams c.tcdmBaseAddr).dmaRegionWidth =
    c.sys.dmaRegionWidth * c.sys.noMstPorts := by
  show c.dma.numBanksPerGroup * c.dma.numGroups * 4 =
    c.dma.numBanksPerGroup * 4 * c.dma.numGroups
  ring

def split : SplitConfig where
  toSplitParams := systemSplit c.dma.toParams c.tcdmBaseAddr
  width_pow := by rw [c.splitWidth_eq, c.sys.window_eq, clog2_pow]
  width_fits := by rw [c.splitWidth_eq]; exact c.sys.window_fits

def shaper : ReshaperConfig where
  toReshaperParams := c.reshaper
  width_pow := by
    show c.dma.axiDataWidth = 8 * 2 ^ clog2 (c.dma.axiDataWidth / 8)
    rw [← c.axi_eq]
    exact c.l2.width_pow
  width_le := c.axi_le

theorem region_eq : c.grp.toRegion = c.sys.toRegion := rfl

theorem nested : c.grp.dmaRegionWidth * c.grp.noMstPorts = c.sys.dmaRegionWidth :=
  groupConfig_nested c.dma c.tcdmBaseAddr

theorem strbWidth_eq : c.shaper.strbWidth = c.l2.l2BankBeWidth := by
  show c.dma.axiDataWidth / 8 = c.l2.axiDataWidth / 8
  rw [c.axi_eq]

theorem chunk_eq : c.chunk = 2 ^ (c.l2.eBits + c.l2.iBits) := by
  rw [chunk, c.l2.l2BankBeWidth_eq, c.l2.interleave_eq, ← Nat.pow_add]

theorem stretch_eq : c.stretch = c.dma.dmaBurstLen * c.l2.l2BankBeWidth := by
  have hw := c.dma.wBits_le
  have hbe : c.l2.l2BankBeWidth = 2 ^ (2 + c.dma.wBits) := by
    rw [← c.strbWidth_eq]
    show c.dma.axiDataWidth / 8 = 2 ^ (2 + c.dma.wBits)
    have h := c.dma.words_pow
    rw [Nat.pow_add, show c.dma.wBits = clog2 c.dma.dmaNumWords from rfl]
    omega
  rw [stretch, c.dma.dmaBytes_eq, c.dma.dmaBurstLen_eq, hbe, ← Nat.pow_add]
  congr 1
  omega

/-- The side of the backends that works on the L2. -/
def l2Side (req : DmaReq) : Side := if c.region.contains req.src then .wr else .rd

theorem l2Bursts_eq (req : DmaReq) (down : Nat → Down) (t g d : Nat) (mover : Nat → Mover)
    (u : Nat) : c.l2Bursts req down t g d mover u =
      (ReshapeRun.after c.reshaper (c.backendReqs req down t g d) mover u).axs
        (c.l2Side req) := by
  rw [l2Bursts, l2Side]
  split <;> rfl

theorem addr_l2Side (req : DmaReq) : req.addr (c.l2Side req) = c.l2Addr req := by
  rw [l2Side, l2Addr]
  split <;> rfl

section Transfers

variable {c} {req : DmaReq} (h : c.Transfer req)
include h

theorem Transfer.l1_lt :
    (req.l1Addr c.region).toNat + req.numBytes.toNat ≤ Hw.L2Params.l2MemoryBaseAddr :=
  Nat.le_trans h.l1_le c.l1_below

theorem Transfer.l2_lt : (c.l2Addr req).toNat + req.numBytes.toNat ≤ 2 ^ 32 :=
  Nat.le_trans h.l2_le c.l2.size_fits

theorem Transfer.oneSided : req.OneSided c.region := by
  intro k hk
  have h1 := h.l1_le
  have h2 := h.l2_ge
  have h3 := h.l2_lt
  have hbelow := c.l1_below
  rw [DmaReq.l1Addr] at h1
  rw [l2Addr] at h2 h3
  have hsum : ∀ a : BitVec 32, a.toNat + k < 2 ^ 32 →
      (a + BitVec.ofNat 32 k).toNat = a.toNat + k := by
    intro a ha
    rw [BitVec.toNat_add, BitVec.toNat_ofNat, Nat.add_mod_mod, Nat.mod_eq_of_lt ha]
  have hbase : Hw.L2Params.l2MemoryBaseAddr = 2 ^ 31 := rfl
  cases hin : c.region.contains req.src with
  | true =>
      rw [hin] at h1
      simp only [if_true] at h1
      have hlo : c.tcdmBaseAddr ≤ req.src.toNat := by
        simp only [Region.contains, Bool.and_eq_true, decide_eq_true_eq] at hin
        exact hin.1
      have hge : req.src.toNat + k ≥ c.region.dmaRegionStart := by
        show c.tcdmBaseAddr ≤ req.src.toNat + k
        omega
      have hlt : req.src.toNat + k < c.region.dmaRegionEnd := by
        show req.src.toNat + k < c.tcdmBaseAddr + c.dma.tcdmSize
        omega
      rw [Region.contains, hsum _ (by omega), decide_eq_true hge, decide_eq_true hlt]
      rfl
  | false =>
      rw [hin] at h2 h3
      simp only [Bool.false_eq_true, if_false] at h2 h3
      rw [Region.contains, hsum _ (by omega)]
      have hout : ¬req.src.toNat + k < c.region.dmaRegionEnd := by
        show ¬req.src.toNat + k < c.tcdmBaseAddr + c.dma.tcdmSize
        omega
      rw [decide_eq_false hout, Bool.and_false]

theorem Transfer.noWrap (side : Side) : req.NoWrap side := by
  have h1 := h.l1_lt
  have h2 := h.l2_lt
  have hbase : Hw.L2Params.l2MemoryBaseAddr = 2 ^ 31 := rfl
  rw [DmaReq.l1Addr] at h1
  rw [l2Addr] at h2
  rw [DmaReq.NoWrap]
  cases hin : c.region.contains req.src <;> cases side <;>
    simp only [hin, if_true, Bool.false_eq_true, if_false] at h1 h2 <;>
    simp only [DmaReq.addr] <;> omega

theorem Transfer.toNat_l1Addr_part {off len : Nat} (hoff : off < req.numBytes.toNat) :
    ((req.part off len).l1Addr c.region).toNat = (req.l1Addr c.region).toNat + off := by
  have h1 := h.l1_lt
  have hbase : Hw.L2Params.l2MemoryBaseAddr = 2 ^ 31 := rfl
  rw [DmaReq.l1Addr_part h.oneSided hoff, BitVec.toNat_add, BitVec.toNat_ofNat,
    Nat.add_mod_mod, Nat.mod_eq_of_lt (by omega)]

theorem Transfer.toNat_addr_part {off len : Nat} (hoff : off < req.numBytes.toNat)
    (side : Side) : ((req.part off len).addr side).toNat = (req.addr side).toNat + off := by
  have hw : (req.addr side).toNat + req.numBytes.toNat ≤ 2 ^ 32 := h.noWrap side
  have hsum : (req.addr side + BitVec.ofNat 32 off).toNat = (req.addr side).toNat + off := by
    rw [BitVec.toNat_add, BitVec.toNat_ofNat, Nat.add_mod_mod, Nat.mod_eq_of_lt (by omega)]
  cases side <;> exact hsum

omit h in
/-- The distributed midend of the system can deal with what the split midend hands
over, even where that crosses a window. -/
theorem sub_under {sub : DmaReq} {off len : Nat}
    (hsub : SplitRun.SubPart c.split req sub off len) :
    c.sys.l1Offset sub + sub.numBytes.toNat <
      2 * (c.sys.dmaRegionWidth * c.sys.noMstPorts) := by
  have hshort : len ≤ c.sys.dmaRegionWidth * c.sys.noMstPorts := by
    rw [← c.splitWidth_eq]
    exact hsub.short
  have hnum : sub.numBytes.toNat = len := by
    rw [hsub.eq]
    exact req.numBytes_part _ (by have := req.numBytes.isLt; have := hsub.inside; omega)
  have hmod : c.sys.l1Offset sub < c.sys.dmaRegionWidth * c.sys.noMstPorts :=
    Nat.mod_lt _ (by have := hsub.nonempty; omega)
  omega

/-- Every request of a backend is a piece of the transfer. -/
theorem Transfer.backend_piece {down : Nat → Down} {t g d : Nat}
    (hg : g < c.dma.numGroups) (hd : d < c.dma.numDmasPerGroup) {r : DmaReq}
    (hr : r ∈ c.backendReqs req down t g d) :
    ∃ off len, Piece c.region c.stretch req r off len := by
  obtain ⟨sub, hsub, hback⟩ := List.mem_filterMap.mp hr
  obtain ⟨o1, l1, hpart⟩ := SplitRun.subPart_after c.split h.nonempty down t sub hsub
  have hn1 := hpart.nonempty
  have hin1 := hpart.inside
  have h32 := req.numBytes.isLt
  have hund := sub_under hpart
  have hback' : backendReq c.sys.toDistParams c.grp.toDistParams sub g d = some r := hback
  obtain ⟨hv, hv', rfl⟩ := DistConfig.backendReq_eq_some hback'
  have hnum : sub.numBytes.toNat = l1 := by
    rw [hpart.eq]
    exact req.numBytes_part _ (by omega)
  have hside : sub.OneSided c.region := by
    rw [hpart.eq]
    exact DmaReq.oneSided_part h.oneSided hin1
  obtain ⟨o2, l2, hsys⟩ := DistConfig.piece_portReq (p := c.sys) (by omega) hund hg hv
  have hslice := DistConfig.groupSlice c.region_eq c.nested (by omega) hund hside hg hv
  obtain ⟨o3, l3, hgrp⟩ := DistConfig.piece_portReq (p := c.grp) hslice.nonempty
    (DistConfig.under_of_inside hslice.inside) hd hv'
  have hin2 := hsys.inside
  have hn3 := hgrp.nonempty
  have hin3 := hgrp.inside
  -- the slice of the group, as a part of the transfer
  have heq2 : c.sys.portReq sub g = req.part (o1 + o2) l2 := by
    rw [hsys.eq, hpart.eq, DmaReq.part_part]
  have hnum2 : (c.sys.portReq sub g).numBytes.toNat = l2 := by
    rw [heq2]
    exact req.numBytes_part _ (by omega)
  refine ⟨o1 + o2 + o3, l3, ?_, hn3, by omega, ?_⟩
  · have heq3 := hgrp.eq
    rw [heq2, DmaReq.part_part] at heq3
    rw [heq2]
    exact heq3
  · intro j hlo hhi hdvd
    refine hgrp.free (j - (o1 + o2)) (by omega) (by omega) ?_
    have haddr : ((c.sys.portReq sub g).l1Addr c.grp.toRegion).toNat =
        (req.l1Addr c.region).toNat + (o1 + o2) := by
      rw [heq2]
      exact h.toNat_l1Addr_part (by omega)
    rw [haddr, show (req.l1Addr c.region).toNat + (o1 + o2) + (j - (o1 + o2)) =
      (req.l1Addr c.region).toNat + j by omega]
    exact hdvd

theorem Transfer.accepted (hdec : req.Decoupled) {down : Nat → Down} {t g d : Nat}
    (hg : g < c.dma.numGroups) (hd : d < c.dma.numDmasPerGroup) :
    ReshapeRun.Accepted (c.backendReqs req down t g d) := by
  have h32 := req.numBytes.isLt
  constructor
  · intro r hr
    obtain ⟨off, len, hp⟩ := h.backend_piece hg hd hr
    rw [hp.eq]
    refine ⟨hdec.decouple, hdec.burstMode, fun side => ?_⟩
    cases side
    · exact hdec.incr .rd
    · exact hdec.incr .wr
  · intro r hr side
    obtain ⟨off, len, hp⟩ := h.backend_piece hg hd hr
    have hin := hp.inside
    have hn := hp.nonempty
    have hw : (req.addr side).toNat + req.numBytes.toNat ≤ 2 ^ 32 := h.noWrap side
    rw [DmaReq.NoWrap, hp.eq, h.toNat_addr_part (by omega),
      req.numBytes_part _ (by omega)]
    omega

end Transfers

/-! ## Inside and across chunks -/

/-- A run of bytes that ends with its page has no page border inside. -/
theorem not_dvd_inside {P x l z : Nat} (hpage : x % P + l ≤ P) (hlo : x < z) (hhi : z < x + l) :
    ¬P ∣ z := by
  intro hdvd
  have hz : z % P = x % P + (z - x) := by
    rw [show z = x + (z - x) by omega, Nat.add_mod, Nat.mod_eq_of_lt (show z - x < P by omega),
      Nat.mod_eq_of_lt (by omega)]
    omega
  have h0 := Nat.mod_eq_zero_of_dvd hdvd
  omega

theorem beat_dvd_base : c.l2.l2BankBeWidth ∣ Hw.L2Params.l2MemoryBaseAddr := by
  have hl := c.l2.lBits_eq
  have h31 := c.l2.lBits_le
  rw [c.l2.l2BankBeWidth_eq, show Hw.L2Params.l2MemoryBaseAddr = 2 ^ 31 from rfl]
  exact Nat.pow_dvd_pow 2 (by omega)

theorem chunk_dvd_base : c.chunk ∣ Hw.L2Params.l2MemoryBaseAddr := by
  have hl := c.l2.lBits_eq
  have h31 := c.l2.lBits_le
  rw [c.chunk_eq, show Hw.L2Params.l2MemoryBaseAddr = 2 ^ 31 from rfl]
  exact Nat.pow_dvd_pow 2 (by omega)

theorem page_dvd_window : c.shaper.pageSize ∣ 0x90000000 :=
  Nat.dvd_trans c.shaper.pageSize_dvd (by decide)

/-- A multiple of the beat above an address is above the beat of that address. -/
theorem beat_le_of_lt {e x z : Nat} (he : 0 < e) (hdvd : e ∣ z) (hlt : x - x % e < z) :
    x < z := by
  obtain ⟨q, rfl⟩ := hdvd
  have hdiv := Nat.div_add_mod x e
  have hmod := Nat.mod_lt x he
  have hq : x / e < q := by
    by_contra hge
    have := Nat.mul_le_mul_left e (Nat.le_of_not_lt hge)
    omega
  have hmul := Nat.mul_le_mul_left e hq
  rw [Nat.mul_succ] at hmul
  omega

/-- A burst none of whose inner chunk borders lies in the window of the
interleaver arrives in one piece. -/
theorem lands_of_no_border {s l : Nat} {addr : Nat} (hs : Hw.L2Params.l2MemoryBaseAddr ≤ s)
    (hl : 1 ≤ l) (htop : s + l ≤ Hw.L2Params.l2MemoryBaseAddr + c.l2.l2Size)
    (hpage : s % c.shaper.pageSize + l ≤ c.shaper.pageSize)
    (haddr : addr = s - s % c.l2.l2BankBeWidth)
    (hfree : ∀ z, s < z → z < s + l → c.chunk ∣ z → 0x90000000 ≤ z) {k : Nat}
    (hk : k ≤ (s % c.l2.l2BankBeWidth + l - 1) / c.l2.l2BankBeWidth) :
    c.l2.interleaveAddr addr + k * c.l2.l2BankBeWidth =
      c.l2.interleaveAddr (addr + k * c.l2.l2BankBeWidth) := by
  have he : 0 < c.l2.l2BankBeWidth := by
    rw [c.l2.l2BankBeWidth_eq]
    exact Nat.two_pow_pos _
  have hbeat := Nat.mod_lt s he
  have hsmod := Nat.mod_le s c.l2.l2BankBeWidth
  have hlast : k * c.l2.l2BankBeWidth ≤ s % c.l2.l2BankBeWidth + l - 1 :=
    (Nat.le_div_iff_mul_le he).mp hk
  -- the burst starts at or above the base, which is a beat border
  have hlo : Hw.L2Params.l2MemoryBaseAddr ≤ addr := by
    by_contra hlt
    have := beat_le_of_lt he c.beat_dvd_base (by rw [← haddr]; omega : s - _ < _)
    omega
  have hbase : Hw.L2Params.l2MemoryBaseAddr = 2 ^ 31 := rfl
  obtain ⟨x, hx⟩ : ∃ x, addr = Hw.L2Params.l2MemoryBaseAddr + x :=
    ⟨_, (Nat.add_sub_cancel' hlo).symm⟩
  rw [c.l2.l2Size_eq] at htop
  rcases Nat.lt_or_ge (addr + k * c.l2.l2BankBeWidth) 0x90000000 with hin | hout
  · -- both ends in the window: a chunk border between them would be inside the burst
    have hchunk : x / c.chunk = (x + k * c.l2.l2BankBeWidth) / c.chunk := by
      by_contra hne
      have hle : x / c.chunk ≤ (x + k * c.l2.l2BankBeWidth) / c.chunk :=
        Nat.div_le_div_right (Nat.le_add_right _ _)
      have hcpos : 0 < c.chunk := by
        rw [c.chunk_eq]
        exact Nat.two_pow_pos _
      have hdx := Nat.div_add_mod x c.chunk
      have hmx := Nat.mod_lt x hcpos
      have hdy := Nat.div_add_mod (x + k * c.l2.l2BankBeWidth) c.chunk
      have hborder : c.chunk * (x / c.chunk + 1) ≤ x + k * c.l2.l2BankBeWidth := by
        have := Nat.mul_le_mul_left c.chunk (show x / c.chunk + 1 ≤
          (x + k * c.l2.l2BankBeWidth) / c.chunk by omega)
        omega
      have habove : x < c.chunk * (x / c.chunk + 1) := by
        rw [Nat.mul_add, Nat.mul_one]
        omega
      have hdvd : c.chunk ∣ Hw.L2Params.l2MemoryBaseAddr + c.chunk * (x / c.chunk + 1) :=
        Nat.dvd_add c.chunk_dvd_base (Nat.dvd_mul_right _ _)
      have hover := beat_le_of_lt (z := Hw.L2Params.l2MemoryBaseAddr +
        c.chunk * (x / c.chunk + 1)) he
        (Nat.dvd_trans (Nat.dvd_mul_right _ _) hdvd)
        (show s - s % c.l2.l2BankBeWidth < _ by omega)
      have := hfree _ hover (by omega) hdvd
      omega
    rw [hx] at hin ⊢
    rw [c.chunk_eq] at hchunk
    have hsame := Hw.L2Config.interleaveAddr_same_chunk
      (y := x + k * c.l2.l2BankBeWidth) (by omega) (by omega) (Nat.le_add_right _ _) hchunk
    rw [Nat.add_sub_cancel_left] at hsame
    rw [hsame, Nat.add_assoc]
  · -- the end of the window is a page border, so the burst starts past it too
    have hstart : 0x90000000 ≤ addr := by
      by_contra hlt
      have hs9 : s < 0x90000000 :=
        beat_le_of_lt he (Nat.dvd_trans (by rw [← c.strbWidth_eq]; exact c.shaper.strbWidth_dvd)
          c.page_dvd_window) (by omega)
      exact not_dvd_inside hpage hs9 (by omega) c.page_dvd_window
    rw [hx] at hstart hout ⊢
    rw [c.l2.interleaveAddr_of_ge (by omega), Nat.add_assoc,
      c.l2.interleaveAddr_of_ge (by omega)]

/-- Every chunk border inside the L2 side of the transfer, as far as the window of
the interleaver reaches, is a page border or lies where the L1 side passes from
one stretch to the next. -/
def BordersMeet (req : DmaReq) : Prop :=
  ∀ j, 0 < j → j < req.numBytes.toNat → c.chunk ∣ (c.l2Addr req).toNat + j →
    (c.l2Addr req).toNat + j < 0x90000000 →
    c.reshaper.pageSize ∣ (c.l2Addr req).toNat + j ∨
      c.stretch ∣ (req.l1Addr c.region).toNat + j

section Lands

variable {c} {req : DmaReq}

/-- Single beats land. -/
theorem lands_of_splitter (hsplit : c.dma.dmaBurstLen > c.l2.interleave) (ax : AxDesc) :
    c.Lands ax := by
  intro b hb k hk
  rw [toInterleaver, if_pos hsplit] at hb
  obtain ⟨i, -, rfl⟩ := List.mem_map.mp hb
  have hk0 : k = 0 := Nat.le_zero.mp hk
  rw [hk0, Nat.zero_mul]
  rfl

/-- The L2 side of a piece, in the addresses of the transfer. -/
theorem Transfer.toNat_l2_part (h : c.Transfer req) {off len : Nat}
    (hoff : off < req.numBytes.toNat) :
    ((req.part off len).addr (c.l2Side req)).toNat = (c.l2Addr req).toNat + off := by
  rw [h.toNat_addr_part hoff, c.addr_l2Side]

theorem Transfer.lands (h : c.Transfer req) (hmeet : c.BordersMeet req) {r : DmaReq}
    {off len : Nat} (hp : Piece c.region c.stretch req r off len) {ax : AxDesc} {o l : Nat}
    (hcut : Cut c.reshaper r (c.l2Side req) ax o l) : c.Lands ax := by
  by_cases hsplit : c.dma.dmaBurstLen > c.l2.interleave
  · exact lands_of_splitter hsplit ax
  have h32 := req.numBytes.isLt
  have hin := hp.inside
  have hn := hp.nonempty
  have haddr := @Transfer.toNat_l2_part c req h off len (by omega)
  have hnum : (req.part off len).numBytes.toNat = len := req.numBytes_part _ (by omega)
  have hl2 := h.l2_le
  have hge := h.l2_ge
  rw [hp.eq] at hcut
  have hcin := hcut.inside
  rw [hnum] at hcin
  have hcpage := hcut.page
  have hcaddr := hcut.addr
  have hcbeats := hcut.beats
  have hcn := hcut.nonempty
  have hstrb : c.reshaper.strbWidth = c.l2.l2BankBeWidth := c.strbWidth_eq
  rw [haddr, hstrb] at hcaddr hcbeats
  rw [haddr] at hcpage
  intro b hb k hk
  rw [toInterleaver, if_neg hsplit] at hb
  rw [List.mem_singleton.mp hb] at hk ⊢
  simp only [hcbeats] at hk
  refine c.lands_of_no_border (s := (c.l2Addr req).toNat + off + o) (l := l) (by omega) hcn
    (by omega) hcpage hcaddr ?_ hk
  -- a border inside the burst is inside the piece and inside the page
  intro z hlo hhi hdvd
  by_contra hz
  have hzj : z = (c.l2Addr req).toNat + (z - (c.l2Addr req).toNat) := by omega
  rw [hzj] at hdvd hz
  rcases hmeet (z - (c.l2Addr req).toNat) (by omega) (by omega) hdvd (by omega)
    with hpage | hstretch
  · rw [← hzj] at hpage
    exact not_dvd_inside hcpage hlo hhi hpage
  · exact hp.free _ (by omega) (by omega) hstretch

/-- A byte that starts no stretch reaches its backend together with the byte before
it, in a request no longer than a stretch. -/
theorem Transfer.exists_backend (h : c.Transfer req) {j : Nat} (hpos : 0 < j)
    (hj : j < req.numBytes.toNat) (hstretch : ¬c.stretch ∣ (req.l1Addr c.region).toNat + j) :
    ∃ t, ∃ g < c.dma.numGroups, ∃ d < c.dma.numDmasPerGroup, ∃ off len,
      req.part off len ∈ c.backendReqs req (fun _ => .eager) t g d ∧
      off < j ∧ j < off + len ∧ off + len ≤ req.numBytes.toNat ∧ len ≤ c.stretch := by
  have h32 := req.numBytes.isLt
  obtain ⟨t, hall⟩ := SplitRun.all_handed c.split req
  obtain ⟨o1, l1, hsub, hlo1, hhi1, hin1, hstart1, hfit1⟩ := hall j hj
  have hnum1 : (req.part o1 l1).numBytes.toNat = l1 := req.numBytes_part _ (by omega)
  have haddr1 := @Transfer.toNat_l1Addr_part c req h o1 l1 (by omega)
  have hside1 : (req.part o1 l1).OneSided c.sys.toRegion :=
    DmaReq.oneSided_part h.oneSided hin1
  have hwin1 : c.sys.l1Offset (req.part o1 l1) + (req.part o1 l1).numBytes.toNat ≤
      c.sys.dmaRegionWidth * c.sys.noMstPorts := by
    have hoff : c.sys.l1Offset (req.part o1 l1) =
        ((req.l1Addr c.region).toNat + o1) % c.split.dmaRegionWidth := by
      rw [← haddr1, show c.split.dmaRegionWidth = c.sys.dmaRegionWidth * c.sys.noMstPorts from
        c.splitWidth_eq]
      rfl
    rw [hoff, hnum1, ← c.splitWidth_eq]
    exact hfit1
  obtain ⟨g, hg, hv, o2, l2, heq2, hlo2, hhi2, hin2, -, hstart2⟩ :=
    DistConfig.exists_portReq (p := c.sys) (j := j - o1) (by omega) hwin1 (by omega)
  rw [hnum1] at hin2
  have hslice := DistConfig.groupSlice c.region_eq c.nested (by omega)
    (DistConfig.under_of_inside hwin1) hside1 hg hv
  rw [DmaReq.part_part] at heq2
  have hnum2 : (req.part (o1 + o2) l2).numBytes.toNat = l2 := req.numBytes_part _ (by omega)
  have haddr2 := @Transfer.toNat_l1Addr_part c req h (o1 + o2) l2 (by omega)
  have hwin2 := hslice.inside
  have hn2 := hslice.nonempty
  rw [heq2] at hwin2 hn2
  obtain ⟨d, hd, hv', o3, l3, heq3, hlo3, hhi3, hin3, hlen3, hstart3⟩ :=
    DistConfig.exists_portReq (p := c.grp) (j := j - (o1 + o2)) hn2 hwin2 (by omega)
  rw [DmaReq.part_part] at heq3
  rw [hnum2] at hin3
  refine ⟨t, g, hg, d, hd, o1 + o2 + o3, l3, ?_, ?_, by omega, by omega, hlen3⟩
  · refine List.mem_filterMap.mpr ⟨_, hsub, ?_⟩
    show (c.sys.portOut (req.part o1 l1) g).bind (fun groupReq => c.grp.portOut groupReq d) = _
    rw [DistParams.portOut, if_pos hv, heq2, Option.bind_some, DistParams.portOut,
      if_pos hv', heq3]
  · -- each level cuts at the start or on a border, and a border is a stretch border
    have hdvd_sys : c.stretch ∣ c.sys.dmaRegionWidth := ⟨_, c.nested.symm⟩
    have hdvd_split : c.stretch ∣ c.split.dmaRegionWidth := by
      rw [show c.split.dmaRegionWidth = c.sys.dmaRegionWidth * c.sys.noMstPorts from
        c.splitWidth_eq]
      exact Nat.dvd_trans hdvd_sys (Nat.dvd_mul_right _ _)
    have hstart2' : o2 = 0 ∨ c.sys.dmaRegionWidth ∣ (req.l1Addr c.region).toNat + o1 + o2 := by
      rw [← haddr1]
      exact hstart2
    have hstart3' : o3 = 0 ∨
        c.stretch ∣ (req.l1Addr c.region).toNat + (o1 + o2) + o3 := by
      rw [← haddr2]
      exact hstart3
    by_contra hge
    have hsum : o1 + o2 + o3 = j := by omega
    refine hstretch ?_
    rw [← hsum]
    rcases hstart3' with h3 | h3
    · rcases hstart2' with h2 | h2
      · rcases hstart1 with h1 | h1
        · omega
        · rw [h3, h2, Nat.add_zero]
          exact Nat.dvd_trans hdvd_split h1
      · rw [h3, Nat.add_zero, ← Nat.add_assoc]
        exact Nat.dvd_trans hdvd_sys h2
    · rw [← Nat.add_assoc]
      exact h3

/-- Without the splitter, a chunk border that no cut falls on is inside a burst, and
the beat at the border does not land. -/
theorem Transfer.exists_misplaced (h : c.Transfer req) (hdec : req.Decoupled)
    (hsplit : ¬c.dma.dmaBurstLen > c.l2.interleave) {j : Nat} (hpos : 0 < j)
    (hj : j < req.numBytes.toNat) (hborder : c.chunk ∣ (c.l2Addr req).toNat + j)
    (hwin : (c.l2Addr req).toNat + j < 0x90000000)
    (hpage : ¬c.reshaper.pageSize ∣ (c.l2Addr req).toNat + j)
    (hstretch : ¬c.stretch ∣ (req.l1Addr c.region).toNat + j) :
    ∃ t, ∃ g < c.dma.numGroups, ∃ d < c.dma.numDmasPerGroup, ∃ u,
      ∃ ax ∈ c.l2Bursts req (fun _ => .eager) t g d (fun _ => .eager) u, ¬c.Lands ax := by
  have h32 := req.numBytes.isLt
  obtain ⟨t, g, hg, d, hd, off, len, hmem, hlo, hhi, hin, hlen⟩ :=
    h.exists_backend hpos hj hstretch
  obtain ⟨u, hsent⟩ := ReshapeRun.all_sent (p := c.shaper) (h.accepted hdec hg hd)
  have hnum : (req.part off len).numBytes.toNat = len := req.numBytes_part _ (by omega)
  have haddr := @Transfer.toNat_l2_part c req h off len (by omega)
  obtain ⟨ax, hax, o, l, hcut, holo, hohi⟩ :=
    hsent _ hmem (c.l2Side req) (j - off) (by omega)
  refine ⟨t, g, hg, d, hd, u, ax, by rw [c.l2Bursts_eq]; exact hax, fun hlands => ?_⟩
  have hl2 := h.l2_le
  have hge := h.l2_ge
  have hstrb : c.shaper.strbWidth = c.l2.l2BankBeWidth := c.strbWidth_eq
  have he : 0 < c.l2.l2BankBeWidth := by
    rw [← hstrb]
    exact c.shaper.strbWidth_pos
  have hcaddr := hcut.addr
  have hcbeats := hcut.beats
  rw [haddr, hstrb] at hcaddr hcbeats
  -- the burst starts strictly before the border
  have hstrict : off + o < j := by
    rcases hcut.starts with h0 | hdvd
    · omega
    · by_contra hnot
      refine hpage ?_
      rw [haddr, Nat.add_assoc, show off + o = j by omega] at hdvd
      exact hdvd
  obtain ⟨s, hs⟩ : ∃ s, s = (c.l2Addr req).toNat + off + o := ⟨_, rfl⟩
  rw [← hs] at hcaddr hcbeats
  have hsmod := Nat.mod_lt s he
  have hmodle := Nat.mod_le s c.l2.l2BankBeWidth
  have hbeat_dvd : c.l2.l2BankBeWidth ∣ (c.l2Addr req).toNat + j :=
    Nat.dvd_trans (Nat.dvd_mul_right _ _) hborder
  have hdist_dvd : c.l2.l2BankBeWidth ∣ (c.l2Addr req).toNat + j - ax.addr.toNat := by
    refine Nat.dvd_sub hbeat_dvd ?_
    rw [hcaddr]
    exact Nat.dvd_sub_mod s
  obtain ⟨k, hk⟩ := hdist_dvd
  have hkle : k ≤ ax.len.toNat := by
    rw [hcbeats, Nat.le_div_iff_mul_le he, Nat.mul_comm, ← hk]
    omega
  have hland := hlands (ax.addr.toNat, ax.len.toNat)
    (by rw [toInterleaver, if_neg hsplit]; exact List.mem_singleton_self _) k hkle
  rw [Nat.mul_comm k, ← hk] at hland
  simp only at hland
  rw [Nat.add_sub_cancel' (by omega)] at hland
  -- both ends in the addresses of the L2
  have hshort : c.stretch ≤ c.chunk := by
    rw [c.stretch_eq, chunk, Nat.mul_comm]
    exact Nat.mul_le_mul_left _ (Nat.le_of_not_lt hsplit)
  have hcpos : 0 < c.chunk := by
    rw [c.chunk_eq]
    exact Nat.two_pow_pos _
  have hbase_le : Hw.L2Params.l2MemoryBaseAddr ≤ ax.addr.toNat := by
    by_contra hlt
    have := beat_le_of_lt he c.beat_dvd_base (by rw [← hcaddr]; omega : s - _ < _)
    omega
  obtain ⟨x, hx⟩ : ∃ x, ax.addr.toNat = Hw.L2Params.l2MemoryBaseAddr + x :=
    ⟨_, (Nat.add_sub_cancel' hbase_le).symm⟩
  obtain ⟨y, hy⟩ : ∃ y, (c.l2Addr req).toNat + j = Hw.L2Params.l2MemoryBaseAddr + y :=
    ⟨(c.l2Addr req).toNat + j - Hw.L2Params.l2MemoryBaseAddr, by omega⟩
  have hydvd : c.chunk ∣ y := by
    have := Nat.dvd_sub hborder c.chunk_dvd_base
    rw [hy, Nat.add_sub_cancel_left] at this
    exact this
  have hbase : Hw.L2Params.l2MemoryBaseAddr = 2 ^ 31 := rfl
  have hxy : x < y := by omega
  -- the burst starts in the chunk right before the border
  have hprev : y ≤ x + c.chunk := by
    obtain ⟨q, hq⟩ := hydvd
    have hbelow : Hw.L2Params.l2MemoryBaseAddr + y - c.chunk ≤ s := by omega
    by_contra hlt
    have hdvd : c.l2.l2BankBeWidth ∣ Hw.L2Params.l2MemoryBaseAddr + y - c.chunk := by
      rw [← hy]
      exact Nat.dvd_sub hbeat_dvd (Nat.dvd_mul_right _ _)
    have := beat_le_of_lt he hdvd (by rw [← hcaddr]; omega : s - _ < _)
    omega
  have hchunks : x / c.chunk + 1 = y / c.chunk := by
    obtain ⟨q, hq⟩ := hydvd
    have hq1 : 1 ≤ q := by
      by_contra h0
      rw [show q = 0 by omega, Nat.mul_zero] at hq
      omega
    obtain ⟨q', rfl⟩ : ∃ q', q = q' + 1 := ⟨q - 1, by omega⟩
    rw [hq, Nat.mul_div_cancel_left _ hcpos]
    rw [Nat.mul_add, Nat.mul_one] at hq
    congr 1
    refine Nat.div_eq_of_lt_le ?_ ?_
    · rw [Nat.mul_comm]
      omega
    · rw [Nat.mul_comm, Nat.mul_add, Nat.mul_one]
      omega
  rw [c.l2.l2Size_eq] at hl2
  rw [c.chunk_eq] at hchunks hydvd
  rw [hx, hy, Nat.add_sub_add_left] at hland
  exact Hw.L2Config.interleaveAddr_next_chunk (by omega) (by omega) hxy hchunks hydvd hland

end Lands

theorem decoupled_burstReq (s : FrontendState) : s.burstReq.Decoupled :=
  ⟨rfl, rfl, fun side => by cases side <;> rfl⟩

/-- Every beat of every burst a transfer causes lands in the storage of its own
address, whatever the back-pressure, exactly if the configuration has the burst
splitter or the borders of the transfer meet. -/
theorem bursts_land_iff (s : FrontendState) (h : c.Transfer s.burstReq) :
    (∀ (down : Nat → Down) (t : Nat), ∀ g < c.dma.numGroups, ∀ d < c.dma.numDmasPerGroup,
      ∀ (mover : Nat → Mover) (u : Nat),
        ∀ ax ∈ c.l2Bursts s.burstReq down t g d mover u, c.Lands ax) ↔
      c.dma.dmaBurstLen > c.l2.interleave ∨ c.BordersMeet s.burstReq := by
  constructor
  · intro hlands
    by_contra hnot
    obtain ⟨hsplit, hmeet⟩ := not_or.mp hnot
    rw [BordersMeet] at hmeet
    push Not at hmeet
    obtain ⟨j, hpos, hj, hborder, hwin, hpage, hstretch⟩ := hmeet
    obtain ⟨t, g, hg, d, hd, u, ax, hax, hmis⟩ := h.exists_misplaced
      (decoupled_burstReq s) hsplit hpos hj hborder hwin hpage hstretch
    exact hmis (hlands _ t g hg d hd _ u ax hax)
  · intro hcond down t g hg d hd mover u ax hax
    rcases hcond with hsplit | hmeet
    · exact lands_of_splitter hsplit ax
    · rw [c.l2Bursts_eq] at hax
      have hacc : ReshapeRun.Accepted (c.backendReqs s.burstReq down t g d) :=
        h.accepted (decoupled_burstReq s) hg hd
      have hinv := ReshapeRun.inv_after (p := c.shaper) hacc mover u
      obtain ⟨r, hr, o, l, hcut⟩ := hinv.sent _ ax hax
      obtain ⟨off, len, hp⟩ := h.backend_piece hg hd hr
      exact h.lands hmeet hp hcut

/-! ## On minpool

Stretches and chunks are 64 bytes long, and there is no splitter. -/

/-- The L2 of `config/minpool.mk`. -/
def minpoolL2 : Hw.L2Config where
  l2Size := 4194304
  numL2Banks := 4
  axiDataWidth := 256
  interleave := 2
  size_pow := Hw.mempoolL2.size_pow
  banks_pow := Hw.mempoolL2.banks_pow
  width_pow := (congrArg (8 * 2 ^ ·) (clog2_pow 5)).symm
  interleave_pow := (congrArg (2 ^ ·) (clog2_pow 1)).symm
  banks_two := Hw.mempoolL2.banks_two
  chunks_lt := by decide
  size_fits := Hw.mempoolL2.size_fits

def minpoolL2Dma : L2DmaConfig where
  dma := Hw.minpool true true
  l2 := minpoolL2
  tcdmBaseAddr := 0
  axi_eq := rfl
  axi_le := by decide
  l1_below := by decide

/-- A transfer of `n` bytes from offset `off` of the L2 to the start of the L1. -/
def loadTransfer (off n : BitVec 32) : FrontendState :=
  { FrontendState.reset with srcAddr := 0x80000000#32 + off, dstAddr := 0#32, numBytes := n }

def crossingBurst : AxDesc where
  id := 0
  last := true
  addr := 0x80000020#32
  len := 1
  size := 5
  burst := burstIncr
  cache := 0b0010

/-- Two bytes around the first chunk border: one burst of two beats, of which the
second lands behind the first chunk of bank 0 and belongs to bank 1. -/
theorem minpool_burst_crosses :
    minpoolL2Dma.Transfer (loadTransfer 63 2).burstReq ∧
    minpoolL2Dma.l2Bursts (loadTransfer 63 2).burstReq (fun _ => .eager) 1 0 0
      (fun _ => .eager) 2 = [crossingBurst] ∧
    ¬minpoolL2Dma.Lands crossingBurst := by
  refine ⟨⟨by decide +kernel, by decide +kernel, by decide +kernel, by decide +kernel,
    by decide +kernel⟩, by decide +kernel, fun hlands => ?_⟩
  have hsplit : ¬minpoolL2Dma.dma.dmaBurstLen > minpoolL2Dma.l2.interleave := by
    decide +kernel
  have hbeat := hlands (crossingBurst.addr.toNat, crossingBurst.len.toNat)
    (by rw [toInterleaver, if_neg hsplit]; exact List.mem_singleton_self _) 1 (by decide)
  exact absurd hbeat (by decide +kernel)

/-- Two whole chunks, aligned on both sides. -/
theorem bursts_land_iff_minpool :
    minpoolL2Dma.Transfer (loadTransfer 0 128).burstReq ∧
    (∀ (down : Nat → Down) (t : Nat), ∀ g < minpoolL2Dma.dma.numGroups,
      ∀ d < minpoolL2Dma.dma.numDmasPerGroup, ∀ (mover : Nat → Mover) (u : Nat),
        ∀ ax ∈ minpoolL2Dma.l2Bursts (loadTransfer 0 128).burstReq down t g d mover u,
          minpoolL2Dma.Lands ax) := by
  have htransfer : minpoolL2Dma.Transfer (loadTransfer 0 128).burstReq :=
    ⟨by decide +kernel, by decide +kernel, by decide +kernel, by decide +kernel,
      by decide +kernel⟩
  refine ⟨htransfer, (bursts_land_iff minpoolL2Dma _ htransfer).mpr (Or.inr ?_)⟩
  -- the only chunk border inside is also a stretch border
  have hmeet : ∀ j < 128, 0 < j → minpoolL2Dma.chunk ∣ 0x80000000 + j →
      minpoolL2Dma.stretch ∣ 0 + j := by decide +kernel
  intro j hpos hj hborder _
  exact Or.inr (hmeet j hj hpos hborder)

end L2DmaConfig

end TeraNoC.Dma
