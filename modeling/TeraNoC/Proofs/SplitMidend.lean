import TeraNoC.Dma.SplitMidend
import TeraNoC.Lib.Progress

/-!
# What the split midend hands over

Two invariants of a run on one request, kept apart because only one of them
always holds. `Progress` says that what has been handed over is a beginning of
the transfer and that the register holds the rest; it holds whatever the
downstream does, and its measure runs out as long as downstream keeps taking
sub-requests, so the copy is always exact and complete.

`Fitting` says that no sub-request crosses a window border. It needs the
register to start on a border whenever the machine is busy. The first
sub-request, which ends on one, is only offered for the single cycle in which
the request is acknowledged: if downstream is not ready in that cycle, the
request is stored whole, and `Busy` cuts it from where it starts. That is the
one way into a crossing, and `split_midend_exact` says so.
-/

namespace TeraNoC.Dma

open TeraNoC.Lib

/-- A power-of-two window inside the 32-bit address space. -/
structure SplitConfig extends SplitParams where
  width_pow : dmaRegionWidth = 2 ^ clog2 dmaRegionWidth
  width_fits : dmaRegionWidth < 2 ^ 32

/-- The address of a sub-request on the side that is the L1 side of `req`. -/
def DmaReq.sideAddr (rg : Region) (req sub : DmaReq) : BitVec 32 :=
  if rg.contains req.src then sub.src else sub.dst

theorem DmaReq.advance_part (req : DmaReq) (off k : Nat) (hk : off + k ≤ req.numBytes.toNat) :
    (req.part off (req.numBytes.toNat - off)).advance k
      = req.part (off + k) (req.numBytes.toNat - (off + k)) := by
  have hn := req.numBytes.isLt
  have hnum : BitVec.ofNat 32 (req.numBytes.toNat - off) - BitVec.ofNat 32 k
      = BitVec.ofNat 32 (req.numBytes.toNat - (off + k)) := by
    have hsum : req.numBytes.toNat - off = req.numBytes.toNat - (off + k) + k := by omega
    rw [hsum, BitVec.ofNat_add, BitVec.add_sub_cancel]
  rw [DmaReq.advance, DmaReq.part, DmaReq.part]
  simp only [hnum, BitVec.add_assoc, BitVec.ofNat_add]

theorem DmaReq.numBytes_part (req : DmaReq) (off : Nat) {len : Nat} (hlen : len < 2 ^ 32) :
    (req.part off len).numBytes.toNat = len := by
  rw [DmaReq.part, BitVec.toNat_ofNat, Nat.mod_eq_of_lt hlen]

namespace SplitConfig

variable (p : SplitConfig)

/-- A sub-request of `req` stays inside one window. -/
def Fits (req sub : DmaReq) : Prop :=
  (req.sideAddr p.toRegion sub).toNat % p.dmaRegionWidth + sub.numBytes.toNat
    ≤ p.dmaRegionWidth

theorem width_pos : 0 < p.dmaRegionWidth := by
  rw [p.width_pow]
  exact Nat.two_pow_pos _

theorem width_dvd : p.dmaRegionWidth ∣ 2 ^ 32 := by
  have h := p.width_fits
  rw [p.width_pow] at h ⊢
  exact Nat.pow_dvd_pow 2 (Nat.le_of_lt ((Nat.pow_lt_pow_iff_right (by omega)).mp h))

theorem firstBytes_eq (req : DmaReq) :
    p.firstBytes req =
      p.dmaRegionWidth - (req.sideAddr p.toRegion req).toNat % p.dmaRegionWidth := by
  rw [SplitParams.firstBytes, slice, Nat.pow_zero, Nat.div_one,
    SplitParams.dmaRegionAddressBits, ← p.width_pow]
  rfl

theorem firstBytes_le (req : DmaReq) : p.firstBytes req ≤ p.dmaRegionWidth := by
  rw [p.firstBytes_eq]
  exact Nat.sub_le _ _

/-- Addresses wrap at a multiple of the window width. -/
theorem add_mod_width (a : BitVec 32) (k : Nat) :
    (a + BitVec.ofNat 32 k).toNat % p.dmaRegionWidth = (a.toNat + k) % p.dmaRegionWidth := by
  rw [BitVec.toNat_add, BitVec.toNat_ofNat, Nat.add_mod_mod,
    Nat.mod_mod_of_dvd _ p.width_dvd]

theorem sideAddr_advance (req sub : DmaReq) (k : Nat) :
    (req.sideAddr p.toRegion (sub.advance k)).toNat % p.dmaRegionWidth
      = ((req.sideAddr p.toRegion sub).toNat + k) % p.dmaRegionWidth := by
  rw [DmaReq.sideAddr, DmaReq.sideAddr]
  split <;> exact p.add_mod_width _ k

end SplitConfig

/-! ## One cycle -/

namespace SplitRun

variable {p : SplitConfig} {r : SplitRun} {d : Down} {req : DmaReq}

theorem step_finished (hph : r.mid.phase = .idle) (hpend : r.pending = []) :
    (r.step p.toSplitParams d).mid.phase = .idle ∧
    (r.step p.toSplitParams d).pending = [] ∧
    (r.step p.toSplitParams d).handed = r.handed := by
  simp [step, SplitParams.splitStep, SplitParams.splitFsm, hph, hpend]

theorem step_forward (hph : r.mid.phase = .idle) (hpend : r.pending = [req])
    (hfirst : req.numBytes.toNat ≤ p.firstBytes req) :
    (r.step p.toSplitParams d).mid.phase = .idle ∧
    (r.step p.toSplitParams d).pending = (if d.ready then [] else [req]) ∧
    (r.step p.toSplitParams d).handed
      = (if d.ready then r.handed ++ [req] else r.handed) := by
  simp [step, SplitParams.splitStep, SplitParams.splitFsm, hph, hpend, hfirst]

theorem step_store (hph : r.mid.phase = .idle) (hpend : r.pending = [req])
    (hfirst : p.firstBytes req < req.numBytes.toNat) :
    (r.step p.toSplitParams d).mid.phase = .busy ∧
    (r.step p.toSplitParams d).mid.req
      = (if d.ready then req.advance (p.firstBytes req) else req) ∧
    (r.step p.toSplitParams d).pending = [] ∧
    (r.step p.toSplitParams d).handed
      = (if d.ready then
          r.handed ++ [{ req with numBytes := BitVec.ofNat 32 (p.firstBytes req) }]
        else r.handed) := by
  have hnle : ¬ req.numBytes.toNat ≤ p.firstBytes req := Nat.not_le.mpr hfirst
  simp [step, SplitParams.splitStep, SplitParams.splitFsm, hph, hpend, hnle]

theorem step_last (hph : r.mid.phase = .busy) (hpend : r.pending = [])
    (hle : r.mid.req.numBytes.toNat ≤ p.dmaRegionWidth) :
    (r.step p.toSplitParams d).mid.phase = (if d.ready then .idle else .busy) ∧
    (r.step p.toSplitParams d).mid.req = r.mid.req ∧
    (r.step p.toSplitParams d).pending = [] ∧
    (r.step p.toSplitParams d).handed
      = (if d.ready then r.handed ++ [r.mid.req] else r.handed) := by
  simp [step, SplitParams.splitStep, SplitParams.splitFsm, hph, hpend, hle]

theorem step_clip (hph : r.mid.phase = .busy) (hpend : r.pending = [])
    (hlt : p.dmaRegionWidth < r.mid.req.numBytes.toNat) :
    (r.step p.toSplitParams d).mid.phase = .busy ∧
    (r.step p.toSplitParams d).mid.req
      = (if d.ready then r.mid.req.advance p.dmaRegionWidth else r.mid.req) ∧
    (r.step p.toSplitParams d).pending = [] ∧
    (r.step p.toSplitParams d).handed
      = (if d.ready then
          r.handed ++ [{ r.mid.req with numBytes := BitVec.ofNat 32 p.dmaRegionWidth }]
        else r.handed) := by
  have hnle : ¬ r.mid.req.numBytes.toNat ≤ p.dmaRegionWidth := Nat.not_le.mpr hlt
  simp [step, SplitParams.splitStep, SplitParams.splitFsm, hph, hpend, hnle]

/-! ## The copy -/

/-- The handed sub-requests are the first bytes of `req`; the rest is upstream,
in the register, or empty. -/
inductive Progress (req : DmaReq) (r : SplitRun) : Prop where
  | waiting (hph : r.mid.phase = .idle) (hpend : r.pending = [req])
      (hhand : r.handed = [])
  | working (off : Nat) (hoff : off < req.numBytes.toNat)
      (hph : r.mid.phase = .busy) (hpend : r.pending = [])
      (hreg : r.mid.req = req.part off (req.numBytes.toNat - off))
      (hhand : r.handed.flatMap DmaReq.bytes = span req.byte 0 off)
  | finished (hph : r.mid.phase = .idle) (hpend : r.pending = [])
      (hhand : r.handed.flatMap DmaReq.bytes = req.bytes)

/-- What is left to do. -/
def left (req : DmaReq) (r : SplitRun) : Nat :=
  match r.pending, r.mid.phase with
  | _ :: _, _ => req.numBytes.toNat + 1
  | [], .busy => r.mid.req.numBytes.toNat
  | [], .idle => 0

/-- Handing over `len` more bytes after the first `off`. -/
theorem flatMap_hand {h : List DmaReq} {off : Nat} (len : Nat)
    (hh : h.flatMap DmaReq.bytes = span req.byte 0 off) (hlen : len < 2 ^ 32) :
    (h ++ [req.part off len]).flatMap DmaReq.bytes = span req.byte 0 (off + len) := by
  rw [List.flatMap_append, hh, List.flatMap_singleton, DmaReq.bytes_part _ _ hlen,
    ← span_append, Nat.zero_add]

/-- One cycle: the transfer is kept, and a cycle in which downstream is ready
brings it on. -/
structure Advances (req : DmaReq) (d : Down) (r r' : SplitRun) : Prop where
  progress : Progress req r'
  le : left req r' ≤ left req r
  lt : d.ready = true → 0 < left req r → left req r' < left req r

theorem Advances.finished (hph : r.mid.phase = .idle) (hpend : r.pending = [])
    (hhand : r.handed.flatMap DmaReq.bytes = req.bytes) :
    Advances req d r (r.step p.toSplitParams d) := by
  obtain ⟨hph', hpend', hhand'⟩ := step_finished (p := p) (d := d) hph hpend
  have h0 : left req r = 0 := by simp only [left, hpend, hph]
  have h0' : left req (r.step p.toSplitParams d) = 0 := by simp only [left, hpend', hph']
  exact ⟨.finished hph' hpend' (by rw [hhand', hhand]), by omega, fun _ h => by omega⟩

theorem Advances.forward (hph : r.mid.phase = .idle) (hpend : r.pending = [req])
    (hhand : r.handed = []) (hfirst : req.numBytes.toNat ≤ p.firstBytes req) :
    Advances req d r (r.step p.toSplitParams d) := by
  obtain ⟨hph', hpend', hhand'⟩ := step_forward (d := d) hph hpend hfirst
  have hleft : left req r = req.numBytes.toNat + 1 := by simp only [left, hpend]
  rw [hhand] at hhand'
  cases hr : d.ready with
  | false =>
      simp only [hr, Bool.false_eq_true, if_false] at hpend' hhand'
      have hleft' : left req (r.step p.toSplitParams d) = req.numBytes.toNat + 1 := by
        simp only [left, hpend']
      exact ⟨.waiting hph' hpend' hhand', by omega, fun h => by simp [hr] at h⟩
  | true =>
      simp only [hr, if_true] at hpend' hhand'
      have hleft' : left req (r.step p.toSplitParams d) = 0 := by
        simp only [left, hpend', hph']
      exact ⟨.finished hph' hpend' (by rw [hhand']; simp), by omega, fun _ _ => by omega⟩

theorem Advances.store (hph : r.mid.phase = .idle) (hpend : r.pending = [req])
    (hhand : r.handed = []) (hfirst : p.firstBytes req < req.numBytes.toNat) :
    Advances req d r (r.step p.toSplitParams d) := by
  obtain ⟨hph', hreq', hpend', hhand'⟩ := step_store (d := d) hph hpend hfirst
  have hlt := req.numBytes.isLt
  have hleft : left req r = req.numBytes.toNat + 1 := by simp only [left, hpend]
  rw [hhand] at hhand'
  cases hr : d.ready with
  | false =>
      simp only [hr, Bool.false_eq_true, if_false] at hreq' hhand'
      have hleft' : left req (r.step p.toSplitParams d) = req.numBytes.toNat := by
        simp only [left, hpend', hph', hreq']
      refine ⟨.working 0 (by omega) hph' hpend' ?_ (by rw [hhand']; rfl), by omega,
        fun h => by simp [hr] at h⟩
      rw [hreq', Nat.sub_zero, req.part_zero]
  | true =>
      simp only [hr, if_true] at hreq' hhand'
      have hsub : { req with numBytes := BitVec.ofNat 32 (p.firstBytes req) }
          = req.part 0 (p.firstBytes req) := by simp [DmaReq.part]
      have hadv := req.advance_part 0 (p.firstBytes req) (by omega)
      rw [Nat.sub_zero, req.part_zero, Nat.zero_add] at hadv
      have hleft' : left req (r.step p.toSplitParams d)
          = req.numBytes.toNat - p.firstBytes req := by
        simp only [left, hpend', hph', hreq', hadv]
        exact req.numBytes_part _ (by omega)
      refine ⟨.working (p.firstBytes req) hfirst hph' hpend' (by rw [hreq', hadv]) ?_,
        by omega, fun _ _ => by omega⟩
      have hbytes : ([] ++ [req.part 0 (p.firstBytes req)]).flatMap DmaReq.bytes
          = span req.byte 0 (0 + p.firstBytes req) := flatMap_hand _ rfl (by omega)
      rw [hhand', hsub, hbytes, Nat.zero_add]

theorem Advances.busy {off : Nat} (hoff : off < req.numBytes.toNat)
    (hph : r.mid.phase = .busy) (hpend : r.pending = [])
    (hreg : r.mid.req = req.part off (req.numBytes.toNat - off))
    (hhand : r.handed.flatMap DmaReq.bytes = span req.byte 0 off) :
    Advances req d r (r.step p.toSplitParams d) := by
  have hlt := req.numBytes.isLt
  have hpos := p.width_pos
  have hnum : r.mid.req.numBytes.toNat = req.numBytes.toNat - off := by
    rw [hreg]
    exact req.numBytes_part _ (by omega)
  have hleft : left req r = req.numBytes.toNat - off := by
    simp only [left, hpend, hph, hnum]
  have hstall : d.ready = false → (r.step p.toSplitParams d).mid.phase = .busy →
      (r.step p.toSplitParams d).mid.req = r.mid.req →
      (r.step p.toSplitParams d).pending = [] →
      (r.step p.toSplitParams d).handed = r.handed →
      Advances req d r (r.step p.toSplitParams d) := by
    intro hr hph' hreq' hpend' hhand'
    have hleft' : left req (r.step p.toSplitParams d) = req.numBytes.toNat - off := by
      simp only [left, hpend', hph', hreq', hnum]
    exact ⟨.working off hoff hph' hpend' (by rw [hreq', hreg]) (by rw [hhand', hhand]),
      by omega, fun h => by simp [hr] at h⟩
  rcases Nat.lt_or_ge p.dmaRegionWidth r.mid.req.numBytes.toNat with hw | hw
  · obtain ⟨hph', hreq', hpend', hhand'⟩ := step_clip (d := d) hph hpend hw
    cases hr : d.ready with
    | false =>
        simp only [hr, Bool.false_eq_true, if_false] at hreq' hhand'
        exact hstall hr hph' hreq' hpend' hhand'
    | true =>
        simp only [hr, if_true] at hreq' hhand'
        rw [hreg, req.advance_part off p.dmaRegionWidth (by omega)] at hreq'
        have hleft' : left req (r.step p.toSplitParams d)
            = req.numBytes.toNat - (off + p.dmaRegionWidth) := by
          simp only [left, hpend', hph', hreq']
          exact req.numBytes_part _ (by omega)
        refine ⟨.working (off + p.dmaRegionWidth) (by omega) hph' hpend' hreq' ?_,
          by omega, fun _ _ => by omega⟩
        have hsub : { r.mid.req with numBytes := BitVec.ofNat 32 p.dmaRegionWidth }
            = req.part off p.dmaRegionWidth := by
          rw [hreg]
          rfl
        rw [hhand', hsub, flatMap_hand _ hhand p.width_fits]
  · obtain ⟨hph', hreq', hpend', hhand'⟩ := step_last (d := d) hph hpend hw
    cases hr : d.ready with
    | false =>
        simp only [hr, Bool.false_eq_true, if_false] at hph' hhand'
        exact hstall hr hph' hreq' hpend' hhand'
    | true =>
        simp only [hr, if_true] at hph' hhand'
        have hleft' : left req (r.step p.toSplitParams d) = 0 := by
          simp only [left, hpend', hph']
        refine ⟨.finished hph' hpend' ?_, by omega, fun _ _ => by omega⟩
        rw [hhand', hreg, flatMap_hand _ hhand (by omega), Nat.add_sub_cancel' (by omega)]
        rfl

theorem Progress.step (h : Progress req r) :
    Advances req d r (r.step p.toSplitParams d) := by
  cases h with
  | waiting hph hpend hhand =>
      rcases Nat.lt_or_ge (p.firstBytes req) req.numBytes.toNat with hfirst | hfirst
      · exact .store hph hpend hhand hfirst
      · exact .forward hph hpend hhand hfirst
  | working off hoff hph hpend hreg hhand => exact .busy hoff hph hpend hreg hhand
  | finished hph hpend hhand => exact .finished hph hpend hhand

theorem progress_after (p : SplitConfig) (req : DmaReq) (down : Nat → Down) (t : Nat) :
    Progress req (after p.toSplitParams [req] down t) := by
  induction t with
  | zero => exact .waiting rfl rfl rfl
  | succ t ih => exact ih.step.progress

theorem Progress.isPrefix (h : Progress req r) :
    r.handed.flatMap DmaReq.bytes <+: req.bytes := by
  cases h with
  | waiting _ _ hhand => rw [hhand]; exact List.nil_prefix
  | working off hoff _ _ _ hhand =>
      refine ⟨span req.byte off (req.numBytes.toNat - off), ?_⟩
      have := span_append req.byte 0 off (req.numBytes.toNat - off)
      rw [Nat.zero_add, Nat.add_sub_cancel' (by omega)] at this
      rw [hhand, this]
      rfl
  | finished _ _ hhand => exact ⟨[], by rw [List.append_nil, hhand]⟩

theorem Progress.complete (h : Progress req r) (hn : 1 ≤ req.numBytes.toNat)
    (hleft : left req r = 0) : r.handed.flatMap DmaReq.bytes = req.bytes := by
  cases h with
  | waiting _ hpend _ =>
      simp only [left, hpend] at hleft
      omega
  | working off hoff hph hpend hreg _ =>
      have hlt := req.numBytes.isLt
      have hnum := req.numBytes_part off (show req.numBytes.toNat - off < 2 ^ 32 by omega)
      simp only [left, hpend, hph, hreg, hnum] at hleft
      omega
  | finished _ _ hhand => exact hhand

theorem complete_of_fair (p : SplitConfig) {req : DmaReq} {down : Nat → Down}
    (hn : 1 ≤ req.numBytes.toNat) (hfair : ∀ t, ∃ u, t ≤ u ∧ (down u).ready = true) :
    ∃ T, (after p.toSplitParams [req] down T).handed.flatMap DmaReq.bytes = req.bytes := by
  obtain ⟨T, hT⟩ := eventually_zero
    (μ := fun t => left req (after p.toSplitParams [req] down t))
    (fun t => (progress_after p req down t).step.le)
    (fun t => (progress_after p req down t).step.lt) hfair
  exact ⟨T, (progress_after p req down T).complete hn hT⟩

/-! ## The borders -/

/-- Nothing handed over crosses a border, and a busy machine continues from one. -/
inductive Fitting (p : SplitConfig) (req : DmaReq) (r : SplitRun) : Prop where
  | waiting (hph : r.mid.phase = .idle) (hpend : r.pending = [req])
      (hfirst : req.numBytes.toNat ≤ p.firstBytes req) (hhand : r.handed = [])
  | working (hph : r.mid.phase = .busy) (hpend : r.pending = [])
      (hreg : (req.sideAddr p.toRegion r.mid.req).toNat % p.dmaRegionWidth = 0)
      (hhand : ∀ sub ∈ r.handed, p.Fits req sub)
  | finished (hph : r.mid.phase = .idle) (hpend : r.pending = [])
      (hhand : ∀ sub ∈ r.handed, p.Fits req sub)

theorem fits_concat {h : List DmaReq} {sub : DmaReq} (hh : ∀ s ∈ h, p.Fits req s)
    (hs : p.Fits req sub) : ∀ s ∈ h ++ [sub], p.Fits req s := by
  intro s hmem
  rcases List.mem_append.mp hmem with hmem | hmem
  · exact hh s hmem
  · rw [List.mem_singleton.mp hmem]
    exact hs

theorem fits_forward (hfirst : req.numBytes.toNat ≤ p.firstBytes req) :
    p.Fits req req := by
  have hmod := Nat.mod_lt (req.sideAddr p.toRegion req).toNat p.width_pos
  rw [p.firstBytes_eq] at hfirst
  rw [SplitConfig.Fits]
  omega

theorem fits_first (p : SplitConfig) (req : DmaReq) :
    p.Fits req { req with numBytes := BitVec.ofNat 32 (p.firstBytes req) } := by
  have hmod := Nat.mod_lt (req.sideAddr p.toRegion req).toNat p.width_pos
  have hfit := p.width_fits
  have hle := p.firstBytes_le req
  have hnum : (BitVec.ofNat 32 (p.firstBytes req)).toNat = p.firstBytes req := by
    rw [BitVec.toNat_ofNat, Nat.mod_eq_of_lt (by omega)]
  rw [SplitConfig.Fits, hnum, p.firstBytes_eq]
  show (req.sideAddr p.toRegion req).toNat % p.dmaRegionWidth + _ ≤ _
  omega

/-- Taking off the first sub-request leaves a request that starts on a border. -/
theorem aligned_first (p : SplitConfig) (req : DmaReq) :
    (req.sideAddr p.toRegion (req.advance (p.firstBytes req))).toNat % p.dmaRegionWidth
      = 0 := by
  have hmod := Nat.mod_lt (req.sideAddr p.toRegion req).toNat p.width_pos
  have hsplit := Nat.div_add_mod (req.sideAddr p.toRegion req).toNat p.dmaRegionWidth
  rw [p.sideAddr_advance, p.firstBytes_eq]
  have hnext : (req.sideAddr p.toRegion req).toNat
      + (p.dmaRegionWidth - (req.sideAddr p.toRegion req).toNat % p.dmaRegionWidth)
      = p.dmaRegionWidth * ((req.sideAddr p.toRegion req).toNat / p.dmaRegionWidth + 1) := by
    rw [Nat.mul_add]
    omega
  rw [hnext, Nat.mul_mod_right]

theorem fits_aligned {sub : DmaReq}
    (hal : (req.sideAddr p.toRegion sub).toNat % p.dmaRegionWidth = 0)
    (hle : sub.numBytes.toNat ≤ p.dmaRegionWidth) : p.Fits req sub := by
  rw [SplitConfig.Fits, hal, Nat.zero_add]
  exact hle

theorem Fitting.step (h : Fitting p req r) : Fitting p req (r.step p.toSplitParams d) := by
  cases h with
  | waiting hph hpend hfirst hhand =>
      obtain ⟨hph', hpend', hhand'⟩ := step_forward (d := d) hph hpend hfirst
      rw [hhand] at hhand'
      cases hr : d.ready with
      | false =>
          simp only [hr, Bool.false_eq_true, if_false] at hpend' hhand'
          exact .waiting hph' hpend' hfirst hhand'
      | true =>
          simp only [hr, if_true] at hpend' hhand'
          refine .finished hph' hpend' ?_
          rw [hhand']
          exact fits_concat (by simp) (fits_forward hfirst)
  | working hph hpend hreg hhand =>
      rcases Nat.lt_or_ge p.dmaRegionWidth r.mid.req.numBytes.toNat with hw | hw
      · obtain ⟨hph', hreq', hpend', hhand'⟩ := step_clip (d := d) hph hpend hw
        cases hr : d.ready with
        | false =>
            simp only [hr, Bool.false_eq_true, if_false] at hreq' hhand'
            exact .working hph' hpend' (by rw [hreq', hreg]) (by rw [hhand']; exact hhand)
        | true =>
            simp only [hr, if_true] at hreq' hhand'
            refine .working hph' hpend' ?_ ?_
            · rw [hreq', p.sideAddr_advance, Nat.add_mod_right, hreg]
            · rw [hhand']
              refine fits_concat hhand (fits_aligned hreg ?_)
              rw [BitVec.toNat_ofNat, Nat.mod_eq_of_lt p.width_fits]
      · obtain ⟨hph', hreq', hpend', hhand'⟩ := step_last (d := d) hph hpend hw
        cases hr : d.ready with
        | false =>
            simp only [hr, Bool.false_eq_true, if_false] at hph' hhand'
            exact .working hph' hpend' (by rw [hreq', hreg]) (by rw [hhand']; exact hhand)
        | true =>
            simp only [hr, if_true] at hph' hhand'
            refine .finished hph' hpend' ?_
            rw [hhand']
            exact fits_concat hhand (fits_aligned hreg hw)
  | finished hph hpend hhand =>
      obtain ⟨hph', hpend', hhand'⟩ := step_finished (p := p) (d := d) hph hpend
      exact .finished hph' hpend' (by rw [hhand']; exact hhand)

theorem Fitting.fits (h : Fitting p req r) : ∀ sub ∈ r.handed, p.Fits req sub := by
  cases h with
  | waiting _ _ _ hhand => rw [hhand]; simp
  | working _ _ _ hhand => exact hhand
  | finished _ _ hhand => exact hhand

/-- The first cycle is the one that decides. -/
theorem fitting_first (p : SplitConfig) {req : DmaReq} {d : Down}
    (h : req.numBytes.toNat ≤ p.firstBytes req ∨
      (req.sideAddr p.toRegion req).toNat % p.dmaRegionWidth = 0 ∨ d.ready = true) :
    Fitting p req ((start [req]).step p.toSplitParams d) := by
  rcases Nat.lt_or_ge (p.firstBytes req) req.numBytes.toNat with hfirst | hfirst
  · obtain ⟨hph', hreq', hpend', hhand'⟩ :=
      step_store (p := p) (r := start [req]) (d := d) rfl rfl hfirst
    cases hr : d.ready with
    | false =>
        simp only [hr, Bool.false_eq_true, if_false] at hreq' hhand'
        refine .working hph' hpend' ?_ (by rw [hhand']; simp [start])
        rcases h with h | h | h
        · omega
        · rw [hreq', h]
        · rw [hr] at h
          cases h
    | true =>
        simp only [hr, if_true] at hreq' hhand'
        refine .working hph' hpend' (by rw [hreq', aligned_first]) ?_
        rw [hhand']
        exact fits_concat (by simp [start]) (fits_first p req)
  · exact (Fitting.waiting rfl rfl hfirst rfl).step

theorem fits_after (p : SplitConfig) {req : DmaReq} {down : Nat → Down}
    (h : req.numBytes.toNat ≤ p.firstBytes req ∨
      (req.sideAddr p.toRegion req).toNat % p.dmaRegionWidth = 0 ∨
      (down 0).ready = true) (t : Nat) :
    ∀ sub ∈ (after p.toSplitParams [req] down t).handed, p.Fits req sub := by
  have hfit : ∀ u, Fitting p req (after p.toSplitParams [req] down (u + 1)) := by
    intro u
    induction u with
    | zero => exact fitting_first p h
    | succ u ih => exact ih.step
  cases t with
  | zero => simp [after, start]
  | succ u => exact (hfit u).fits

/-! ## The missed cycle -/

/-- The request stored whole and nothing handed over. -/
structure Missed (req : DmaReq) (r : SplitRun) : Prop where
  phase : r.mid.phase = .busy
  reg : r.mid.req = req
  pending : r.pending = []
  handed : r.handed = []

theorem missed_after {down : Nat → Down} {t : Nat}
    (hfirst : p.firstBytes req < req.numBytes.toNat)
    (hstall : ∀ u ≤ t, (down u).ready = false) :
    Missed req (after p.toSplitParams [req] down (t + 1)) := by
  induction t with
  | zero =>
      obtain ⟨hph, hreq, hpend, hhand⟩ :=
        step_store (p := p) (r := start [req]) (d := down 0) rfl rfl hfirst
      simp only [hstall 0 (Nat.le_refl _), Bool.false_eq_true, if_false] at hreq hhand
      exact ⟨hph, hreq, hpend, hhand⟩
  | succ t ih =>
      obtain ⟨hph, hreg, hpend, hhand⟩ := ih fun u hu => hstall u (by omega)
      have hr := hstall (t + 1) (Nat.le_refl _)
      rcases Nat.lt_or_ge p.dmaRegionWidth
        (after p.toSplitParams [req] down (t + 1)).mid.req.numBytes.toNat with hw | hw
      · obtain ⟨hph', hreq', hpend', hhand'⟩ := step_clip (d := down (t + 1)) hph hpend hw
        simp only [hr, Bool.false_eq_true, if_false] at hreq' hhand'
        exact ⟨hph', hreq'.trans hreg, hpend', hhand'.trans hhand⟩
      · obtain ⟨hph', hreq', hpend', hhand'⟩ := step_last (d := down (t + 1)) hph hpend hw
        simp only [hr, Bool.false_eq_true, if_false] at hph' hhand'
        exact ⟨hph', hreq'.trans hreg, hpend', hhand'.trans hhand⟩

/-- The first sub-request taken from a request stored whole crosses the border
the request crosses first. -/
theorem Missed.crosses (h : Missed req r) (hr : d.ready = true)
    (hfirst : p.firstBytes req < req.numBytes.toNat)
    (hmis : (req.sideAddr p.toRegion req).toNat % p.dmaRegionWidth ≠ 0) :
    ∃ sub ∈ (r.step p.toSplitParams d).handed, ¬ p.Fits req sub := by
  obtain ⟨hph, hreg, hpend, hhand⟩ := h
  have hmod := Nat.mod_lt (req.sideAddr p.toRegion req).toNat p.width_pos
  have hf := p.firstBytes_eq req
  rcases Nat.lt_or_ge p.dmaRegionWidth r.mid.req.numBytes.toNat with hw | hw
  · obtain ⟨-, -, -, hhand'⟩ := step_clip (d := d) hph hpend hw
    simp only [hr, if_true, hhand, hreg, List.nil_append] at hhand'
    refine ⟨_, by rw [hhand']; exact List.mem_singleton_self _, ?_⟩
    rw [SplitConfig.Fits, BitVec.toNat_ofNat, Nat.mod_eq_of_lt p.width_fits]
    show ¬ (req.sideAddr p.toRegion req).toNat % p.dmaRegionWidth + _ ≤ _
    omega
  · obtain ⟨-, -, -, hhand'⟩ := step_last (d := d) hph hpend hw
    simp only [hr, if_true, hhand, hreg, List.nil_append] at hhand'
    refine ⟨_, by rw [hhand']; exact List.mem_singleton_self _, ?_⟩
    rw [SplitConfig.Fits]
    omega

end SplitRun

/-- The split midend copies the transfer completely and in order, and no
sub-request crosses a window, exactly unless a transfer that has to be split and
does not start on a border meets a downstream that is not ready in the cycle in
which it is presented (and is ready later on). -/
theorem split_midend_exact (p : SplitConfig) (req : DmaReq) (down : Nat → Down)
    (hn : 1 ≤ req.numBytes.toNat) :
    ((∀ t,
        ((SplitRun.after p.toSplitParams [req] down t).handed.flatMap DmaReq.bytes
          <+: req.bytes) ∧
        ∀ sub ∈ (SplitRun.after p.toSplitParams [req] down t).handed, p.Fits req sub) ∧
      ((∀ t, ∃ u, t ≤ u ∧ (down u).ready = true) →
        ∃ T, (SplitRun.after p.toSplitParams [req] down T).handed.flatMap DmaReq.bytes
          = req.bytes)) ↔
    ¬ (p.firstBytes req < req.numBytes.toNat ∧
        (req.l1Addr p.toRegion).toNat % p.dmaRegionWidth ≠ 0 ∧
        (down 0).ready = false ∧ ∃ t, (down t).ready = true) := by
  constructor
  · rintro ⟨hsafe, -⟩ ⟨hfirst, hmis, h0, hlater⟩
    obtain ⟨k, hk, hmin⟩ : ∃ k, (down (k + 1)).ready = true ∧
        ∀ u ≤ k, (down u).ready = false := by
      classical
      have hspec := Nat.find_spec hlater
      rcases hfind : Nat.find hlater with _ | k
      · rw [hfind, h0] at hspec
        cases hspec
      · refine ⟨k, by rw [← hfind]; exact hspec, fun u hu => ?_⟩
        have := Nat.find_min hlater (m := u) (by omega)
        simpa using this
    obtain ⟨sub, hsub, hcross⟩ :=
      (SplitRun.missed_after hfirst hmin).crosses hk hfirst hmis
    exact hcross ((hsafe (k + 2)).2 sub hsub)
  · intro hcond
    refine ⟨fun t => ⟨(SplitRun.progress_after p req down t).isPrefix, ?_⟩,
      SplitRun.complete_of_fair p hn⟩
    by_cases hlater : ∃ t, (down t).ready = true
    · refine SplitRun.fits_after p ?_ t
      by_contra hno
      simp only [not_or, Nat.not_le] at hno
      exact hcond ⟨hno.1, hno.2.1, by simpa using hno.2.2, hlater⟩
    · -- nothing is ever handed over
      intro sub hsub
      exfalso
      have hnone : ∀ u, (down u).ready = false := fun u => by
        have := not_exists.mp hlater u
        simpa using this
      have hempty : ∀ u, (SplitRun.after p.toSplitParams [req] down u).handed = [] := by
        intro u
        induction u with
        | zero => rfl
        | succ u ih => simp [SplitRun.after, SplitRun.step, hnone u, ih]
      rw [hempty t] at hsub
      cases hsub

/-! ## On minpool -/

def minpoolSplit : SplitConfig where
  toSplitParams := systemSplit (Hw.minpool false false).toParams 0
  width_pow := by decide
  width_fits := by decide

/-- 300 bytes to byte 40 of the L1. -/
def acrossReq : DmaReq := { src := 0x80000000#32, dst := 40#32, numBytes := 300#32 }

/-- Downstream is busy in the first `t` cycles. -/
def readyFrom (t : Nat) : Nat → Down := fun u =>
  { ready := decide (t ≤ u), downMeta := { backendIdle := true, transComplete := false } }

instance (req sub : DmaReq) : Decidable (minpoolSplit.Fits req sub) :=
  inferInstanceAs (Decidable (_ ≤ _))

theorem split_midend_crosses :
    1 ≤ acrossReq.numBytes.toNat ∧
    ∃ sub ∈ (SplitRun.after minpoolSplit.toSplitParams [acrossReq] (readyFrom 1) 2).handed,
      ¬ minpoolSplit.Fits acrossReq sub := by
  decide

theorem split_midend_exact_ready :
    1 ≤ acrossReq.numBytes.toNat ∧
    ∃ T, (SplitRun.after minpoolSplit.toSplitParams [acrossReq] (readyFrom 0) T).handed.flatMap
      DmaReq.bytes = acrossReq.bytes :=
  ⟨by decide,
    ((split_midend_exact minpoolSplit acrossReq (readyFrom 0) (by decide)).mpr
      (fun h => absurd h.2.2.1 (by decide))).2 fun t => ⟨t, Nat.le_refl t, by
        simp [readyFrom]⟩⟩

end TeraNoC.Dma
