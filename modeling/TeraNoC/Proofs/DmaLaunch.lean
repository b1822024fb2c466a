import TeraNoC.Dma.Frontend
import TeraNoC.Proofs.SplitMidend
import Mathlib.Data.List.Forall2
import Mathlib.Tactic.IntervalCases

/-!
# Launching transfers and waiting for them

A read of `NEXT_ID` launches the transfer the registers hold, and `DONE` is to
tell when everything launched has finished. Neither is unconditional. The
frontend does not wait for the spill register, so a launch that finds it full is
lost. And `DONE` is set whenever the count of outstanding sub-requests falls from
one to zero, which also happens between two sub-requests of one transfer, and
while other transfers wait in the spill register or are just entering it.

`Orderly` excludes exactly these cycles. The proof rests on two facts. The split
midend works off what it acknowledges (`Issued`), whatever else happens. And once
the flag is on its way up, with every cycle orderly, the whole path is empty
(`Quiet`), and stays so until the next launch, which takes the flag down again.
-/

namespace TeraNoC.Dma

open TeraNoC.Lib

/-! ## What was asked for -/

/-- The last word the cores have written to register `r` in the first `t` cycles. -/
def lastWrite (inp : Nat → LaunchIn) (r : FrontendReg) : Nat → BitVec 32
  | 0 => 0
  | t + 1 =>
      match (inp t).access with
      | none => lastWrite inp r t
      | some q => if q.we r then q.wdata else lastWrite inp r t

/-- The transfer programmed when cycle `t` begins. -/
def programmed (inp : Nat → LaunchIn) (t : Nat) : DmaReq where
  src := lastWrite inp .srcAddr t
  dst := lastWrite inp .dstAddr t
  numBytes := lastWrite inp .numBytes t
  cacheSrc := 0b0010
  cacheDst := 0b0010
  burstSrc := 0b01
  burstDst := 0b01
  decoupleRw := true

def LaunchIn.reads (i : LaunchIn) (r : FrontendReg) : Bool := i.access.any (·.re r)

/-- The transfers launched in the first `t` cycles: one for each read of `NEXT_ID`. -/
def launched (inp : Nat → LaunchIn) : Nat → List DmaReq
  | 0 => []
  | t + 1 => launched inp t ++ if (inp t).reads .nextId then [programmed inp t] else []

/-- The sub-requests `subs` carry out `reqs`: one group for each transfer, never
empty, that copies just the bytes of the transfer. -/
def CarriesOut (reqs subs : List DmaReq) : Prop :=
  ∃ groups : List (List DmaReq), subs = groups.flatten ∧
    List.Forall₂ (fun req g => g ≠ [] ∧ g.flatMap DmaReq.bytes = req.bytes) reqs groups

theorem CarriesOut.nil : CarriesOut [] [] := ⟨[], rfl, .nil⟩

theorem CarriesOut.concat {reqs subs g : List DmaReq} {req : DmaReq} (h : CarriesOut reqs subs)
    (hg : g ≠ []) (hbytes : g.flatMap DmaReq.bytes = req.bytes) :
    CarriesOut (reqs ++ [req]) (subs ++ g) := by
  obtain ⟨groups, rfl, hall⟩ := h
  refine ⟨groups ++ [g], by simp, ?_⟩
  exact List.rel_append hall (.cons ⟨hg, hbytes⟩ .nil)

/-! ## The split midend over many transfers -/

/-- `handed` are the transfers the midend has acknowledged and `issued` the
sub-requests taken from it: all transfers but the one in the register are issued
whole, and of that one the first `off` bytes. -/
inductive Issued (mid : SplitState) (handed issued : List DmaReq) : Prop where
  | idle (hph : mid.phase = .idle) (hall : CarriesOut handed issued)
  | busy (req : DmaReq) (done subs begun : List DmaReq) (off : Nat)
      (hoff : off < req.numBytes.toNat) (hph : mid.phase = .busy)
      (hreg : mid.req = req.part off (req.numBytes.toNat - off))
      (hhand : handed = done ++ [req]) (hiss : issued = subs ++ begun)
      (hdone : CarriesOut done subs) (hbegun : begun.flatMap DmaReq.bytes = span req.byte 0 off)

section Split

variable {p : SplitConfig} {mid : SplitState} {handed issued : List DmaReq} {i : SplitIn}

/-- The histories after a cycle. -/
def handedAfter (p : SplitConfig) (mid : SplitState) (i : SplitIn) (handed : List DmaReq) :
    List DmaReq :=
  handed ++ if i.valid && (p.splitStep mid i).2.1.ready then [i.burstReq] else []

def issuedAfter (p : SplitConfig) (mid : SplitState) (i : SplitIn) (issued : List DmaReq) :
    List DmaReq :=
  issued ++ if (p.splitStep mid i).2.1.valid && i.ready then [(p.splitStep mid i).2.1.burstReq]
    else []

theorem Issued.step_idle (hph : mid.phase = .idle) (hall : CarriesOut handed issued) :
    Issued (p.splitStep mid i).1 (handedAfter p mid i handed) (issuedAfter p mid i issued) := by
  cases hv : i.valid with
  | false =>
      simp only [handedAfter, issuedAfter, SplitParams.splitStep, SplitParams.splitFsm, hph, hv,
        Bool.false_eq_true, if_false, Bool.false_and, List.append_nil]
      exact .idle rfl hall
  | true =>
      have hlt := i.burstReq.numBytes.isLt
      rcases Nat.lt_or_ge (p.firstBytes i.burstReq) i.burstReq.numBytes.toNat with hfirst | hfirst
      · -- stored; the first sub-request leaves now, or with the rest later
        have hnle : ¬ p.firstBytes i.burstReq ≥ i.burstReq.numBytes.toNat := by omega
        cases hr : i.ready with
        | false =>
            simp only [handedAfter, issuedAfter, SplitParams.splitStep, SplitParams.splitFsm, hph,
              hv, hr, if_true, if_neg hnle, Bool.and_self, Bool.and_false, Bool.false_eq_true,
              if_false, List.append_nil]
            exact .busy i.burstReq handed issued [] 0 (by omega) rfl
              (by rw [Nat.sub_zero, DmaReq.part_zero]) rfl (by simp) hall rfl
        | true =>
            simp only [handedAfter, issuedAfter, SplitParams.splitStep, SplitParams.splitFsm, hph,
              hv, hr, if_true, if_neg hnle, Bool.and_self]
            have hadv := i.burstReq.advance_part 0 (p.firstBytes i.burstReq) (by omega)
            rw [Nat.sub_zero, i.burstReq.part_zero, Nat.zero_add] at hadv
            have hsub : { i.burstReq with numBytes := BitVec.ofNat 32 (p.firstBytes i.burstReq) }
                = i.burstReq.part 0 (p.firstBytes i.burstReq) := by simp [DmaReq.part]
            refine .busy i.burstReq handed issued _ (p.firstBytes i.burstReq) hfirst rfl hadv rfl
              rfl hall ?_
            have hbytes : ([] ++ [i.burstReq.part 0 (p.firstBytes i.burstReq)]).flatMap DmaReq.bytes
                = span i.burstReq.byte 0 (0 + p.firstBytes i.burstReq) :=
              SplitRun.flatMap_hand _ rfl (by omega)
            rw [List.nil_append, Nat.zero_add] at hbytes
            rw [hsub, hbytes]
      · -- forwarded as it is, once downstream takes it
        cases hr : i.ready with
        | false =>
            simp only [handedAfter, issuedAfter, SplitParams.splitStep, SplitParams.splitFsm, hph,
              hv, hr, if_true, if_pos hfirst, Bool.and_false, Bool.false_eq_true, if_false,
              List.append_nil]
            exact .idle rfl hall
        | true =>
            simp only [handedAfter, issuedAfter, SplitParams.splitStep, SplitParams.splitFsm, hph,
              hv, hr, if_true, if_pos hfirst, Bool.and_self]
            exact .idle rfl (hall.concat (by simp) (by simp))

theorem Issued.step_busy {req : DmaReq} {done subs begun : List DmaReq} {off : Nat}
    (hoff : off < req.numBytes.toNat) (hph : mid.phase = .busy)
    (hreg : mid.req = req.part off (req.numBytes.toNat - off))
    (hhand : handed = done ++ [req]) (hiss : issued = subs ++ begun)
    (hdone : CarriesOut done subs) (hbegun : begun.flatMap DmaReq.bytes = span req.byte 0 off) :
    Issued (p.splitStep mid i).1 (handedAfter p mid i handed) (issuedAfter p mid i issued) := by
  have hlt := req.numBytes.isLt
  have hnum : mid.req.numBytes.toNat = req.numBytes.toNat - off := by
    rw [hreg]
    exact req.numBytes_part _ (by omega)
  rcases Nat.lt_or_ge p.dmaRegionWidth mid.req.numBytes.toNat with hw | hw
  · have hnle : ¬ mid.req.numBytes.toNat ≤ p.dmaRegionWidth := by omega
    cases hr : i.ready with
    | false =>
        simp only [handedAfter, issuedAfter, SplitParams.splitStep, SplitParams.splitFsm, hph, hr,
          if_neg hnle, Bool.and_false, Bool.false_eq_true, if_false, List.append_nil]
        exact .busy req done subs begun off hoff rfl hreg hhand hiss hdone hbegun
    | true =>
        simp only [handedAfter, issuedAfter, SplitParams.splitStep, SplitParams.splitFsm, hph, hr,
          if_neg hnle, Bool.and_false, Bool.false_eq_true, if_false, List.append_nil,
          Bool.and_self, if_true]
        have hadv := req.advance_part off p.dmaRegionWidth (by omega)
        rw [← hreg] at hadv
        have hsub : { mid.req with numBytes := BitVec.ofNat 32 p.dmaRegionWidth }
            = req.part off p.dmaRegionWidth := by
          rw [hreg]
          rfl
        refine .busy req done subs (begun ++ [req.part off p.dmaRegionWidth])
          (off + p.dmaRegionWidth) (by omega) rfl hadv hhand ?_ hdone
          (SplitRun.flatMap_hand _ hbegun p.width_fits)
        rw [hiss, hsub, List.append_assoc]
  · cases hr : i.ready with
    | false =>
        simp only [handedAfter, issuedAfter, SplitParams.splitStep, SplitParams.splitFsm, hph, hr,
          if_pos hw, Bool.and_false, Bool.false_eq_true, if_false, List.append_nil]
        exact .busy req done subs begun off hoff rfl hreg hhand hiss hdone hbegun
    | true =>
        simp only [handedAfter, issuedAfter, SplitParams.splitStep, SplitParams.splitFsm, hph, hr,
          if_pos hw, Bool.and_false, Bool.false_eq_true, if_false, List.append_nil,
          Bool.and_self, if_true]
        refine .idle rfl ?_
        rw [hhand, hiss, List.append_assoc]
        refine hdone.concat (by simp) ?_
        rw [hreg, SplitRun.flatMap_hand _ hbegun (by omega), Nat.add_sub_cancel' (by omega)]
        rfl

theorem Issued.step (h : Issued mid handed issued) :
    Issued (p.splitStep mid i).1 (handedAfter p mid i handed) (issuedAfter p mid i issued) := by
  cases h with
  | idle hph hall => exact .step_idle hph hall
  | busy req done subs begun off hoff hph hreg hhand hiss hdone hbegun =>
      exact .step_busy hoff hph hreg hhand hiss hdone hbegun

end Split

/-! ## The launch path -/

namespace LaunchState

variable {F : StreamFifo DmaReq 2} {p : SplitConfig} {inp : Nat → LaunchIn}
  {s : LaunchState F} {i : LaunchIn}

/-- The cycles in which nothing goes wrong: a launch finds the spill register
ready, and when the counter falls to zero (it holds one, a sub-request completes,
and none is taken) the one that completes is all there is, in flight, in the
midend, in the spill register and on its way into it. -/
structure Orderly (s : LaunchState F) (i : LaunchIn) : Prop where
  room : i.reads .nextId = true → F.ready s.spill = true
  settled : s.mid.numTrans = 1 → s.completes i = true →
    ¬ (i.ready = true ∧ (s.mid.phase = .busy ∨ F.valid s.spill = true)) →
    s.inFlight.length = 1 ∧ s.mid.phase = .idle ∧ F.valid s.spill = false ∧
      i.reads .nextId = false

/-- Nothing launched is left to do. -/
structure Quiet (s : LaunchState F) : Prop where
  inFlight : s.inFlight = []
  phase : s.mid.phase = .idle
  spill : F.contents s.spill = []

/-- What holds in any run. -/
structure Tracks (s : LaunchState F) : Prop where
  issued : Issued s.mid s.handed (s.completed ++ s.inFlight)
  count : s.mid.numTrans = BitVec.ofNat 32 s.inFlight.length

/-- The outputs of the midend in this cycle. -/
def fsm (p : SplitConfig) (s : LaunchState F) (i : LaunchIn) : SplitFsm :=
  p.splitFsm s.mid.phase s.mid.req (F.data s.spill) (F.valid s.spill) i.ready

theorem next_numTrans : (s.next p.toSplitParams i).mid.numTrans
    = SplitParams.numTransD s.mid.numTrans (fsm p s i).reqValid (s.completes i) := rfl

theorem next_metaQ : (s.next p.toSplitParams i).metaQ.transComplete
    = (s.mid.numTrans == 1 &&
        SplitParams.numTransD s.mid.numTrans (fsm p s i).reqValid (s.completes i) == 0) := rfl

theorem next_inFlight : (s.next p.toSplitParams i).inFlight
    = (if s.completes i then s.inFlight.tail else s.inFlight) ++
        (if (fsm p s i).valid && i.ready then [(fsm p s i).burstReq] else []) := rfl

theorem next_completed : (s.next p.toSplitParams i).completed
    = s.completed ++ (if s.completes i then s.inFlight.take 1 else []) := rfl

theorem next_handed : (s.next p.toSplitParams i).handed
    = s.handed ++ (if F.valid s.spill && (fsm p s i).ready then [F.data s.spill] else []) := rfl

theorem next_contents : F.contents (s.next p.toSplitParams i).spill
    = (if F.valid s.spill && (fsm p s i).ready then (F.contents s.spill).tail
        else F.contents s.spill) ++
      (if i.reads .nextId && F.ready s.spill then [s.front.burstReq] else []) :=
  F.contents_next s.spill _ _ _

theorem fsm_valid : (fsm p s i).valid = true ↔ s.mid.phase = .busy ∨ F.valid s.spill = true := by
  rw [fsm]
  cases s.mid.phase with
  | idle =>
      cases F.valid s.spill with
      | false => simp [SplitParams.splitFsm]
      | true =>
          simp only [SplitParams.splitFsm, if_true]
          split <;> simp
  | busy =>
      simp only [SplitParams.splitFsm]
      split <;> simp

theorem fsm_reqValid : (fsm p s i).reqValid = ((fsm p s i).valid && i.ready) := by
  rw [fsm]
  cases s.mid.phase with
  | idle =>
      cases F.valid s.spill with
      | false => rfl
      | true =>
          simp only [SplitParams.splitFsm, if_true]
          split <;> rfl
  | busy =>
      simp only [SplitParams.splitFsm]
      split <;> rfl

theorem numTransD_ofNat (n : Nat) (reqValid transComplete : Bool)
    (h : transComplete = true → 0 < n) :
    SplitParams.numTransD (BitVec.ofNat 32 n) reqValid transComplete
      = BitVec.ofNat 32 ((if transComplete then n - 1 else n) + reqValid.toNat) := by
  cases transComplete with
  | false => cases reqValid <;> simp [SplitParams.numTransD, BitVec.ofNat_add]
  | true =>
      obtain ⟨m, rfl⟩ : ∃ m, n = m + 1 := ⟨n - 1, by have := h rfl; omega⟩
      cases reqValid with
      | false =>
          show BitVec.ofNat 32 (m + 1) + 0#32 - 1#32 = BitVec.ofNat 32 m
          rw [BitVec.add_zero, BitVec.ofNat_add]
          exact BitVec.add_sub_cancel _ _
      | true =>
          show BitVec.ofNat 32 (m + 1) + 1#32 - 1#32 = BitVec.ofNat 32 (m + 1)
          exact BitVec.add_sub_cancel _ _

theorem numTransD_zero (reqValid transComplete : Bool)
    (h : SplitParams.numTransD 1 reqValid transComplete = 0) :
    reqValid = false ∧ transComplete = true := by
  revert h
  cases reqValid <;> cases transComplete <;> decide

theorem inFlight_pos (hc : s.completes i = true) : 0 < s.inFlight.length := by
  simp only [completes, Bool.and_eq_true, Bool.not_eq_true'] at hc
  cases hl : s.inFlight with
  | nil =>
      rw [hl] at hc
      cases hc.2
  | cons q l => simp

theorem completed_inFlight_next :
    (s.next p.toSplitParams i).completed ++ (s.next p.toSplitParams i).inFlight
      = issuedAfter p s.mid (s.splitIn i) (s.completed ++ s.inFlight) := by
  rw [next_completed, next_inFlight]
  show _ = (s.completed ++ s.inFlight) ++
    (if (fsm p s i).valid && i.ready then [(fsm p s i).burstReq] else [])
  cases s.completes i with
  | false => simp
  | true =>
      simp only [if_true, List.append_assoc]
      rw [← List.append_assoc (List.take 1 _), ← List.drop_one, List.take_append_drop]

theorem Tracks.next (h : Tracks s) : Tracks (s.next p.toSplitParams i) where
  issued := by
    rw [completed_inFlight_next]
    exact h.issued.step
  count := by
    rw [next_numTrans, h.count, numTransD_ofNat _ _ _ inFlight_pos, next_inFlight, fsm_reqValid]
    congr 1
    rw [List.length_append]
    congr 1
    · split <;> simp
    · cases (fsm p s i).valid && i.ready <;> rfl

/-- The midend reports completion when its counter goes from one to zero. -/
theorem pulse (h : (s.next p.toSplitParams i).metaQ.transComplete = true) :
    s.mid.numTrans = 1 ∧ s.completes i = true ∧
      ¬ (i.ready = true ∧ (s.mid.phase = .busy ∨ F.valid s.spill = true)) := by
  rw [next_metaQ, Bool.and_eq_true, beq_iff_eq, beq_iff_eq] at h
  obtain ⟨hone, hzero⟩ := h
  rw [hone] at hzero
  obtain ⟨hreq, hcomp⟩ := numTransD_zero _ _ hzero
  refine ⟨hone, hcomp, ?_⟩
  rintro ⟨hr, hbusy⟩
  rw [fsm_reqValid, fsm_valid.mpr hbusy, hr] at hreq
  cases hreq

/-! ## From launch to completion -/

theorem front_programmed (t : Nat) :
    (after p.toSplitParams inp t : LaunchState F).front.burstReq = programmed inp t := by
  have hregs : ∀ t, (after p.toSplitParams inp t : LaunchState F).front.srcAddr
        = lastWrite inp .srcAddr t ∧
      (after p.toSplitParams inp t : LaunchState F).front.dstAddr = lastWrite inp .dstAddr t ∧
      (after p.toSplitParams inp t : LaunchState F).front.numBytes
        = lastWrite inp .numBytes t := by
    intro t
    induction t with
    | zero => exact ⟨rfl, rfl, rfl⟩
    | succ t ih =>
        obtain ⟨hsrc, hdst, hnum⟩ := ih
        simp only [after, LaunchState.next, FrontendState.next, lastWrite, hsrc, hdst, hnum]
        cases (inp t).access with
        | none => exact ⟨rfl, rfl, rfl⟩
        | some q => exact ⟨rfl, rfl, rfl⟩
  obtain ⟨hsrc, hdst, hnum⟩ := hregs t
  simp only [FrontendState.burstReq, programmed, hsrc, hdst, hnum]

/-- A queue that is read by the midend: what leaves it is handed over. -/
theorem handed_contents_next :
    (s.next p.toSplitParams i).handed ++ F.contents (s.next p.toSplitParams i).spill
      = (s.handed ++ F.contents s.spill) ++
        (if i.reads .nextId && F.ready s.spill then [s.front.burstReq] else []) := by
  rw [next_handed, next_contents]
  cases hv : F.valid s.spill with
  | false => simp
  | true =>
      rw [F.valid_eq] at hv
      cases hc : F.contents s.spill with
      | nil =>
          rw [hc] at hv
          cases hv
      | cons x l =>
          have hdata : F.data s.spill = x := F.data_eq s.spill x (by rw [hc]; rfl)
          cases (fsm p s i).ready <;> simp [hdata]

/-- What holds in a run of orderly cycles: no launch is missing, and while the
flag is up or on its way the path is empty. -/
structure Sound (inp : Nat → LaunchIn) (t : Nat) (s : LaunchState F) : Prop where
  tracks : Tracks s
  launched : launched inp t = s.handed ++ F.contents s.spill
  flag : s.front.transComplete = true → Quiet s
  flagNext : s.metaQ.transComplete = true → Quiet s

theorem Quiet.next (h : Quiet s) (hlaunch : i.reads .nextId = false) :
    Quiet (s.next p.toSplitParams i) := by
  have hv : F.valid s.spill = false := by rw [F.valid_eq, h.spill]; rfl
  have hfsm : (fsm p s i).valid = false := by
    rw [← Bool.not_eq_true, fsm_valid, h.phase, hv]
    simp
  refine ⟨?_, ?_, ?_⟩
  · rw [next_inFlight, hfsm, h.inFlight]
    simp
  · show (fsm p s i).phase = .idle
    simp [fsm, SplitParams.splitFsm, h.phase, hv]
  · rw [next_contents, hv, hlaunch, h.spill]
    rfl

/-- The cycle in which the counter falls to zero leaves nothing behind. -/
theorem Orderly.quiet (ho : Orderly s i)
    (h : (s.next p.toSplitParams i).metaQ.transComplete = true) :
    Quiet (s.next p.toSplitParams i) ∧ i.reads .nextId = false := by
  obtain ⟨hone, hcomp, hstall⟩ := pulse h
  obtain ⟨hlen, hph, hv, hlaunch⟩ := ho.settled hone hcomp hstall
  have hfsm : (fsm p s i).valid = false := by
    rw [← Bool.not_eq_true, fsm_valid, hph, hv]
    simp
  have hcont : F.contents s.spill = [] := by
    have := F.valid_eq s.spill
    rw [hv] at this
    simpa using this.symm
  refine ⟨⟨?_, ?_, ?_⟩, hlaunch⟩
  · rw [next_inFlight, hcomp, hfsm]
    obtain ⟨q, hq⟩ := List.length_eq_one_iff.mp hlen
    rw [hq]
    rfl
  · show (fsm p s i).phase = .idle
    simp [fsm, SplitParams.splitFsm, hph, hv]
  · rw [next_contents, hv, hlaunch, hcont]
    rfl

theorem Sound.next {t : Nat} (hfront : s.front.burstReq = programmed inp t)
    (ho : Orderly s (inp t)) (h : Sound inp t s) :
    Sound inp (t + 1) (s.next p.toSplitParams (inp t)) where
  tracks := h.tracks.next
  launched := by
    rw [handed_contents_next, ← h.launched, hfront]
    show Dma.launched inp t ++ _ = _
    cases hl : (inp t).reads .nextId with
    | false => rfl
    | true => rw [ho.room hl]; rfl
  flag := by
    intro hflag
    have hd : s.front.transCompleteD ((inp t).reads .nextId) s.metaQ.transComplete = true := hflag
    rw [FrontendState.transCompleteD] at hd
    split at hd
    · cases hd
    · rename_i hlaunch
      rw [Bool.not_eq_true] at hlaunch
      split at hd
      · rename_i hmeta
        exact (h.flagNext hmeta).next hlaunch
      · exact (h.flag hd).next hlaunch
  flagNext := fun hmeta => (ho.quiet hmeta).1

theorem sound_after (ho : ∀ t, Orderly (after p.toSplitParams inp t : LaunchState F) (inp t))
    (t : Nat) : Sound inp t (after p.toSplitParams inp t : LaunchState F) := by
  induction t with
  | zero =>
      refine ⟨⟨.idle rfl .nil, rfl⟩, ?_, (fun h => by cases h), (fun h => by cases h)⟩
      show [] = [] ++ F.contents F.reset
      rw [F.contents_reset]
      rfl
  | succ t ih => exact ih.next (front_programmed t) (ho t)

theorem Sound.finished {t : Nat} (h : Sound inp t s) (hq : Quiet s) :
    CarriesOut (Dma.launched inp t) s.completed := by
  rw [h.launched, hq.spill, List.append_nil]
  cases h.tracks.issued with
  | idle hph hall =>
      rw [hq.inFlight, List.append_nil] at hall
      exact hall
  | busy req done subs begun off hoff hph =>
      rw [hq.phase] at hph
      cases hph

theorem rdata_done {q : RegReq} (hq : q.re .done = true) :
    s.rdata q = BitVec.ofNat 32 s.front.transComplete.toNat := by
  have haddr : q.addr = FrontendReg.done.offset := by
    simp only [RegReq.re, RegReq.addrHit, Bool.and_eq_true, beq_iff_eq] at hq
    exact hq.1
  simp [rdata, FrontendState.regRdata, RegReq.addrHit, haddr, FrontendReg.offset]

end LaunchState

/-- In a run of orderly cycles every read of `NEXT_ID` hands over the programmed
transfer, once and in order: it waits in the spill register or the midend has
acknowledged it. And when a read of `DONE` returns one, the completed
sub-requests carry out all transfers launched before. -/
theorem dma_launch_done (F : StreamFifo DmaReq 2) (p : SplitConfig) (inp : Nat → LaunchIn)
    (ho : ∀ t, (LaunchState.after p.toSplitParams inp t : LaunchState F).Orderly (inp t))
    (t : Nat) :
    launched inp t = (LaunchState.after p.toSplitParams inp t : LaunchState F).handed ++
        F.contents (LaunchState.after p.toSplitParams inp t : LaunchState F).spill ∧
    ∀ q, (inp t).access = some q → q.re .done = true →
      (LaunchState.after p.toSplitParams inp t : LaunchState F).rdata q = 1 →
      CarriesOut (launched inp t)
        (LaunchState.after p.toSplitParams inp t : LaunchState F).completed := by
  have hsound := LaunchState.sound_after ho t
  refine ⟨hsound.launched, ?_⟩
  intro q _ hre hone
  rw [LaunchState.rdata_done hre] at hone
  cases hflag : (LaunchState.after p.toSplitParams inp t : LaunchState F).front.transComplete with
  | false =>
      rw [hflag] at hone
      exact absurd hone (by decide)
  | true => exact hsound.finished (hsound.flag hflag)

/-! ## On minpool -/

instance : Inhabited DmaReq := ⟨.zero⟩

def writeReg (r : FrontendReg) (w : BitVec 32) : Option RegReq :=
  some { addr := r.offset, write := true, wdata := w, wstrb := 0b1111 }

def readReg (r : FrontendReg) : Option RegReq :=
  some { addr := r.offset, write := false, wdata := 0, wstrb := 0 }

/-- The first cycles of a run as a list; nothing happens afterwards. -/
def launchRun (cycles : List LaunchIn) (t : Nat) : LaunchIn :=
  cycles.getD t { access := none, ready := true, complete := false, backendIdle := true }

/-- Program a transfer, with downstream busy. -/
def program (dst numBytes : BitVec 32) : List LaunchIn :=
  [ { access := writeReg .srcAddr 0x80000000#32, ready := false, complete := false
      backendIdle := true },
    { access := writeReg .dstAddr dst, ready := false, complete := false, backendIdle := true },
    { access := writeReg .numBytes numBytes, ready := false, complete := false
      backendIdle := true } ]

/-- Three launches in a row while downstream is busy. -/
def threeLaunches : Nat → LaunchIn := launchRun <| program 0#32 64#32 ++ List.replicate 3
  { access := readReg .nextId, ready := false, complete := false, backendIdle := false }

/-- A transfer cut in two, whose first part completes before the second is taken. -/
def slowSecondPart : Nat → LaunchIn := launchRun <| program 40#32 300#32 ++
  [ { access := readReg .nextId, ready := false, complete := false, backendIdle := true },
    { access := none, ready := true, complete := false, backendIdle := true },
    { access := none, ready := false, complete := true, backendIdle := false },
    { access := none, ready := false, complete := false, backendIdle := false },
    { access := readReg .done, ready := false, complete := false, backendIdle := false } ]

/-- A transfer that needs no cutting, waited for. -/
def oneTransfer : Nat → LaunchIn := launchRun <| program 0#32 64#32 ++
  [ { access := readReg .nextId, ready := true, complete := false, backendIdle := true },
    { access := none, ready := true, complete := false, backendIdle := true },
    { access := none, ready := true, complete := true, backendIdle := false },
    { access := none, ready := true, complete := false, backendIdle := true },
    { access := readReg .done, ready := true, complete := false, backendIdle := true } ]

def minpoolLaunch (inp : Nat → LaunchIn) (t : Nat) :
    LaunchState (StreamFifo.list DmaReq 2) :=
  LaunchState.after minpoolSplit.toSplitParams inp t

theorem CarriesOut.numBytes {reqs subs : List DmaReq} (h : CarriesOut reqs subs) :
    (subs.map (·.numBytes.toNat)).sum = (reqs.map (·.numBytes.toNat)).sum := by
  have hlen : ∀ l : List DmaReq, (l.flatMap DmaReq.bytes).length
      = (l.map (·.numBytes.toNat)).sum := by
    intro l
    simp [List.length_flatMap, DmaReq.bytes, span]
  obtain ⟨groups, rfl, hall⟩ := h
  induction hall with
  | nil => rfl
  | @cons req g reqs groups hg _ ih =>
      rw [List.flatten_cons, List.map_append, List.sum_append, ih, ← hlen g, hg.2]
      simp [DmaReq.bytes, span]

theorem dma_launch_lost_done_early :
    launched threeLaunches 6 ≠ (minpoolLaunch threeLaunches 6).handed ++
        (StreamFifo.list DmaReq 2).contents (minpoolLaunch threeLaunches 6).spill ∧
    ∃ q, (slowSecondPart 7).access = some q ∧ q.re .done = true ∧
      (minpoolLaunch slowSecondPart 7).rdata q = 1 ∧
      ¬ CarriesOut (launched slowSecondPart 7) (minpoolLaunch slowSecondPart 7).completed := by
  refine ⟨by decide, _, rfl, by decide, by decide, ?_⟩
  intro h
  exact absurd h.numBytes (by decide)

theorem dma_launch_done_oneTransfer :
    (∃ q, (oneTransfer 7).access = some q ∧ (minpoolLaunch oneTransfer 7).rdata q = 1) ∧
    CarriesOut (launched oneTransfer 7) (minpoolLaunch oneTransfer 7).completed := by
  refine ⟨⟨_, rfl, by decide⟩, ?_⟩
  refine (dma_launch_done (StreamFifo.list DmaReq 2) minpoolSplit oneTransfer ?_ 7).2 _ rfl
    (by decide) (by decide)
  intro t
  rcases Nat.lt_or_ge t 8 with h | h
  · refine ⟨?_, ?_⟩
    · interval_cases t <;> decide
    · interval_cases t <;> decide
  · have hin : oneTransfer t
        = { access := none, ready := true, complete := false, backendIdle := true } :=
      List.getD_eq_default _ _ h
    refine ⟨?_, ?_⟩
    · rw [hin]
      exact fun h => by cases h
    · rw [hin]
      exact fun _ h => by cases h

end TeraNoC.Dma
