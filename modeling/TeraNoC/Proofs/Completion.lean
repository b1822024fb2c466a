import Mathlib.Data.Nat.Count
import TeraNoC.Dma.Completion

/-!
# When no completion is lost or invented

A queue of completions only counts, it does not know which request an entry is for. So the
midend is right as long as each port reports its slices in the order in which it has taken them.
A backend does, and what can go wrong is a slice that is tied off while the backend of the same
port still works on an earlier one: its entry is taken for the earlier one's. Without that, what
has been reported at a port is always a beginning of the requests (`PortInv.last`), and the
queues of all ports have an entry for the same request.
-/

namespace TeraNoC.Dma

open TeraNoC.Lib

/-! ## What has been completed -/

namespace DistParams

section Ports

variable {ports depth : Nat} {F : MidendCells ports depth}

/-- Port `i` has taken its slice of the current request. -/
def forkDone (s : MidendState F) (i : Nat) : Bool := F.fork.done s.fork i

/-- How many slices port `i` has taken: those of the accepted requests, and perhaps that of the
next one. -/
def slices (s : MidendState F) (i : Nat) : Nat := s.accepted + (forkDone s i).toNat

/-- How many slices the backend of port `i` works on. -/
def working (s : MidendState F) (i : Nat) : Nat := s.taken i - s.completed i

end Ports

variable (p : DistParams) {depth : Nat} {F : MidendCells p.noMstPorts depth}

/-- The slice of request `k` at port `i` is complete: its backend has completed as many slices
as it had taken before this one, and this one, or the port has no part in it and has taken it. -/
def sliceDone (reqs : Nat → DmaReq) (s : MidendState F) (k i : Nat) : Bool :=
  if p.portValid (reqs k) i then
    decide (Nat.count (fun j => p.portValid (reqs j) i = true) k < s.completed i)
  else decide (k < s.accepted + (forkDone s i).toNat)

/-- The number of accepted requests all of whose slices are complete. -/
def completeRequests (reqs : Nat → DmaReq) (s : MidendState F) : Nat :=
  Nat.count (fun k => ∀ i < p.noMstPorts, p.sliceDone reqs s k i = true) s.accepted

/-- A backend completes only what it has taken in an earlier cycle. -/
def BackendsHonest (F : MidendCells p.noMstPorts depth) (reqs : Nat → DmaReq)
    (x : Nat → MidendIn) : Prop :=
  ∀ t i, (x t).transComplete i = true →
    (p.midendAfter F reqs x t).completed i < (p.midendAfter F reqs x t).taken i

/-- There are always fewer requests in flight than the queues have room for. -/
def FewInFlight (F : MidendCells p.noMstPorts depth) (reqs : Nat → DmaReq)
    (x : Nat → MidendIn) : Prop :=
  ∀ t, (p.midendAfter F reqs x t).accepted < (p.midendAfter F reqs x t).reported + depth

/-- In state `s` no slice is tied off that would overtake one its port's backend works on. -/
def NoOvertaking (reqs : Nat → DmaReq) (s : MidendState F) (x : MidendIn) : Prop :=
  ∀ i < p.noMstPorts, p.injects reqs s x i = true →
    s.taken i ≤ s.completed i + (x.transComplete i).toNat

/-! ## The invariant of a port -/

structure PortInv (reqs : Nat → DmaReq) (s : MidendState F) (i : Nat) : Prop where
  ones : ∀ b ∈ F.fifo.contents (s.transCompleteFifo i), b = true
  count : (F.fifo.contents (s.transCompleteFifo i)).length + s.reported + (s.tieOff i).toNat
    + working s i = slices s i
  le : s.completed i ≤ s.taken i
  idle : s.tieOff i = true → s.completed i = s.taken i
  taken : s.taken i = Nat.count (fun j => p.portValid (reqs j) i = true) (slices s i)
  /-- What the backend works on was taken last. -/
  last : ∀ k < slices s i, slices s i ≤ k + working s i → p.portValid (reqs k) i = true

structure MidendInv (reqs : Nat → DmaReq) (s : MidendState F) : Prop where
  port : ∀ i < p.noMstPorts, p.PortInv reqs s i
  waits : ∃ i < p.noMstPorts, forkDone s i = false

end DistParams

section Step

variable {p : DistParams} {depth i k : Nat} {F : MidendCells p.noMstPorts depth}
  {reqs : Nat → DmaReq} {s : MidendState F} {x : MidendIn}

open DistParams

theorem fifo_next_ones {f : F.fifo.State} (h : ∀ b ∈ F.fifo.contents f, b = true)
    (push pop : Bool) :
    ∀ b ∈ F.fifo.contents (F.fifo.next f push true pop), b = true := by
  intro b hb
  rw [F.fifo.contents_next] at hb
  rcases List.mem_append.mp hb with hb | hb
  · split at hb
    · exact h b (List.mem_of_mem_tail hb)
    · exact h b hb
  · split at hb
    · exact List.mem_singleton.mp hb
    · cases hb

/-- A queue that is not popped when empty nor pushed when full counts. -/
theorem fifo_next_length {f : F.fifo.State} {push pop : Bool}
    (hpop : pop = true → 0 < (F.fifo.contents f).length)
    (hpush : push = true → (F.fifo.contents f).length < depth) :
    (F.fifo.contents (F.fifo.next f push true pop)).length + pop.toNat
      = (F.fifo.contents f).length + push.toNat := by
  have htail : (if F.fifo.valid f && pop then (F.fifo.contents f).tail
      else F.fifo.contents f).length + pop.toNat
      = (F.fifo.contents f).length := by
    cases pop with
    | false => rw [Bool.and_false, if_neg Bool.false_ne_true, Bool.toNat_false, Nat.add_zero]
    | true =>
        have hlen := hpop rfl
        have hvalid : F.fifo.valid f = true := by
          rw [F.fifo.valid_eq]
          cases hl : F.fifo.contents f with
          | nil => rw [hl] at hlen; cases hlen
          | cons b l => rfl
        rw [hvalid, Bool.and_true, if_pos rfl, List.length_tail, Bool.toNat_true]
        omega
  have hadd : (if push && F.fifo.ready f then [true] else []).length = push.toNat := by
    cases push with
    | false => rfl
    | true =>
        rw [F.fifo.ready_eq, decide_eq_true (hpush rfl)]
        rfl
  rw [F.fifo.contents_next, List.length_append, hadd]
  omega

/-- An output of the fork that takes its slice has not taken it yet. -/
theorem forkTakes_done (h : p.forkTakes reqs s x i = true) : forkDone s i = false :=
  (StreamFork.takes_iff.mp h).2.1

theorem slices_next (hi : i < p.noMstPorts) :
    slices (p.midendNext reqs s x) i = slices s i + (p.forkTakes reqs s x i).toNat :=
  (StreamFork.count (List.mem_range.mpr hi) s.accepted).symm

/-- A slice is tied off, or taken by the backend. -/
theorem injects_eq : p.injects reqs s x i
    = (p.forkTakes reqs s x i && !p.portValid (burstReq reqs s) i) := by
  rw [injects, forkTakes, StreamFork.takes, forkOutReady, forkValid]
  cases p.portValid (burstReq reqs s) i with
  | true => rw [Bool.not_true, Bool.and_false, Bool.and_false]
  | false => rw [if_neg Bool.false_ne_true, Bool.and_true, Bool.not_false, Bool.and_true]

/-- `meta_o.trans_complete` needs an entry in every queue. -/
theorem transCompleteO_pos (hi : i < p.noMstPorts) (h : p.transCompleteO s = true) :
    0 < (F.fifo.contents (s.transCompleteFifo i)).length := by
  rw [transCompleteO, List.all_eq_true] at h
  have hq := h i (List.mem_range.mpr hi)
  rw [transCompleteQ, Bool.and_eq_true, F.fifo.valid_eq, Bool.not_eq_true',
    List.isEmpty_eq_false_iff] at hq
  exact List.length_pos_of_ne_nil hq.2

/-- When the queues of all ports hold an entry, the midend reports. -/
theorem transCompleteO_of_pos
    (h : ∀ i < p.noMstPorts, 0 < (F.fifo.contents (s.transCompleteFifo i)).length ∧
      ∀ b ∈ F.fifo.contents (s.transCompleteFifo i), b = true) : p.transCompleteO s = true := by
  rw [transCompleteO, List.all_eq_true]
  intro i hi
  obtain ⟨hlen, hones⟩ := h i (List.mem_range.mp hi)
  obtain ⟨b, l, hl⟩ := List.exists_cons_of_length_pos hlen
  have hdata : F.fifo.data (s.transCompleteFifo i) = true := by
    rw [F.fifo.data_eq _ b (by rw [hl]; rfl)]
    exact hones b (by rw [hl]; exact List.mem_cons_self)
  rw [transCompleteQ, hdata, F.fifo.valid_eq, hl]
  rfl

/-- The entries a port has and the slices it still works on are those it has taken; so a queue
is not pushed when it is full. -/
theorem DistParams.PortInv.push_lt (h : p.PortInv reqs s i)
    (hhonest : x.transComplete i = true → s.completed i < s.taken i)
    (hfew : s.accepted < s.reported + depth) (hpush : transCompleteD s x i = true) :
    (F.fifo.contents (s.transCompleteFifo i)).length < depth := by
  have hcount := h.count
  have hdone := Bool.toNat_le (forkDone s i)
  have hpending : 0 < (s.tieOff i).toNat + working s i := by
    rw [transCompleteD, Bool.or_eq_true] at hpush
    rcases hpush with hcomplete | htie
    · have := hhonest hcomplete
      rw [working]
      omega
    · rw [htie, Bool.toNat_true]
      omega
  rw [slices] at hcount
  omega

theorem DistParams.PortInv.next (h : p.PortInv reqs s i) (hi : i < p.noMstPorts)
    (hhonest : x.transComplete i = true → s.completed i < s.taken i)
    (hfew : s.accepted < s.reported + depth)
    (horder : p.injects reqs s x i = true →
      s.taken i ≤ s.completed i + (x.transComplete i).toNat) :
    p.PortInv reqs (p.midendNext reqs s x) i := by
  have hle := h.le
  have hslices : slices (p.midendNext reqs s x) i = _ := slices_next hi
  -- a tied-off slice is reported while the backend is idle, so nothing is held back
  have hheld : (s.tieOff i && x.transComplete i) = false := by
    cases htie : s.tieOff i with
    | false => rfl
    | true =>
        rw [Bool.true_and, Bool.eq_false_iff]
        intro hcomplete
        have := h.idle htie
        have := hhonest hcomplete
        omega
  have htie : (p.midendNext reqs s x).tieOff i = p.injects reqs s x i := by
    show (if p.injects reqs s x i then true else s.tieOff i && x.transComplete i) = _
    rw [hheld]
    cases p.injects reqs s x i <;> rfl
  have hpush : (transCompleteD s x i).toNat
      = (x.transComplete i).toNat + (s.tieOff i).toNat := by
    rw [transCompleteD]
    cases hcomplete : x.transComplete i with
    | false => rw [Bool.false_or, Bool.toNat_false, Nat.zero_add]
    | true =>
        rw [hcomplete, Bool.and_true] at hheld
        rw [hheld]
        rfl
  have hcomplete : (x.transComplete i).toNat ≤ working s i := by
    rw [working]
    cases hc : x.transComplete i with
    | false => exact Nat.zero_le _
    | true =>
        have := hhonest hc
        rw [Bool.toNat_true]
        omega
  have hsplit : (p.forkTakes reqs s x i).toNat = (p.injects reqs s x i).toNat
      + (p.forkTakes reqs s x i && p.portValid (burstReq reqs s) i).toNat := by
    rw [injects_eq]
    cases p.forkTakes reqs s x i <;> cases p.portValid (burstReq reqs s) i <;> rfl
  have hworking : working (p.midendNext reqs s x) i + (x.transComplete i).toNat = working s i
      + (p.forkTakes reqs s x i && p.portValid (burstReq reqs s) i).toNat := by
    show s.taken i + (p.forkTakes reqs s x i && p.portValid (burstReq reqs s) i).toNat
      - (s.completed i + (x.transComplete i).toNat) + _ = _
    rw [working] at hcomplete ⊢
    omega
  have hbefore : p.forkTakes reqs s x i = true → slices s i = s.accepted := by
    intro htakes
    rw [slices, forkTakes_done htakes]
    rfl
  have hdrained : p.injects reqs s x i = true → working (p.midendNext reqs s x) i = 0 := by
    intro hinjects
    have hidle : working s i ≤ (x.transComplete i).toNat := by
      have := horder hinjects
      rw [working]
      omega
    have := Bool.toNat_le (p.forkTakes reqs s x i)
    rw [hinjects, Bool.toNat_true] at hsplit
    omega
  have hle' : (p.midendNext reqs s x).completed i ≤ (p.midendNext reqs s x).taken i := by
    show s.completed i + (x.transComplete i).toNat ≤ s.taken i + _
    rw [working] at hcomplete
    omega
  refine ⟨fifo_next_ones h.ones _ _, ?_, hle', fun htied => ?_, ?_, ?_⟩
  · have hlen : _ + (p.transCompleteO s).toNat = _ :=
      fifo_next_length (transCompleteO_pos hi) (h.push_lt hhonest hfew)
    have hcount := h.count
    rw [hslices, htie]
    show _ + (s.reported + (p.transCompleteO s).toNat) + _ + _ = _
    have hfifo : (p.midendNext reqs s x).transCompleteFifo i = F.fifo.next (s.transCompleteFifo i)
      (transCompleteD s x i) true (p.transCompleteO s) := rfl
    rw [hfifo]
    omega
  · rw [htie] at htied
    have := hdrained htied
    rw [working] at this
    omega
  · rw [hslices]
    show s.taken i + _ = _
    rw [h.taken]
    cases htakes : p.forkTakes reqs s x i with
    | false => rfl
    | true =>
        rw [Bool.toNat_true, Nat.count_succ, hbefore htakes, Bool.true_and, burstReq]
        cases p.portValid (reqs s.accepted) i <;> rfl
  · intro k hk hlast
    rw [hslices] at hk hlast
    cases hinjects : p.injects reqs s x i with
    | true =>
        have := hdrained hinjects
        omega
    | false =>
        rw [hinjects, Bool.toNat_false] at hsplit
        by_cases hold : k < slices s i
        · exact h.last k hold (by omega)
        · -- the slice just taken, which was not tied off
          cases htakes : p.forkTakes reqs s x i with
          | false =>
              rw [htakes, Bool.toNat_false] at hk
              omega
          | true =>
              rw [htakes, Bool.toNat_true] at hk
              obtain rfl : k = s.accepted := by
                have := hbefore htakes
                omega
              rw [injects_eq, htakes, Bool.true_and, Bool.not_eq_false'] at hinjects
              exact hinjects

/-- A request that is offered still waits for a port. -/
theorem waits_next (h : ∃ i < p.noMstPorts, forkDone s i = false) :
    ∃ i < p.noMstPorts, forkDone (p.midendNext reqs s x) i = false := by
  obtain ⟨i, hi, hwait⟩ := h
  obtain ⟨i', hi', hwait'⟩ := StreamFork.exists_open ⟨i, List.mem_range.mpr hi, hwait⟩
  exact ⟨i', List.mem_range.mp hi', hwait'⟩

theorem DistParams.MidendInv.next (h : p.MidendInv reqs s)
    (hhonest : ∀ i, x.transComplete i = true → s.completed i < s.taken i)
    (hfew : s.accepted < s.reported + depth) (horder : p.NoOvertaking reqs s x) :
    p.MidendInv reqs (p.midendNext reqs s x) :=
  ⟨fun i hi => (h.port i hi).next hi (hhonest i) hfew (horder i hi), waits_next h.waits⟩

/-- What a port has reported is a beginning of the requests. -/
theorem DistParams.PortInv.sliceDone_iff (h : p.PortInv reqs s i) (hk : k < s.accepted) :
    p.sliceDone reqs s k i = true ↔ k + working s i < slices s i := by
  have hle : working s i ≤ slices s i := by
    have := h.count
    omega
  have hlt : k < slices s i := by
    rw [slices]
    omega
  rw [sliceDone]
  cases hvalid : p.portValid (reqs k) i with
  | false =>
      rw [if_neg Bool.false_ne_true]
      refine ⟨fun _ => ?_, fun _ => decide_eq_true hlt⟩
      by_contra hlast
      rw [h.last k hlt (by omega)] at hvalid
      cases hvalid
  | true =>
      have hcompleted : s.completed i
          = Nat.count (fun j => p.portValid (reqs j) i = true) (slices s i - working s i) := by
        have hsum := Nat.count_add (fun j => p.portValid (reqs j) i = true)
          (slices s i - working s i) (working s i)
        rw [Nat.sub_add_cancel hle, ← h.taken, Nat.count_of_forall fun j hj =>
          h.last (slices s i - working s i + j) (by omega) (by omega)] at hsum
        have := h.le
        rw [working] at hsum ⊢
        omega
      rw [if_pos rfl, decide_eq_true_iff, hcompleted]
      constructor
      · intro hcount
        by_contra hge
        have := Nat.count_monotone (fun j => p.portValid (reqs j) i = true)
          (show slices s i - working s i ≤ k by omega)
        omega
      · exact fun hlast => Nat.count_strict_mono hvalid (by omega)

/-- Nothing is reported that is not complete. -/
theorem DistParams.MidendInv.reported_le (h : p.MidendInv reqs s) :
    s.reported ≤ p.completeRequests reqs s := by
  have haccepted : s.reported ≤ s.accepted := by
    obtain ⟨i, hi, hwait⟩ := h.waits
    have hcount := (h.port i hi).count
    rw [slices, hwait, Bool.toNat_false] at hcount
    omega
  have hall : Nat.count (fun k => ∀ i < p.noMstPorts, p.sliceDone reqs s k i = true) s.reported
      = s.reported := by
    refine Nat.count_of_forall fun k hk i hi => ?_
    have hcount := (h.port i hi).count
    exact ((h.port i hi).sliceDone_iff (by omega)).mpr (by omega)
  calc s.reported = _ := hall.symm
    _ ≤ p.completeRequests reqs s := Nat.count_monotone _ haccepted

/-- A cycle in which nothing is offered. -/
theorem forkValidI_of_not_valid (hvalid : x.valid = false) : p.forkValidI s x = false := by
  rw [forkValidI, hvalid]
  rfl

theorem accepted_next_of_not_valid (hvalid : x.valid = false) :
    (p.midendNext reqs s x).accepted = s.accepted := by
  show s.accepted + (p.accepts reqs s x).toNat = _
  rw [accepts, F.fork.ready_eq, forkValidI_of_not_valid hvalid]
  rfl

theorem forkTakes_of_not_valid (hvalid : x.valid = false) : p.forkTakes reqs s x i = false := by
  rw [forkTakes, StreamFork.takes, F.fork.valid_eq, forkValidI_of_not_valid hvalid]
  rfl

theorem injects_of_not_valid (hvalid : x.valid = false) : p.injects reqs s x i = false := by
  rw [injects_eq, forkTakes_of_not_valid hvalid]
  rfl

/-- A cycle in which nothing is offered and the backend of the port completes nothing. -/
theorem next_of_not_valid (hvalid : x.valid = false) (hcomplete : x.transComplete i = false) :
    (p.midendNext reqs s x).completed i = s.completed i ∧
      (p.midendNext reqs s x).taken i = s.taken i ∧ (p.midendNext reqs s x).tieOff i = false := by
  refine ⟨?_, ?_, ?_⟩
  · show s.completed i + (x.transComplete i).toNat = _
    rw [hcomplete]
    rfl
  · show s.taken i + (p.forkTakes reqs s x i && p.portValid (burstReq reqs s) i).toNat = _
    rw [forkTakes_of_not_valid hvalid]
    rfl
  · show p.tieOffD reqs s x i = false
    rw [tieOffD, injects_of_not_valid hvalid, hcomplete, Bool.and_false]
    rfl

end Step

section Run

variable {p : DistParams} {depth t : Nat} {F : MidendCells p.noMstPorts depth}
  {reqs : Nat → DmaReq} {x : Nat → MidendIn}

open DistParams

theorem midendInv_after (hpos : 0 < p.noMstPorts) (hhonest : p.BackendsHonest F reqs x)
    (hfew : p.FewInFlight F reqs x)
    (horder : ∀ t, p.NoOvertaking reqs (p.midendAfter F reqs x t) (x t)) (t : Nat) :
    p.MidendInv reqs (p.midendAfter F reqs x t) := by
  induction t with
  | zero =>
      have hslices : ∀ i, slices (p.midendAfter F reqs x 0) i = 0 := fun i =>
        (Nat.zero_add _).trans (congrArg Bool.toNat (F.fork.done_reset i))
      refine ⟨fun i _ => ⟨?_, ?_, Nat.le_refl _, fun h => (by cases h), ?_, ?_⟩, 0, hpos,
        F.fork.done_reset 0⟩
      · intro b hb
        rw [midendAfter, MidendState.reset, F.fifo.contents_reset] at hb
        cases hb
      · rw [hslices, midendAfter, MidendState.reset, F.fifo.contents_reset]
        rfl
      · rw [hslices]
        rfl
      · intro k hk
        rw [hslices] at hk
        cases hk
  | succ t ih => exact ih.next (hhonest t) (hfew t) (horder t)

/-- From time `t` on nothing is offered, and no backend has anything left to do. -/
structure Quiet (p : DistParams) (F : MidendCells p.noMstPorts depth) (reqs : Nat → DmaReq)
    (x : Nat → MidendIn) (t : Nat) : Prop where
  valid : ∀ u, t ≤ u → (x u).valid = false
  idle : ∀ i < p.noMstPorts, (p.midendAfter F reqs x t).completed i
    = (p.midendAfter F reqs x t).taken i

/-- Then the registers in front of the queues stand still, and empty one cycle later. -/
theorem Quiet.still (h : Quiet p F reqs x t) (hhonest : p.BackendsHonest F reqs x) (d : Nat) :
    (p.midendAfter F reqs x (t + d)).accepted = (p.midendAfter F reqs x t).accepted ∧
      ∀ i < p.noMstPorts,
        (p.midendAfter F reqs x (t + d)).completed i = (p.midendAfter F reqs x (t + d)).taken i ∧
        (0 < d → (p.midendAfter F reqs x (t + d)).tieOff i = false) := by
  induction d with
  | zero => exact ⟨rfl, fun i hi => ⟨h.idle i hi, fun hd => absurd hd (Nat.lt_irrefl 0)⟩⟩
  | succ d ih =>
      obtain ⟨haccepted, hidle⟩ := ih
      have hvalid := h.valid (t + d) (by omega)
      refine ⟨(accepted_next_of_not_valid hvalid).trans haccepted, fun i hi => ?_⟩
      have hcomplete : (x (t + d)).transComplete i = false := by
        rw [Bool.eq_false_iff]
        intro hc
        have := hhonest (t + d) i hc
        have := (hidle i hi).1
        omega
      have hnext : (p.midendNext reqs
          (p.midendAfter F reqs x (t + d)) (x (t + d))).completed i = _ ∧
          _ := next_of_not_valid hvalid hcomplete
      obtain ⟨hc, ht, htie⟩ := hnext
      exact ⟨hc.trans ((hidle i hi).1.trans ht.symm), fun _ => htie⟩

/-- What is not reported yet is reported in the cycles that follow, one request in each. -/
theorem Quiet.reports (h : Quiet p F reqs x t) (hpos : 0 < p.noMstPorts)
    (hhonest : p.BackendsHonest F reqs x) (hfew : p.FewInFlight F reqs x)
    (horder : ∀ t, p.NoOvertaking reqs (p.midendAfter F reqs x t) (x t)) (d : Nat) :
    (p.midendAfter F reqs x (t + 1 + d)).reported =
      min ((p.midendAfter F reqs x (t + 1)).reported + d)
        (p.midendAfter F reqs x t).accepted := by
  have hinv := midendInv_after hpos hhonest hfew horder
  -- the queue of a port holds what is accepted and not reported
  have hcount : ∀ d, ∀ i < p.noMstPorts,
      (F.fifo.contents ((p.midendAfter F reqs x (t + 1 + d)).transCompleteFifo i)).length
        + (p.midendAfter F reqs x (t + 1 + d)).reported
        = slices (p.midendAfter F reqs x (t + 1 + d)) i := by
    intro d i hi
    have hport := ((hinv (t + 1 + d)).port i hi).count
    obtain ⟨-, hidle⟩ := h.still hhonest (1 + d)
    rw [← Nat.add_assoc] at hidle
    rw [working, (hidle i hi).1, (hidle i hi).2 (by omega)] at hport
    rw [Bool.toNat_false] at hport
    omega
  have haccepted : ∀ d, (p.midendAfter F reqs x (t + 1 + d)).accepted
      = (p.midendAfter F reqs x t).accepted := by
    intro d
    rw [Nat.add_assoc]
    exact (h.still hhonest (1 + d)).1
  have hle : ∀ d, (p.midendAfter F reqs x (t + 1 + d)).reported
      ≤ (p.midendAfter F reqs x t).accepted := by
    intro d
    obtain ⟨i, hi, hwait⟩ := (hinv (t + 1 + d)).waits
    have := hcount d i hi
    rw [slices, hwait, haccepted, Bool.toNat_false] at this
    omega
  induction d with
  | zero =>
      have := hle 0
      rw [Nat.add_zero] at this ⊢
      omega
  | succ d ih =>
      have hstep : (p.midendAfter F reqs x (t + 1 + (d + 1))).reported
          = (p.midendAfter F reqs x (t + 1 + d)).reported
            + (p.transCompleteO (p.midendAfter F reqs x (t + 1 + d))).toNat := rfl
      by_cases hall : (p.midendAfter F reqs x (t + 1 + d)).reported
          = (p.midendAfter F reqs x t).accepted
      · have := hle (d + 1)
        omega
      · have hsome : p.transCompleteO (p.midendAfter F reqs x (t + 1 + d)) = true := by
          refine transCompleteO_of_pos fun i hi => ⟨?_, ((hinv _).port i hi).ones⟩
          have := hcount d i hi
          have := hle d
          rw [slices, haccepted] at *
          omega
        rw [hstep, hsome, Bool.toNat_true]
        have := hle d
        omega

/-- No more requests are accepted than there are cycles in which one is offered. -/
theorem accepted_le (p : DistParams) (F : MidendCells p.noMstPorts depth) (reqs : Nat → DmaReq)
    {m : Nat} (hvalid : ∀ t, m ≤ t → (x t).valid = false) (t : Nat) :
    (p.midendAfter F reqs x t).accepted ≤ m := by
  have hbound : (p.midendAfter F reqs x t).accepted ≤ min t m := by
    induction t with
    | zero => exact Nat.zero_le _
    | succ t ih =>
        by_cases ht : m ≤ t
        · have heq : (p.midendAfter F reqs x (t + 1)).accepted = _ :=
            accepted_next_of_not_valid (hvalid t ht)
          omega
        · have heq : (p.midendAfter F reqs x (t + 1)).accepted
              = (p.midendAfter F reqs x t).accepted
                + (p.accepts reqs (p.midendAfter F reqs x t) (x t)).toNat := rfl
          have := Bool.toNat_le (p.accepts reqs (p.midendAfter F reqs x t) (x t))
          omega
  omega

end Run

/-- As long as no slice that is tied off overtakes one its port's backend still works on, no
request is reported that is not complete, and all are reported when everything is at rest. -/
theorem midend_completions (p : DistParams) (hpos : 0 < p.noMstPorts) {depth : Nat}
    (F : MidendCells p.noMstPorts depth) (reqs : Nat → DmaReq) (x : Nat → MidendIn)
    (hhonest : p.BackendsHonest F reqs x) (hfew : p.FewInFlight F reqs x)
    (horder : ∀ t, p.NoOvertaking reqs (p.midendAfter F reqs x t) (x t)) :
    (∀ t, (p.midendAfter F reqs x t).reported
        ≤ p.completeRequests reqs (p.midendAfter F reqs x t)) ∧
      ∀ t, Quiet p F reqs x t → ∃ T, ∀ u, T ≤ u →
        (p.midendAfter F reqs x u).reported = (p.midendAfter F reqs x u).accepted := by
  refine ⟨fun t => (midendInv_after hpos hhonest hfew horder t).reported_le, fun t hquiet => ?_⟩
  refine ⟨t + 1 + (p.midendAfter F reqs x t).accepted, fun u hu => ?_⟩
  have hreported := hquiet.reports hpos hhonest hfew horder (u - (t + 1))
  have haccepted := (hquiet.still hhonest (u - t)).1
  rw [Nat.add_sub_cancel' (by omega)] at hreported haccepted
  omega

/-- Two ports, each for every other word. -/
def twoPorts : DistParams where
  noMstPorts := 2
  dmaRegionWidth := 4
  dmaRegionStart := 0
  dmaRegionEnd := 0x1000

/-- A transfer of the word at `src`. -/
def wordRequest (src : Nat) : DmaReq :=
  { src := BitVec.ofNat 32 src, dst := 0x80000000, numBytes := 4 }

/-- One request for the first port, completed in cycle 3. -/
def oneRequest (t : Nat) : MidendIn where
  valid := t == 0
  ready _ := true
  transComplete i := t == 3 && i == 0

theorem midend_completions_oneRequest :
    (twoPorts.midendAfter (.list _ 16) (fun _ => wordRequest 0) oneRequest 6).reported = 1 ∧
      ∀ t, (twoPorts.midendAfter (.list _ 16) (fun _ => wordRequest 0) oneRequest t).reported
        ≤ twoPorts.completeRequests (fun _ => wordRequest 0)
          (twoPorts.midendAfter (.list _ 16) (fun _ => wordRequest 0) oneRequest t) := by
  have hvalid : ∀ t, 1 ≤ t → (oneRequest t).valid = false := by
    intro t ht
    exact beq_eq_false_iff_ne.mpr (by omega)
  refine ⟨by decide +kernel, (midend_completions twoPorts (by decide) (.list _ 16)
    (fun _ => wordRequest 0) oneRequest ?_ ?_ ?_).1⟩
  · intro t i hcomplete
    have hat : t = 3 ∧ i = 0 := by
      simpa [oneRequest] using hcomplete
    obtain ⟨rfl, rfl⟩ := hat
    decide +kernel
  · intro t
    have := accepted_le twoPorts (.list _ 16) (fun _ => wordRequest 0) hvalid t
    omega
  · intro t i hi hinjects
    by_cases ht : 1 ≤ t
    · rw [injects_of_not_valid (hvalid t ht)] at hinjects
      cases hinjects
    · obtain rfl : t = 0 := by omega
      exact Nat.zero_le _

/-- A request for each port, one after the other, which no backend completes. -/
def twoRequests (t : Nat) : MidendIn where
  valid := decide (t < 2)
  ready _ := true
  transComplete _ := false

/-- The slice of the second request that is tied off at port 0 stands in for the first one's. -/
theorem midend_reports_early :
    twoPorts.BackendsHonest (.list _ 16) (fun k => wordRequest (4 * k)) twoRequests ∧
      twoPorts.FewInFlight (.list _ 16) (fun k => wordRequest (4 * k)) twoRequests ∧
      (twoPorts.midendAfter (.list _ 16) (fun k => wordRequest (4 * k))
        twoRequests 4).reported = 1 ∧
      twoPorts.completeRequests (fun k => wordRequest (4 * k))
        (twoPorts.midendAfter (.list _ 16) (fun k => wordRequest (4 * k))
          twoRequests 4) = 0 := by
  refine ⟨fun t i hcomplete => (by cases hcomplete), fun t => ?_, by decide +kernel,
    by decide +kernel⟩
  have hvalid : ∀ t, 2 ≤ t → (twoRequests t).valid = false :=
    fun t ht => decide_eq_false (by omega)
  have := accepted_le twoPorts (.list _ 16) (fun k => wordRequest (4 * k)) hvalid t
  omega

end TeraNoC.Dma
