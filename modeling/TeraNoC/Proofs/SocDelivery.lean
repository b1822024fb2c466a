import TeraNoC.Lib.Progress
import TeraNoC.Proofs.SocPath

/-!
# Loads and stores to the SoC are delivered

In every cycle of a run each request that a core has handed over is on AXI once, and the
answers taken from AXI went to the cores of the first reads and the first writes, under
their ids (`Delivered`). Where all sides keep going and the cores stop issuing at some time,
the path comes to rest with every request answered: nothing is taken any more from some
cycle on, and whatever was still to be done then would be taken.
-/

namespace TeraNoC.Hw

open TeraNoC.Lib

namespace SocTrace

variable {p : SocTile} {z : SocCells p} {t : SocTrace z}

/-! ## What is delivered -/

/-- Each request is on AXI once, with its address, and a write with its data and byte enables
in the lanes that its address selects. Each beat on R or B is a response to the core of
the first request that has none, under its id, and for a read with the addressed word. -/
structure Delivered (t : SocTrace z) : Prop where
  ar : t.ar = t.reads.map fun x => { addr := x.2.addr, size := 2, len := 0 }
  aw : t.aw = t.writes.map fun x => { addr := x.2.addr, size := 2, len := 0, atop := none }
  w : List.Forall₂ (fun b x => b.Carries x.2.addr x.2.data x.2.strb) t.w
    (t.writes.take t.w.length)
  r_le : t.r.length ≤ t.reads.length
  b_le : t.b.length ≤ t.writes.length
  reads : t.readAnswers = List.zipWith readAnswer t.reads t.r
  writes : t.writeAnswers = List.zipWith writeAnswer t.writes t.b

theorem Inv.plain (h : t.Inv) {x : Nat × DataReq} (hx : x ∈ t.writes) : x.2.amo = .none := by
  obtain ⟨hissued, hwrite⟩ := List.mem_filter.mp hx
  exact (h.offered x hissued).2.2 hwrite

theorem Inv.delivered (h : t.Inv) : t.Delivered where
  ar := h.ar
  aw := by
    rw [h.aw]
    refine List.map_congr_left fun x hx => ?_
    have hatop : x.2.atop = none := by simp only [DataReq.atop, h.plain hx]
    rw [DataReq.axiAw, hatop]
  w := by
    have hcarries : ∀ x ∈ t.writes.take t.w.length,
        ((x.2.writeExt p.laneBits).beat p.laneBits).Carries x.2.addr x.2.data x.2.strb := by
      intro x hx
      have hdata : x.2.writeData = x.2.data := by
        rw [DataReq.writeData, h.plain (List.mem_of_mem_take hx), if_neg AmoOp.noConfusion]
      exact hdata ▸ carries_beat p.laneBits x.2
    have hforall : List.Forall₂ (fun b x => AxiW.Carries b x.2.addr x.2.data x.2.strb)
        ((t.writes.take t.w.length).map fun x => (x.2.writeExt p.laneBits).beat p.laneBits)
        (t.writes.take t.w.length) :=
      List.forall₂_map_left_iff.mpr (List.forall₂_same.mpr hcarries)
    rwa [← h.w] at hforall
  r_le := h.r_le
  b_le := h.b_le
  reads := h.readAnswers
  writes := h.writeAnswers

/-! ## Runs -/

/-- The path under a stream of inputs. -/
def run (z : SocCells p) (is : Nat → SocIn p) : Nat → SocTrace z
  | 0 => initial z
  | k + 1 => (run z is k).next (is k)

variable {is : Nat → SocIn p}

theorem inv_run (hallowed : ∀ k, (run z is k).Allowed (is k)) : ∀ k, (run z is k).Inv
  | 0 => inv_initial z
  | k + 1 => (inv_run hallowed k).next (hallowed k)

/-! ## Coming to rest -/

/-- All sides keep going: what is offered stays until it is taken, a channel that goes on to
be offered something takes it, and AXI answers what it goes on to owe an answer. -/
structure Fair (z : SocCells p) (is : Nat → SocIn p) : Prop where
  offer_stays : ∀ k, ∀ core < p.numPorts, ∀ q, (is k).dataQ core = some q →
    (run z is k).state.issue (is k) ≠ some (core, q) → (is (k + 1)).dataQ core = some q
  r_stays : ∀ k, (is k).rValid = true → (run z is k).state.answersRead (is k) = false →
    (is (k + 1)).rValid = true
  b_stays : ∀ k, (is k).bValid = true → (run z is k).state.answersWrite (is k) = false →
    (is (k + 1)).bValid = true
  ar : ∀ k, (∀ m ≥ k, (run z is m).state.arValid (is m) = true) → ∃ m ≥ k, (is m).arReady = true
  aw : ∀ k, (∀ m ≥ k, (run z is m).state.awValid (is m) = true) → ∃ m ≥ k, (is m).awReady = true
  w : ∀ k, (∀ m ≥ k, z.wData.valid (run z is m).state.wData = true) →
    ∃ m ≥ k, (is m).wReady = true
  r : ∀ k, (∀ m ≥ k, (run z is m).r.length < (run z is m).ar.length) →
    ∃ m ≥ k, (is m).rValid = true
  b : ∀ k, (∀ m ≥ k, (run z is m).b.length < (run z is m).aw.length ∧
      (run z is m).b.length < (run z is m).w.length) → ∃ m ≥ k, (is m).bValid = true
  core : ∀ core k, (∀ m ≥ k, SocState.slvPvalid (is m) = true ∧
      (run z is m).state.idxRsp (is m) = core) → ∃ m ≥ k, SocState.socPready (is m) core = true

/-- What was taken up to now, on all channels. -/
def done (t : SocTrace z) : Nat := t.issued.length + t.w.length + t.r.length + t.b.length

theorem done_next (t : SocTrace z) (i : SocIn p) :
    (t.next i).done = t.done + (t.state.issue i).toList.length + (t.state.sends i).toNat +
      (t.state.answersRead i).toNat + (t.state.answersWrite i).toNat := by
  have hissued : (t.next i).issued.length = t.issued.length + (t.state.issue i).toList.length :=
    List.length_append
  have hw : (t.next i).w.length = t.w.length + (t.state.sends i).toNat := length_toggle _ _ _
  have hr : (t.next i).r.length = t.r.length + (t.state.answersRead i).toNat := length_toggle _ _ _
  have hb : (t.next i).b.length = t.b.length + (t.state.answersWrite i).toNat := length_toggle _ _ _
  rw [done, done, hissued, hw, hr, hb]
  omega

/-- Nothing is taken in a cycle. -/
structure Still (t : SocTrace z) (i : SocIn p) : Prop where
  issue : t.state.issue i = none
  sends : t.state.sends i = false
  read : t.state.answersRead i = false
  write : t.state.answersWrite i = false

theorem still_of_done {i : SocIn p} (h : (t.next i).done = t.done) : t.Still i := by
  rw [done_next] at h
  have hzero : ∀ {c : Bool}, c.toNat = 0 → c = false := by
    intro c hc
    cases c
    · rfl
    · cases hc
  refine ⟨?_, hzero (by omega), hzero (by omega), hzero (by omega)⟩
  cases hissue : t.state.issue i with
  | none => rfl
  | some x =>
      rw [hissue] at h
      simp only [Option.toList_some, List.length_singleton] at h
      omega

theorem length_le_issued (h : t.Inv) : t.done ≤ 4 * t.issued.length := by
  have hreads : t.reads.length ≤ t.issued.length := List.length_filter_le _ _
  have hwrites : t.writes.length ≤ t.issued.length := List.length_filter_le _ _
  have hw := h.w_le
  have hr := h.r_le
  have hb := h.b_le
  rw [done]
  omega

theorem Still.logs {i : SocIn p} (h : t.Still i) : (t.next i).issued = t.issued ∧
    (t.next i).w = t.w ∧ (t.next i).r = t.r ∧ (t.next i).b = t.b := by
  rw [next, h.issue, h.sends, h.read, h.write]
  simp only [Option.toList_none, List.append_nil, Bool.false_eq_true, if_false]
  exact ⟨trivial, trivial, trivial, trivial⟩

section Rest

variable (hallowed : ∀ k, (run z is k).Allowed (is k)) (hfair : Fair z is) {T : Nat}
  (hstill : ∀ k ≥ T, (run z is k).Still (is k))

include hstill in
theorem logs_still {k : Nat} (hk : T ≤ k) : (run z is k).issued = (run z is T).issued ∧
    (run z is k).w = (run z is T).w ∧ (run z is k).r = (run z is T).r ∧
      (run z is k).b = (run z is T).b := by
  induction k, hk using Nat.le_induction with
  | base => exact ⟨rfl, rfl, rfl, rfl⟩
  | succ k hk ih =>
      obtain ⟨hissued, hw, hr, hb⟩ := (hstill k hk).logs
      exact ⟨hissued.trans ih.1, hw.trans ih.2.1, hr.trans ih.2.2.1, hb.trans ih.2.2.2⟩

include hstill in
theorem queues_still {k : Nat} (hk : T ≤ k) : (run z is k).openReads = (run z is T).openReads ∧
    (run z is k).openWrites = (run z is T).openWrites ∧
      (run z is k).unsent = (run z is T).unsent := by
  obtain ⟨hissued, hw, hr, hb⟩ := logs_still hstill hk
  rw [openReads, openWrites, unsent, reads, writes, hissued, hw, hr, hb]
  exact ⟨rfl, rfl, rfl⟩

/-- What is offered and not taken in any later cycle stays. -/
theorem stays {P : Nat → Prop} {k : Nat} (hP : P k) (hstep : ∀ m ≥ k, P m → P (m + 1)) :
    ∀ m ≥ k, P m := by
  intro m hm
  induction m, hm using Nat.le_induction with
  | base => exact hP
  | succ m hm ih => exact hstep m hm ih

include hallowed hfair hstill in
theorem sent_still : (run z is T).unsent = [] := by
  by_contra hne
  obtain ⟨x, rest, hcons⟩ := List.exists_cons_of_ne_nil hne
  have hx : (run z is T).unsent.head? = some x := by rw [hcons, List.head?_cons]
  obtain ⟨m, hm, hready⟩ := hfair.w T fun m hm => by
    have hhead := hx
    rw [← (queues_still hstill hm).2.2] at hhead
    exact ((inv_run hallowed m).wData.head hhead rfl).1
  have hhead := hx
  rw [← (queues_still hstill hm).2.2] at hhead
  have hvalid := ((inv_run hallowed m).wData.head hhead rfl).1
  have hsends := (hstill m hm).sends
  rw [SocState.sends, hvalid, hready] at hsends
  cases hsends

include hallowed hfair hstill in
theorem reads_still : (run z is T).openReads = [] := by
  by_contra hne
  obtain ⟨x, rest, hcons⟩ := List.exists_cons_of_ne_nil hne
  have hx : (run z is T).openReads.head? = some x := by rw [hcons, List.head?_cons]
  have hopen : ∀ m ≥ T, (run z is m).openReads.head? = some x := fun m hm => by
    rw [(queues_still hstill hm).1, hx]
  obtain ⟨k, hk, hvalid⟩ := hfair.r T fun m hm => by
    rw [(inv_run hallowed m).ar, List.length_map]
    by_contra hge
    have hnil : (run z is m).openReads = [] := List.drop_eq_nil_of_le (Nat.le_of_not_lt hge)
    have hhead := hopen m hm
    rw [hnil] at hhead
    cases hhead
  have hoffered := stays (P := fun m => (is m).rValid = true) hvalid fun m hm h =>
    hfair.r_stays m h (hstill m (hk.trans hm)).read
  obtain ⟨m, hm, hready⟩ := hfair.core x.1 k fun m hm => by
    obtain ⟨y, hhead, -, hy⟩ := (inv_run hallowed m).answersRead (hallowed m) (hoffered m hm)
    obtain rfl := Option.some.inj (hhead.symm.trans (hopen m (hk.trans hm)))
    exact ⟨by rw [SocState.slvPvalid, hoffered m hm]; rfl, hy.idx⟩
  obtain ⟨y, hhead, -, hy⟩ := (inv_run hallowed m).answersRead (hallowed m) (hoffered m hm)
  obtain rfl := Option.some.inj (hhead.symm.trans (hopen m (hk.trans hm)))
  have hans : (run z is m).state.answersRead (is m) = true :=
    answersRead_iff.mpr ⟨hoffered m hm, hy.idx ▸ hready⟩
  rw [(hstill m (hk.trans hm)).read] at hans
  cases hans

include hallowed hfair hstill in
theorem writes_still : (run z is T).openWrites = [] := by
  by_contra hne
  obtain ⟨x, rest, hcons⟩ := List.exists_cons_of_ne_nil hne
  have hx : (run z is T).openWrites.head? = some x := by rw [hcons, List.head?_cons]
  have hopen : ∀ m ≥ T, (run z is m).openWrites.head? = some x := fun m hm => by
    rw [(queues_still hstill hm).2.1, hx]
  -- the reads are answered, so that none is in the way
  have hnoread : ∀ m ≥ T, (is m).rValid = false := fun m hm => by
    rw [Bool.eq_false_iff]
    intro hvalid
    obtain ⟨y, hhead, -⟩ := (inv_run hallowed m).answersRead (hallowed m) hvalid
    rw [(queues_still hstill hm).1, reads_still hallowed hfair hstill] at hhead
    cases hhead
  obtain ⟨k, hk, hvalid⟩ := hfair.b T fun m hm => by
    have hinv := inv_run hallowed m
    have hlt : (run z is m).b.length < (run z is m).writes.length := by
      by_contra hge
      have hnil : (run z is m).openWrites = [] := List.drop_eq_nil_of_le (Nat.le_of_not_lt hge)
      have hhead := hopen m hm
      rw [hnil] at hhead
      cases hhead
    have hunsent : (run z is m).unsent = [] :=
      (queues_still hstill hm).2.2.trans (sent_still hallowed hfair hstill)
    have hsent : (run z is m).writes.length ≤ (run z is m).w.length :=
      List.drop_eq_nil_iff.mp hunsent
    exact ⟨by rw [hinv.aw, List.length_map]; exact hlt, Nat.lt_of_lt_of_le hlt hsent⟩
  have hoffered := stays (P := fun m => (is m).bValid = true) hvalid fun m hm h =>
    hfair.b_stays m h (hstill m (hk.trans hm)).write
  obtain ⟨m, hm, hready⟩ := hfair.core x.1 k fun m hm => by
    obtain ⟨y, hhead, -, hy⟩ := (inv_run hallowed m).answersWrite (hallowed m)
      (hnoread m (hk.trans hm)) (hoffered m hm)
    obtain rfl := Option.some.inj (hhead.symm.trans (hopen m (hk.trans hm)))
    exact ⟨by rw [SocState.slvPvalid, hoffered m hm, Bool.or_true], hy.idx⟩
  obtain ⟨y, hhead, -, hy⟩ := (inv_run hallowed m).answersWrite (hallowed m)
    (hnoread m (hk.trans hm)) (hoffered m hm)
  obtain rfl := Option.some.inj (hhead.symm.trans (hopen m (hk.trans hm)))
  have hans : (run z is m).state.answersWrite (is m) = true :=
    answersWrite_iff.mpr ⟨hnoread m (hk.trans hm), hoffered m hm, hy.idx ▸ hready⟩
  rw [(hstill m (hk.trans hm)).write] at hans
  cases hans

include hallowed hstill in
theorem not_ready_still {k : Nat} (hk : T ≤ k) :
    (run z is k).state.slvQready (is k) = false := by
  rw [Bool.eq_false_iff]
  intro hready
  obtain ⟨x, hissue, -⟩ := SocState.hands_of_ready (hallowed k).beyond hready
  rw [(hstill k hk).issue] at hissue
  cases hissue

include hallowed hfair hstill in
/-- With nothing under way, all FIFOs are ready and the adapter is offered what the arbiter
has chosen. -/
theorem free_still {k : Nat} (hk : T ≤ k) {core : Nat} (hcore : core < p.numPorts) {q : DataReq}
    (hidx : (run z is k).state.idx (is k) = core) (hq : (is k).dataQ core = some q) :
    (run z is k).state.arValid (is k) = !q.write ∧ (run z is k).state.awValid (is k) = q.write := by
  have hinv := inv_run hallowed k
  obtain ⟨hreads, hwrites, hunsent⟩ := queues_still hstill hk
  rw [reads_still hallowed hfair hstill] at hreads
  rw [writes_still hallowed hfair hstill] at hwrites
  rw [sent_still hallowed hfair hstill] at hunsent
  have hsoc : SocState.socQ (is k) ((run z is k).state.idx (is k)) = some q := by
    rw [SocState.socQ_eq (hallowed k).beyond, hidx, if_pos hcore, hq]
  have hfull : (run z is k).state.full (is k) = false := by
    by_cases hports : p.numPorts = 1
    · rw [SocState.full, if_pos hports]
    · have hr := (hinv.rResp hports).ready
      have hw := (hinv.wResp hports).ready
      rw [hreads, List.filterMap_nil, List.length_nil] at hr
      rw [hwrites, List.filterMap_nil, List.length_nil] at hw
      rw [SocState.full, if_neg hports, hsoc, hr, hw]
      exact (ite_self _).trans rfl
  have hreadFull : (run z is k).state.readFull = false := by
    by_cases hlane : p.laneBits = 0
    · rw [SocState.readFull, decide_eq_false (not_not.mpr hlane), Bool.false_and]
    · have hr := (hinv.rShift hlane).ready
      rw [hreads, List.filterMap_nil, List.length_nil] at hr
      rw [SocState.readFull, hr]
      exact Bool.and_false _
  have hwriteFull : (run z is k).state.writeFull = false := by
    have hw := hinv.wData.ready
    rw [hunsent, List.filterMap_nil, List.length_nil] at hw
    rw [SocState.writeFull, hw]
    rfl
  rw [SocState.arValid, SocState.awValid, SocState.slvQ, hfull, hreadFull, hwriteFull,
    if_neg Bool.false_ne_true, hsoc]
  exact ⟨rfl, rfl⟩

include hallowed hfair hstill in
theorem offers_still {k : Nat} (hk : T ≤ k) : ∀ core < p.numPorts, (is k).dataQ core = none := by
  intro core hcore
  cases hoffer : (is k).dataQ core with
  | none => rfl
  | some q =>
    exfalso
    -- what is offered is offered in every later cycle
    have hkeeps : ∀ c < p.numPorts, ∀ r, ∀ m ≥ k, (is m).dataQ c = some r →
        (is (m + 1)).dataQ c = some r := fun c hc r m hm hr =>
      hfair.offer_stays m c hc r hr (by rw [(hstill m (hk.trans hm)).issue]; exact nofun)
    have hvalid : ∀ m ≥ k, ∀ c < p.numPorts, ∀ r, (is m).dataQ c = some r →
        SocState.socQvalid (is m) c = true := fun m hm c hc r hr => by
      rw [SocState.socQvalid, SocState.socQ_eq (hallowed m).beyond, if_pos hc, hr]
      rfl
    -- so the arbiter chooses a core and keeps to it
    have hfirst := z.arbiter.sel_valid (run z is k).state.arb (SocState.socQvalid (is k)) core hcore
      (hvalid k (Nat.le_refl k) core hcore q hoffer)
    obtain ⟨c, hcdef⟩ : ∃ c, (run z is k).state.idx (is k) = c := ⟨_, rfl⟩
    have hc : c < p.numPorts := hcdef ▸ hfirst.1
    obtain ⟨r, hr⟩ : ∃ r, (is k).dataQ c = some r := by
      have hsome : SocState.socQvalid (is k) c = true := hcdef ▸ hfirst.2
      rw [SocState.socQvalid, SocState.socQ_eq (hallowed k).beyond, if_pos hc] at hsome
      exact Option.isSome_iff_exists.mp hsome
    have hchosen := stays (P := fun m => (is m).dataQ c = some r ∧
      (run z is m).state.idx (is m) = c) ⟨hr, hcdef⟩ fun m hm ⟨hdata, hidx⟩ => by
        have hnext := hkeeps c hc r m hm hdata
        refine ⟨hnext, ?_⟩
        have hlock := z.arbiter.sel_lock (run z is m).state.arb (SocState.socQvalid (is m))
          (SocState.socQvalid (is (m + 1)))
        rw [SocState.idx] at hidx
        rw [hidx] at hlock
        have hready := not_ready_still hallowed hstill (hk.trans hm)
        rw [SocState.idx, run, next, SocState.next, hready, Bool.false_and]
        exact hlock (hvalid m hm c hc r hdata) (hvalid (m + 1) (Nat.le_succ_of_le hm) c hc r hnext)
          hc
    have hfree := fun m (hm : m ≥ k) => free_still hallowed hfair hstill (hk.trans hm) hc
      (hchosen m hm).2 (hchosen m hm).1
    have hready := fun m (hm : m ≥ k) => not_ready_still hallowed hstill (hk.trans hm)
    cases hwrite : r.write
    · obtain ⟨m, hm, har⟩ := hfair.ar k fun m hm => by rw [(hfree m hm).1, hwrite]; rfl
      have hnot := hready m hm
      rw [SocState.slvQready, har, (hfree m hm).1, hwrite] at hnot
      cases hnot
    · obtain ⟨m, hm, haw⟩ := hfair.aw k fun m hm => by rw [(hfree m hm).2, hwrite]
      have hnot := hready m hm
      rw [SocState.slvQready, haw, (hfree m hm).2, hwrite, Bool.and_self, Bool.or_true] at hnot
      cases hnot

end Rest

/-- Nothing is offered, and every request has been answered. -/
structure Rests (t : SocTrace z) (i : SocIn p) : Prop where
  offers : ∀ core < p.numPorts, i.dataQ core = none
  sent : t.w.length = t.writes.length
  reads : t.r.length = t.reads.length
  writes : t.b.length = t.writes.length

theorem eventually_rests (hallowed : ∀ k, (run z is k).Allowed (is k)) (hfair : Fair z is) {N : Nat}
    (hN : ∀ k, (run z is k).issued.length ≤ N) :
    ∃ T, ∀ k ≥ T, (run z is k).Rests (is k) := by
  have hgrows : ∀ k, (run z is k).done ≤ (run z is (k + 1)).done := fun k => by
    rw [run, done_next]
    omega
  have hbound : ∀ k, (run z is k).done ≤ 4 * N := fun k =>
    (length_le_issued (inv_run hallowed k)).trans (Nat.mul_le_mul_left 4 (hN k))
  obtain ⟨T, hT⟩ := eventually_const hgrows hbound
  have hstill : ∀ k ≥ T, (run z is k).Still (is k) := fun k hk =>
    still_of_done (by rw [← run, hT (k + 1) (Nat.le_succ_of_le hk), hT k hk])
  refine ⟨T, fun k hk => ?_⟩
  have hinv := inv_run hallowed k
  obtain ⟨hreads, hwrites, hunsent⟩ := queues_still hstill hk
  rw [reads_still hallowed hfair hstill] at hreads
  rw [writes_still hallowed hfair hstill] at hwrites
  rw [sent_still hallowed hfair hstill] at hunsent
  exact ⟨offers_still hallowed hfair hstill hk,
    Nat.le_antisymm hinv.w_le (List.drop_eq_nil_iff.mp hunsent),
    Nat.le_antisymm hinv.r_le (List.drop_eq_nil_iff.mp hreads),
    Nat.le_antisymm hinv.b_le (List.drop_eq_nil_iff.mp hwrites)⟩

/-! ## The contract -/

/-- Whatever the timing, the path delivers what is handed to it and keeps its FIFOs in bounds;
and if all sides keep going and the cores issue finitely much, everything offered is handed
over and answered in the end. -/
theorem soc_path_delivers (z : SocCells p) (is : Nat → SocIn p)
    (hallowed : ∀ k, (run z is k).Allowed (is k)) :
    (∀ k, (run z is k).Delivered ∧ (run z is k).InBounds (is k)) ∧
      (Fair z is → (∃ N, ∀ k, (run z is k).issued.length ≤ N) →
        ∃ T, ∀ k ≥ T, (run z is k).Rests (is k)) :=
  ⟨fun k => ⟨(inv_run hallowed k).delivered, (inv_run hallowed k).inBounds (hallowed k)⟩,
    fun hfair ⟨_, hN⟩ => eventually_rests hallowed hfair hN⟩

/-! ### One load -/

/-- Nothing happens, but all sides are ready. -/
def idleIn : SocIn terapoolTile where
  dataQ _ := none
  dataPready _ := true
  tcdmValid _ := false
  arReady := true
  awReady := true
  wReady := true
  rValid := false
  r := { data := 0, resp := 0 }
  bValid := false
  bResp := 0

/-- Core 1 loads the second word of the L2. -/
def load : DataReq where
  addr := 0x80000004
  write := false
  amo := .none
  data := 0
  strb := 15
  id := 5

/-- The load is offered first, and its beat has the word 7 in the second lane. -/
def loadIn : Nat → SocIn terapoolTile
  | 0 => { idleIn with dataQ := fun core => if core = 1 then some load else none }
  | 1 => { idleIn with rValid := true, r := { data := 7 <<< 32, resp := 0 } }
  | _ + 2 => idleIn

def loadRun (k : Nat) : SocTrace (.plain terapoolTile) := run _ loadIn k

theorem load_nonL1 : terapoolTile.NonL1 load.addr := ⟨by decide +kernel, by decide⟩

theorem allowed_load : ∀ k, (loadRun k).Allowed (loadIn k)
  | 0 => {
      offers := fun core _ q hq => by
        change (if core = 1 then some load else none) = some q at hq
        split at hq
        · obtain rfl := Option.some.inj hq
          exact ⟨load_nonL1, nofun, show 0 < 8 by decide⟩
        · cases hq
      r := nofun
      b := nofun }
  | 1 => {
      offers := nofun
      r := fun _ => by decide +kernel
      b := nofun }
  | _ + 2 => {
      offers := nofun
      r := nofun
      b := nofun }

/-- After the beat the logs stay as they are. -/
theorem loadRun_logs : ∀ k, (loadRun (k + 2)).issued.length = 1 ∧
    (loadRun (k + 2)).ar.length = 1 ∧ (loadRun (k + 2)).aw.length = 0 ∧
      (loadRun (k + 2)).r.length = 1
  | 0 => by decide +kernel
  | k + 1 => by
      have hissue : (loadRun (k + 2)).state.issue (loadIn (k + 2)) = none := by
        rw [SocState.issue]
        exact ite_self none
      have hslv : (loadRun (k + 2)).state.slvQ (loadIn (k + 2)) = none := by
        have hsoc : ∀ core, SocState.socQ (loadIn (k + 2)) core = none := fun _ => ite_self none
        rw [SocState.slvQ, hsoc]
        exact ite_self none
      have hread : (loadRun (k + 2)).state.answersRead (loadIn (k + 2)) = false := by
        rw [SocState.answersRead, SocState.answers]
        rfl
      have hnext : loadRun (k + 1 + 2) = (loadRun (k + 2)).next (loadIn (k + 2)) := rfl
      rw [hnext, next, hissue, hslv, hread]
      simpa using loadRun_logs k

theorem issued_load : ∀ k, (loadRun k).issued.length ≤ 1
  | 0 => by decide
  | 1 => by decide +kernel
  | k + 2 => (loadRun_logs k).1.le

/-- All sides are ready all the time. -/
theorem loadIn_ready (k : Nat) : (loadIn k).arReady = true ∧ (loadIn k).awReady = true ∧
    (loadIn k).wReady = true ∧ (loadIn k).bValid = false ∧
      ∀ core, SocState.socPready (loadIn k) core = true := by
  rcases k with _ | _ | k <;> exact ⟨rfl, rfl, rfl, rfl, fun _ => rfl⟩

theorem fair_load : Fair (.plain terapoolTile) loadIn where
  offer_stays
    | 0, core, _, q, hq, hnot => by
        change (if core = 1 then some load else none) = some q at hq
        split at hq
        case isTrue hcore =>
          obtain rfl := Option.some.inj hq
          obtain rfl := hcore
          have hissue : (loadRun 0).state.issue (loadIn 0) = some (1, load) := by decide +kernel
          exact absurd hissue hnot
        case isFalse => cases hq
    | 1, _, _, _, hq, _ => nomatch hq
    | _ + 2, _, _, _, hq, _ => nomatch hq
  r_stays
    | 0, hr, _ => nomatch hr
    | 1, _, hnot => by
        have hread : (loadRun 1).state.answersRead (loadIn 1) = true := by decide +kernel
        exact nomatch hread.symm.trans hnot
    | _ + 2, hr, _ => nomatch hr
  b_stays k hb := nomatch (loadIn_ready k).2.2.2.1.symm.trans hb
  ar k _ := ⟨k, Nat.le_refl k, (loadIn_ready k).1⟩
  aw k _ := ⟨k, Nat.le_refl k, (loadIn_ready k).2.1⟩
  w k _ := ⟨k, Nat.le_refl k, (loadIn_ready k).2.2.1⟩
  r k hlt := by
    have hopen := hlt (k + 2) (Nat.le_add_right k 2)
    obtain ⟨-, har, -, hr⟩ := loadRun_logs k
    rw [loadRun] at har hr
    omega
  b k hlt := by
    have hopen := (hlt (k + 2) (Nat.le_add_right k 2)).1
    obtain ⟨-, -, haw, -⟩ := loadRun_logs k
    rw [loadRun] at haw
    omega
  core c k _ := ⟨k, Nat.le_refl k, (loadIn_ready k).2.2.2.2 c⟩

theorem load_delivered : (loadRun 2).resps =
      [{ core := 1, id := 5, data := 7, write := false, error := false }] ∧
    (∀ k, (loadRun k).Delivered ∧ (loadRun k).InBounds (loadIn k)) ∧
      ∃ T, ∀ k ≥ T, (loadRun k).Rests (loadIn k) :=
  have h := soc_path_delivers _ loadIn allowed_load
  ⟨by decide +kernel, h.1, h.2 fair_load ⟨1, issued_load⟩⟩

end SocTrace

end TeraNoC.Hw
