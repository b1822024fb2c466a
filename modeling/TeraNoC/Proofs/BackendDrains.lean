import TeraNoC.Lib.Progress
import TeraNoC.Proofs.BackendCopies

/-!
# A backend gets done

Two bytes deep, the queues of the data path never hold a backend up: what does not fit in front of
a write beat has completed the beat (`prefix_of_two`). So whatever a backend waits for is on the
other side of one of its five handshakes (`At.exists_helpful`), and what it has to do counts down
whenever something happens (`At.next`).
-/

namespace TeraNoC.Dma

open TeraNoC.Lib

/-- The handshakes. -/
inductive Handshake
  | req
  | ar
  | aw
  | r
  | w

def BackendIn.gives (x : BackendIn) : Handshake → Bool
  | .req => x.valid
  | .ar => x.arReady
  | .aw => x.awReady
  | .r => x.rValid
  | .w => x.wReady

theorem ChanStep.rest_eq {p : ReshaperParams} {mem : Nat → Nat → DataByte}
    {reqs : List DmaReq} {r : ReshapeRun} {side : Side} {m : Mover} {taken shift : Nat}
    {rest rest' : List (Nat × DataByte)} {pushed : List Burst}
    (hc : ChanStep p mem reqs r m taken shift side rest pushed rest')
    (hrefill : r.refill p m = false) (hsends : sends r m side = false) : rest' = rest := by
  have hstream := hc.stream
  rw [hc.none hsends, hrefill, ReshapeRun.step_pending, hrefill] at hstream
  exact (List.append_cancel_right hstream).symm

namespace BackendRun

variable {p : BackendParams} {F : BackendCells p} {lead : Nat} {mem : Nat → Nat → DataByte}
  {reqs : List DmaReq} {s : BackendRun F} {x : BackendIn} {r : ReshapeRun} {rp wp : List Burst}
  {rr wr flight : List (Nat × DataByte)}

/-- Where everything is that has to be done: see `Inv`. `ars` and `aws` count the addresses that
wait. -/
structure Places where
  rp : List Burst
  wp : List Burst
  rr : List (Nat × DataByte)
  wr : List (Nat × DataByte)
  flight : List (Nat × DataByte)
  ars : Nat
  aws : Nat
  pending : List DmaReq

structure At (lead : Nat) (mem : Nat → Nat → DataByte) (reqs : List DmaReq) (s : BackendRun F)
    (c : Places) : Prop where
  inv : ∃ r, Inv lead mem reqs s r c.rp c.wp c.rr c.wr c.flight
  ars : (F.ax.contents s.mover.arEmitter).length = c.ars
  aws : (F.ax.contents s.mover.awEmitter).length = c.aws
  pending : s.pending = c.pending

/-- Something happens in a cycle. -/
def busy (lead : Nat) (mem : Nat → Nat → DataByte) (s : BackendRun F) (x : BackendIn) : Bool :=
  (s.reshape x).ready || ((s.reshape x).rValid && s.mover.rReqReady) ||
    ((s.reshape x).wValid && s.mover.wReqReady) || (F.ax.valid s.mover.arEmitter && x.arReady) ||
    (F.ax.valid s.mover.awEmitter && x.awReady) || s.rFires lead mem x || s.wFires lead mem x

/-! ## What there is to do -/

def bytes (reqs : List DmaReq) : Nat := (reqs.map fun req => req.numBytes.toNat).sum

theorem length_asked (q : Nat) (l : List DmaReq) : (asked mem q l).length = bytes l := by
  induction l generalizing q with
  | nil => rfl
  | cons req l ih =>
      rw [asked, List.length_append, List.length_map, List.length_range, ih, bytes, bytes,
        List.map_cons, List.sum_cons]

/-- What a side has to do. -/
def sideLoad (p : ReshaperParams) (mem : Nat → Nat → DataByte) (side : Side) (pcs : List Burst)
    (rest : List (Nat × DataByte)) (addrs : Nat) (pending : List DmaReq) : Nat :=
  3 * (rest.length + bytes pending) + addrs + (pcs.flatMap (Burst.rest p mem side)).length

def Places.load (p : ReshaperParams) (mem : Nat → Nat → DataByte) (c : Places) : Nat :=
  c.pending.length + sideLoad p mem .rd c.rp c.rr c.ars c.pending +
    sideLoad p mem .wr c.wp c.wr c.aws c.pending

theorem sideLoad_next {p : ReshaperParams} {side : Side} {m : Mover} {taken shift : Nat}
    {rest rest' moved : List (Nat × DataByte)} {pcs pcs' pushed : List Burst}
    {addrs addrs' pop : Nat}
    (hc : ChanStep p mem reqs r m taken shift side rest pushed rest')
    (hstream : pcs.flatMap (Burst.rest p mem side) = moved ++ pcs'.flatMap (Burst.rest p mem side))
    (haddrs : addrs' + pop = addrs + if sends r m side then 1 else 0) :
    sideLoad p mem side (pcs' ++ pushed) rest' addrs' (r.step p m).pending + pop + moved.length +
      (if sends r m side then 1 else 0) ≤ sideLoad p mem side pcs rest addrs r.pending := by
  have hlen := congrArg List.length hc.stream
  rw [List.length_append, List.length_append, List.length_append, length_asked, length_asked]
    at hlen
  rw [sideLoad, sideLoad, hstream, List.flatMap_append, List.length_append, List.length_append]
  cases hs : sends r m side with
  | false =>
      rw [hs, if_neg Bool.false_ne_true] at haddrs
      rw [if_neg Bool.false_ne_true]
      omega
  | true =>
      obtain ⟨pc, rfl, hsent⟩ := hc.some hs
      have hpos : 1 ≤ ([pc].flatMap (Burst.rest p mem side)).length := by
        rw [List.flatMap_cons, List.flatMap_nil, List.append_nil, Burst.rest, hsent.beats,
          rowRest_zero, List.length_map, List.length_range']
        exact hsent.ok.cut.nonempty
      rw [hs, if_pos rfl] at haddrs
      rw [if_pos rfl]
      omega

/-! ## A cycle -/

section Cycle

variable {c : Places} (hat : At lead mem reqs s c) (hp : p.Valid)
  (hacc : ReshapeRun.Accepted reqs)
include hat hp hacc

/-- A cycle in which something happens leaves less to do, another one leaves all as it is. -/
theorem At.next (hlead : lead + 2 ≤ p.axReqFifoDepth) :
    ∃ c', At lead mem reqs (s.step lead mem x) c' ∧
      if busy lead mem s x then c'.load p.toReshaperParams mem < c.load p.toReshaperParams mem
      else c' = c := by
  obtain ⟨r, h⟩ := hat.inv
  obtain ⟨rp', pr, wp', pw, rr', wr', flight', added, bytes, hc⟩ :=
    h.exists_cycleDone (x := x) hp hacc
  have hrefill := h.reshape_ready (x := x)
  have hrs := h.rSends (x := x) hp
  have hws := h.wSends (x := x) hp
  have hpending : (s.step lead mem x).pending =
      (r.step p.toReshaperParams (s.seen x)).pending := by
    rw [ReshapeRun.step_pending, ← h.pending, ← hrefill]
    rfl
  have hars : (F.ax.contents (s.step lead mem x).mover.arEmitter).length +
      (if F.ax.valid s.mover.arEmitter && x.arReady then 1 else 0) =
      c.ars + if sends r (s.seen x) .rd then 1 else 0 := by
    rw [← hat.ars, ← hrs]
    exact F.ax.length_push s.mover.arEmitter ((s.reshape x).rValid && s.mover.rReqReady)
      (s.reshape x).readReq x.arReady
      fun hs => (Bool.and_eq_true _ _ ▸ (Bool.and_eq_true _ _ ▸ hs).2).1
  have haws : (F.ax.contents (s.step lead mem x).mover.awEmitter).length +
      (if F.ax.valid s.mover.awEmitter && x.awReady then 1 else 0) =
      c.aws + if sends r (s.seen x) .wr then 1 else 0 := by
    rw [← hat.aws, ← hws]
    exact F.ax.length_push s.mover.awEmitter ((s.reshape x).wValid && s.mover.wReqReady)
      (s.reshape x).writeReq x.awReady
      fun hs => (Bool.and_eq_true _ _ ▸ (Bool.and_eq_true _ _ ▸ hs).2).1
  refine ⟨⟨rp' ++ pr, wp' ++ pw, rr', wr', flight' ++ added,
    (F.ax.contents (s.step lead mem x).mover.arEmitter).length,
    (F.ax.contents (s.step lead mem x).mover.awEmitter).length, (s.step lead mem x).pending⟩,
    ⟨⟨_, h.step hp hacc hlead hc⟩, rfl, rfl, rfl⟩, ?_⟩
  cases hbusy : busy lead mem s x with
  | false =>
      simp only [busy, Bool.or_eq_false_iff] at hbusy
      obtain ⟨⟨⟨⟨⟨⟨hno, hnor⟩, hnow⟩, hnoar⟩, hnoaw⟩, hnoR⟩, hnoW⟩ := hbusy
      rw [hrs] at hnor
      rw [hws] at hnow
      rw [hrefill] at hno
      rw [hnor, hnoar] at hars
      rw [hnow, hnoaw] at haws
      obtain ⟨hrp, hadded⟩ := hc.read.waits hnoR
      obtain ⟨hwp, hbytes⟩ := hc.write.waits hnoW
      have hflight := hc.write.flight_eq
      rw [hbytes, List.nil_append] at hflight
      rw [if_neg Bool.false_ne_true, hrp, hwp, hadded, hc.rchan.none hnor, hc.wchan.none hnow,
        hc.rchan.rest_eq hno hnor, hc.wchan.rest_eq hno hnow, ← hflight, hpending,
        ReshapeRun.step_pending, hno, if_neg Bool.false_ne_true, ← h.pending, hat.pending]
      simp only [List.append_nil]
      congr 1
  | true =>
      rw [if_pos rfl, Places.load, Places.load]
      have hread := sideLoad_next hc.rchan hc.read.stream hars
      have hwrite := sideLoad_next hc.wchan hc.write.stream haws
      have hlen : (s.step lead mem x).pending.length +
          (if r.refill p.toReshaperParams (s.seen x) then 1 else 0) = c.pending.length := by
        rw [hpending, ReshapeRun.step_pending, ← hat.pending, h.pending]
        split_ifs with hyes
        · have := List.length_pos_of_ne_nil (ReshapeRun.refill_iff.1 hyes).2.2.1
          rw [List.length_tail]
          omega
        · rfl
      rw [← hpending, ← h.pending, hat.pending] at hread hwrite
      simp only [busy, Bool.or_eq_true, hrefill, hrs, hws] at hbusy
      rcases hbusy with (((((hyes | hyes) | hyes) | hyes) | hyes) | hyes) | hyes
      · rw [if_pos hyes] at hlen
        simp only
        omega
      · rw [if_pos hyes] at hread
        simp only
        omega
      · rw [if_pos hyes] at hwrite
        simp only
        omega
      · rw [if_pos hyes] at hread
        simp only
        omega
      · rw [if_pos hyes] at hwrite
        simp only
        omega
      · have := List.length_pos_of_ne_nil (hc.read.fires hyes)
        simp only
        omega
      · have := List.length_pos_of_ne_nil (hc.write.fires hyes)
        simp only
        omega

end Cycle

/-! ## What a backend waits for -/

section Waiting

variable (h : Inv lead mem reqs s r rp wp rr wr flight) (hp : p.Valid)
include h hp

/-- A write beat that has arrived goes out when the memory takes it. -/
theorem Inv.wFires_of_prefix {pc : Burst} {tl : List Burst} (hwp : wp = pc :: tl)
    (hpre : pc.beat p.toReshaperParams mem .wr <+: flight)
    (haws : F.ax.contents s.mover.awEmitter = []) (hx : x.wReady = true) :
    s.wFires lead mem x = true := by
  have hbeat : WriteBeat p.toReshaperParams s.mover.path (s.pathIn lead mem x)
    pc.req.dst.toNat pc.off pc.len pc.beats := h.writeBeat hwp
  have hready : p.readyToWrite s.mover.path (s.pathIn lead mem x) = true :=
    hbeat.ready_of_prefix hp.strbWidth_pos h.holds hpre
  obtain ⟨done, hissued, hdone⟩ := h.issued
  have hlen := congrArg List.length hissued
  rw [List.length_append, List.length_map, hdone, hwp, List.length_cons] at hlen
  have haddrs := h.addrs
  rw [haws, eq_comm, List.drop_eq_nil_iff] at haddrs
  have hlt : s.wTaken < s.awTakenNext x + lead := by
    rw [awTakenNext]
    split_ifs <;> omega
  have hfires : s.wFires lead mem x = (p.readyToWrite s.mover.path (s.pathIn lead mem x) &&
    (x.wReady && decide (s.wTaken < s.awTakenNext x + lead))) := rfl
  rw [hfires, hready, hx, decide_eq_true hlt]
  rfl

/-- When a lane is full the next write beat has arrived. -/
theorem Inv.prefix_of_full (hdepth : 2 ≤ p.bufferDepth) {pc : Burst} {tl : List Burst}
    (hwp : wp = pc :: tl) (hfull : p.pathFull s.mover.path (s.pathIn lead mem x) = true) :
    pc.beat p.toReshaperParams mem .wr <+: flight := by
  obtain ⟨lane, hl, hlane⟩ : ∃ lane < p.strbWidth,
      F.byte.ready (s.mover.path.buffer lane) = false := by
    by_contra hno
    push Not at hno
    rw [ReshaperParams.pathFull, Bool.not_eq_true', ← Bool.not_eq_true, onLanes_iff] at hfull
    refine hfull fun lane hl => ?_
    rw [Bool.eq_true_of_not_eq_false (hno lane hl)]
    rfl
  rw [F.byte.ready_eq, h.holds lane hl, List.length_map, decide_eq_false_iff_not] at hlane
  have hok := h.wok pc (by rw [hwp]; exact List.mem_cons_self)
  have hstream := h.writing
  rw [hwp, Burst.rest_eq mem hok hp.strbWidth_pos tl, List.append_assoc] at hstream
  have htwo : 2 ≤ (onLane (laneOf p.strbWidth) lane flight).length := by omega
  exact prefix_of_two (nodup_lanes hp.strbWidth_pos) hstream htwo

end Waiting

/-- A working side hands a burst on as soon as the data mover has room for it. -/
theorem sends_of_ahead {p : ReshaperParams} {side : Side} {m : Mover} {q shift : Nat}
    {rest : List (Nat × DataByte)} (h : Ahead p mem reqs q shift side (r.state.chan side) rest)
    (hne : rest ≠ []) (hready : m.ready side = true) : sends r m side = true := by
  rw [sends, h.valid hne, hready]
  rfl

section Helpful

variable {c : Places} (hp : p.Valid)
include hp

theorem At.rReqReady (hat : At lead mem reqs s c) (hars : c.ars = 0) (hrp : c.rp = []) :
    s.mover.rReqReady = true := by
  obtain ⟨r, h⟩ := hat.inv
  have hdepth := hp.two_le_depth
  rw [MoverState.rReqReady, F.ax.ready_eq, F.r.ready_eq, hat.ars, hars, h.rdescs, hrp,
    Bool.and_eq_true, decide_eq_true_eq, decide_eq_true_eq, List.map_nil, List.length_nil]
  omega

theorem At.wReqReady (hat : At lead mem reqs s c) (haws : c.aws = 0)
    (hwp : c.wp.length < p.axReqFifoDepth) : s.mover.wReqReady = true := by
  obtain ⟨r, h⟩ := hat.inv
  have hdepth := hp.two_le_depth
  rw [MoverState.wReqReady, F.ax.ready_eq, F.w.ready_eq, hat.aws, haws, h.wdescs,
    Bool.and_eq_true, decide_eq_true_eq, decide_eq_true_eq, List.length_map]
  omega

theorem At.busy_of_front (hat : At lead mem reqs s c) (haws : c.aws = 0) {pc : Burst}
    {tl : List Burst} (hwp : c.wp = pc :: tl)
    (hpre : pc.beat p.toReshaperParams mem .wr <+: c.flight) (hx : x.wReady = true) :
    busy lead mem s x = true := by
  obtain ⟨r, h⟩ := hat.inv
  have hfires := h.wFires_of_prefix hp hwp hpre
    (List.eq_nil_of_length_eq_zero (hat.aws.trans haws)) hx
  rw [busy, hfires, Bool.or_true]

theorem At.busy_of_read (hat : At lead mem reqs s c) (hdepth : 2 ≤ p.bufferDepth)
    (hars : c.ars = 0) (hrp : c.rp ≠ [])
    (hlate : ∀ pc ∈ c.wp.head?, ¬pc.beat p.toReshaperParams mem .wr <+: c.flight)
    (hx : x.rValid = true) : busy lead mem s x = true := by
  obtain ⟨r, h⟩ := hat.inv
  have hvalid : s.rValid x = true := by
    have hreads := h.reads
    rw [List.eq_nil_of_length_eq_zero (hat.ars.trans hars), List.map_nil, List.append_nil] at hreads
    rw [rValid, hx, hreads, Bool.true_and, Bool.not_eq_true', List.isEmpty_eq_false_iff, ne_eq,
      List.map_eq_nil_iff]
    exact hrp
  have hroom : p.pathFull s.mover.path (s.pathIn lead mem x) = false := by
    by_contra hfull
    rw [Bool.not_eq_false] at hfull
    cases hwp : c.wp with
    | cons pc tl =>
        exact hlate pc (by rw [hwp]; rfl) (h.prefix_of_full hp hdepth hwp hfull)
    | nil =>
        -- then the data path is empty, and every lane has room
        have hflight := h.flight_eq_nil hwp
        rw [ReshaperParams.pathFull, Bool.not_eq_true', ← Bool.not_eq_true, onLanes_iff] at hfull
        refine hfull fun lane hl => ?_
        rw [F.byte.ready_eq, h.holds lane hl, hflight]
        exact Bool.or_eq_true_iff.2 (.inl (decide_eq_true (by
          rw [onLane_nil, List.map_nil, List.length_nil]
          omega)))
  have hfires : s.rFires lead mem x = true := by
    have heq : s.rFires lead mem x = (s.rValid x &&
      !p.pathFull s.mover.path (s.pathIn lead mem x)) := rfl
    rw [heq, hvalid, hroom]
    rfl
  rw [busy, hfires, Bool.or_true, Bool.true_or]

theorem At.busy_of_rr (hat : At lead mem reqs s c) (hars : c.ars = 0) (hrp : c.rp = [])
    (hrr : c.rr ≠ []) : busy lead mem s x = true := by
  obtain ⟨r, h⟩ := hat.inv
  have hsends : sends r (s.seen x) .rd = true :=
    sends_of_ahead h.rahead hrr (hat.rReqReady hp hars hrp)
  rw [busy, h.rSends hp, hsends]
  simp

theorem At.busy_of_wr (hat : At lead mem reqs s c) (haws : c.aws = 0)
    (hwp : c.wp.length < p.axReqFifoDepth) (hwr : c.wr ≠ []) : busy lead mem s x = true := by
  obtain ⟨r, h⟩ := hat.inv
  have hsends : sends r (s.seen x) .wr = true :=
    sends_of_ahead h.wahead hwr (hat.wReqReady hp haws hwp)
  rw [busy, h.wSends hp, hsends]
  simp

theorem At.busy_of_pending (hat : At lead mem reqs s c) (hars : c.ars = 0) (haws : c.aws = 0)
    (hrp : c.rp = []) (hwp : c.wp = []) (hrr : c.rr = []) (hwr : c.wr = [])
    (hpending : c.pending ≠ []) (hx : x.valid = true) : busy lead mem s x = true := by
  obtain ⟨r, h⟩ := hat.inv
  have hidle : ∀ side, (r.state.chan side).Idle := by
    have hrahead := h.rahead
    have hwahead := h.wahead
    rw [hrr] at hrahead
    rw [hwr] at hwahead
    intro side
    cases side
    · exact hrahead.idle_of_nil
    · exact hwahead.idle_of_nil
  have hroom : c.wp.length < p.axReqFifoDepth := by
    have := hp.two_le_depth
    rw [hwp, List.length_nil]
    omega
  have hrefill : r.refill p.toReshaperParams (s.seen x) = true := by
    refine ReshapeRun.refill_iff.2 ⟨fun side => ?_, hx, ?_, fun side => ?_⟩
    · exact (BurstState.tx_idle (p := hp.config) (hidle side)).1
    · rw [← h.pending, hat.pending]
      exact hpending
    · cases side
      · exact hat.rReqReady hp hars hrp
      · exact hat.wReqReady hp haws hroom
  rw [busy, h.reshape_ready, hrefill]
  simp

/-- With nothing more to read, the next write beat has arrived. -/
theorem Inv.prefix_of_read (h : Inv lead mem reqs s r [] wp [] wr flight) {pc : Burst}
    {tl : List Burst} (hwp : wp = pc :: tl) :
    pc.beat p.toReshaperParams mem .wr <+: flight := by
  have hok := h.wok pc (by rw [hwp]; exact List.mem_cons_self)
  have hstream := h.writing
  rw [hwp, Burst.rest_eq mem hok hp.strbWidth_pos tl, List.flatMap_nil, List.nil_append,
    List.nil_append, ← List.append_assoc] at hstream
  rw [List.append_cancel_right hstream, List.append_assoc]
  exact List.prefix_append _ _

/-- Whatever is to be done, there is a handshake it waits for, or it waits for none. -/
theorem At.exists_helpful (hat : At lead mem reqs s c) (hdepth : 2 ≤ p.bufferDepth)
    (hpos : 0 < c.load p.toReshaperParams mem) : ∃ k, ∀ (s' : BackendRun F) (x : BackendIn),
      At lead mem reqs s' c → x.gives k = true → busy lead mem s' x = true := by
  obtain ⟨r, h⟩ := hat.inv
  by_cases haws : c.aws = 0
  case neg =>
    refine ⟨.aw, fun s' x hat' hx => ?_⟩
    have hvalid : F.ax.valid s'.mover.awEmitter = true := by
      rw [F.ax.valid_eq, Bool.not_eq_true', List.isEmpty_eq_false_iff]
      intro hnil
      exact haws (by rw [← hat'.aws, hnil]; rfl)
    have hgiven : x.awReady = true := hx
    rw [busy, hvalid, hgiven]
    simp
  by_cases hars : c.ars = 0
  case neg =>
    refine ⟨.ar, fun s' x hat' hx => ?_⟩
    have hvalid : F.ax.valid s'.mover.arEmitter = true := by
      rw [F.ax.valid_eq, Bool.not_eq_true', List.isEmpty_eq_false_iff]
      intro hnil
      exact hars (by rw [← hat'.ars, hnil]; rfl)
    have hgiven : x.arReady = true := hx
    rw [busy, hvalid, hgiven]
    simp
  by_cases hfront : ∃ pc tl, c.wp = pc :: tl ∧ pc.beat p.toReshaperParams mem .wr <+: c.flight
  case pos =>
    obtain ⟨pc, tl, hwp, hpre⟩ := hfront
    exact ⟨.w, fun s' x hat' hx => hat'.busy_of_front hp haws hwp hpre hx⟩
  have hlate : ∀ pc ∈ c.wp.head?, ¬pc.beat p.toReshaperParams mem .wr <+: c.flight := by
    intro pc hpc hpre
    obtain ⟨tl, htl⟩ := List.head?_eq_some_iff.1 hpc
    exact hfront ⟨pc, tl, htl, hpre⟩
  by_cases hrp : c.rp = []
  case neg => exact ⟨.r, fun s' x hat' hx => hat'.busy_of_read hp hdepth hars hrp hlate hx⟩
  by_cases hrr : c.rr = []
  case neg => exact ⟨.req, fun s' x hat' _ => hat'.busy_of_rr hp hars hrp hrr⟩
  -- all has been read
  rw [hrp, hrr] at h
  have hwp : c.wp = [] := by
    by_contra hne
    obtain ⟨pc, tl, hwp⟩ := List.exists_cons_of_ne_nil hne
    exact hfront ⟨pc, tl, hwp, h.prefix_of_read hp hwp⟩
  by_cases hwr : c.wr = []
  case neg =>
    have hroom : c.wp.length < p.axReqFifoDepth := by
      have := hp.two_le_depth
      rw [hwp, List.length_nil]
      omega
    exact ⟨.req, fun s' x hat' _ => hat'.busy_of_wr hp haws hroom hwr⟩
  have hpending : c.pending ≠ [] := by
    intro hnil
    rw [Places.load, sideLoad, sideLoad, hars, haws, hrp, hwp, hrr, hwr, hnil] at hpos
    exact Nat.lt_irrefl 0 hpos
  exact ⟨.req, fun s' x hat' hx =>
    hat'.busy_of_pending hp hars haws hrp hwp hrr hwr hpending hx⟩

end Helpful

/-! ## A run -/

theorem written_prefix_step : s.written <+: (s.step lead mem x).written := by
  change s.written <+: if _ then s.written ++ _ else s.written
  split_ifs
  · exact List.prefix_append _ _
  · exact List.prefix_refl _

/-- Nothing is left when there is nothing left to do. -/
theorem At.written_eq {c : Places} (hat : At lead mem reqs s c)
    (hload : c.load p.toReshaperParams mem = 0) : s.written = asked mem 0 reqs := by
  obtain ⟨r, h⟩ := hat.inv
  rw [Places.load, sideLoad, sideLoad] at hload
  have hwp := List.eq_nil_of_length_eq_zero
    (show (c.wp.flatMap (Burst.rest p.toReshaperParams mem .wr)).length = 0 by omega)
  have hwr := List.eq_nil_of_length_eq_zero (show c.wr.length = 0 by omega)
  have hpending := List.eq_nil_of_length_eq_zero (show c.pending.length = 0 by omega)
  rw [← h.reading, h.writing, hwp, hwr, hat.pending, hpending]
  exact (List.append_nil _).symm

section Run

variable (hp : p.Valid) (hacc : ReshapeRun.Accepted reqs) (hlead : lead + 2 ≤ p.axReqFifoDepth)
include hp hacc hlead

/-- There is a time at which nothing is left to do. -/
theorem exists_drained (hdepth : 2 ≤ p.bufferDepth) (input : Nat → BackendIn)
    (hfair : ∀ k t, ∃ u, t ≤ u ∧ (input u).gives k = true) :
    ∃ t c, At lead mem reqs (after F lead mem reqs input t) c ∧
      c.load p.toReshaperParams mem = 0 := by
  have hstart : At lead mem reqs (after F lead mem reqs input 0)
      ⟨[], [], [], [], [], 0, 0, reqs⟩ := by
    have hars := congrArg List.length F.ax.contents_reset
    exact ⟨⟨_, inv_start hp hacc⟩, hars, hars, rfl⟩
  exact eventually_bottom
    (fun t c => At lead mem reqs (after F lead mem reqs input t) c)
    (fun t k => (input t).gives k = true) (Places.load p.toReshaperParams mem)
    (fun t c hat => by
      obtain ⟨c', hat', hdown⟩ := hat.next (x := input t) hp hacc hlead
      refine ⟨c', hat', ?_⟩
      split_ifs at hdown
      · exact .inr hdown
      · exact .inl hdown)
    (fun t c hat hpos => by
      obtain ⟨k, hk⟩ := hat.exists_helpful hp hdepth hpos
      refine ⟨k, fun u hat hgives => ?_⟩
      obtain ⟨c', hat', hdown⟩ := hat.next (x := input u) hp hacc hlead
      rw [if_pos (hk _ _ hat hgives)] at hdown
      exact ⟨c', hat', hdown⟩)
    hfair hstart

/-- From then on what is written stays as it is. -/
theorem At.written_all {input : Nat → BackendIn} {t u : Nat} {c : Places}
    (hat : At lead mem reqs (after F lead mem reqs input t) c)
    (hload : c.load p.toReshaperParams mem = 0) (hu : t ≤ u) :
    (after F lead mem reqs input u).written = asked mem 0 reqs := by
  have hgrow : ∀ d, (after F lead mem reqs input t).written <+:
      (after F lead mem reqs input (t + d)).written := by
    intro d
    induction d with
    | zero => exact List.prefix_refl _
    | succ d ih => exact ih.trans written_prefix_step
  have hpre := hgrow (u - t)
  rw [Nat.add_sub_cancel' hu, hat.written_eq hload] at hpre
  exact (written_isPrefix hp hacc hlead input u).eq_of_length_le hpre.length_le

/-- A backend with queues two bytes deep writes all it was asked for, as long as each of its five
handshakes keeps being given. -/
theorem backend_drains (hdepth : 2 ≤ p.bufferDepth) (input : Nat → BackendIn)
    (hfair : ∀ k t, ∃ u, t ≤ u ∧ (input u).gives k = true) :
    ∃ t, ∀ u, t ≤ u → (after F lead mem reqs input u).written = asked mem 0 reqs := by
  obtain ⟨t, c, hat, hload⟩ := exists_drained (F := F) hp hacc hlead hdepth input hfair
  exact ⟨t, fun u hu => hat.written_all hp hacc hlead hload hu⟩

end Run

/-! ## On minpool -/

theorem eager_gives (k : Handshake) (t : Nat) :
    ∃ u, t ≤ u ∧ ((fun _ => BackendIn.eager) u : BackendIn).gives k = true :=
  ⟨t, Nat.le_refl t, by cases k <;> rfl⟩

theorem backend_drains_minpool : ∃ t, ∀ u, t ≤ u →
    (after (.list minpoolBackend) 6 (fun _ a => BitVec.ofNat 8 a) minpoolReqs
      (fun _ => .eager) u).written = asked (fun _ a => BitVec.ofNat 8 a) 0 minpoolReqs :=
  backend_drains minpoolBackend_valid minpoolReqs_accepted (by decide) (by decide) _ eager_gives

/-- The 377 bytes of both transfers are written at some time. -/
theorem backend_copies_minpool : ∃ t,
    let s := after (.list minpoolBackend) 6 (fun _ a => BitVec.ofNat 8 a) minpoolReqs
      (fun _ => .eager) t
    s.written.length = 377 ∧ s.written <+: asked (fun _ a => BitVec.ofNat 8 a) 0 minpoolReqs := by
  obtain ⟨t, c, hat, hload⟩ : ∃ t c, At 6 (fun _ a => BitVec.ofNat 8 a) minpoolReqs
      (after (.list minpoolBackend) 6 _ minpoolReqs (fun _ => .eager) t) c ∧ c.load _ _ = 0 :=
    exists_drained minpoolBackend_valid minpoolReqs_accepted (by decide) (by decide) _ eager_gives
  have hall := hat.written_all minpoolBackend_valid minpoolReqs_accepted (by decide) hload
    (Nat.le_refl t)
  exact ⟨t, by rw [hall]; simp [asked, minpoolReqs],
    (backend_copies minpoolBackend_valid minpoolReqs_accepted (by decide) _ t).1⟩

end BackendRun

end TeraNoC.Dma
