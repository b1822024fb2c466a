import TeraNoC.Proofs.Backend

/-!
# A backend copies what it is asked to copy

The invariant of a run, and what a cycle does to it.
-/

namespace TeraNoC.Dma

open TeraNoC.Lib

namespace BackendRun

/-! ## The shift of a request -/

theorem shift_spec {p : BackendParams} (hp : p.Valid) (req : DmaReq) (l k : Nat)
    (hl : l < p.strbWidth) : (req.dst.toNat + k) % p.strbWidth = l ↔
      (req.src.toNat + k) % p.strbWidth = (l + p.shift req) % p.strbWidth := by
  have hS := hp.strbWidth_pos
  have hpow : (2 : Nat) ^ p.offsetWidth = p.strbWidth := hp.config.strbWidth_eq.symm
  have hshift : (req.dst.toNat + p.shift req) % p.strbWidth = req.src.toNat % p.strbWidth := by
    rw [ReshaperParams.shift, hp.slice_offset, hp.slice_offset, hp.slice_offset, hpow,
      Nat.add_mod_mod]
    have hlt := Nat.mod_lt req.dst.toNat hS
    have hdiv := Nat.div_add_mod req.dst.toNat p.strbWidth
    rw [show req.dst.toNat + (p.strbWidth + req.src.toNat % p.strbWidth -
        req.dst.toNat % p.strbWidth) = req.src.toNat % p.strbWidth +
        (p.strbWidth * (req.dst.toNat / p.strbWidth) + p.strbWidth) by omega,
      ← Nat.mul_succ, Nat.add_mul_mod_self_left, Nat.mod_mod]
  have hmove : (req.src.toNat + k) % p.strbWidth =
      ((req.dst.toNat + k) % p.strbWidth + p.shift req) % p.strbWidth := by
    rw [Nat.mod_add_mod, Nat.add_right_comm, Nat.add_mod (req.dst.toNat + p.shift req), hshift,
      ← Nat.add_mod]
  rw [hmove]
  constructor
  · intro h
    rw [h]
  · intro h
    have hcancel : (req.dst.toNat + k) % p.strbWidth ≡ l [MOD p.strbWidth] :=
      Nat.ModEq.add_right_cancel' _ h
    rw [← Nat.mod_eq_of_lt hl, ← hcancel, Nat.mod_mod]

/-! ## The invariant -/

/-- The next beat is the first of its burst. -/
def atFirst : List Burst → Bool
  | pc :: _ => decide (pc.beats = 0)
  | [] => true

variable {p : BackendParams} {F : BackendCells p}

/-- Where the bytes are: `rp` and `wp` are the read and the write bursts under way, `rr` and `wr`
what the reshaper has ahead on its two sides, and `flight` what the data path holds. -/
structure Inv (lead : Nat) (mem : Nat → Nat → DataByte) (reqs : List DmaReq) (s : BackendRun F)
    (r : ReshapeRun) (rp wp : List Burst) (rr wr flight : List (Nat × DataByte)) : Prop where
  reshaper : ReshapeRun.Inv p.toReshaperParams reqs r
  state : s.reshaper = r.state
  pending : s.pending = r.pending
  rok : ∀ pc ∈ rp, pc.Ok p.toReshaperParams reqs .rd
  rfresh : ∀ pc ∈ rp.tail, pc.beats = 0
  reads : s.reads ++ (F.ax.contents s.mover.arEmitter).map (⟨·, 0⟩) = rp.map Burst.owed
  rdescs : F.r.contents s.mover.rEmitter = rp.map (Burst.rDesc p.toReshaperParams)
  serves : s.serves = rp.map Burst.q
  first : s.mover.path.isFirstR = atFirst rp
  wok : ∀ pc ∈ wp, pc.Ok p.toReshaperParams reqs .wr
  wfresh : ∀ pc ∈ wp.tail, pc.beats = 0
  issued : ∃ done, s.issued = done ++ wp.map Burst.ax ∧ done.length = s.wTaken
  wBeats : s.wBeats = (wp.head?.map Burst.beats).getD 0
  addrs : F.ax.contents s.mover.awEmitter = s.issued.drop s.awTaken
  awTaken_le : s.awTaken ≤ s.issued.length
  lead : s.wTaken ≤ s.awTaken + lead
  wdescs : F.w.contents s.mover.wEmitter = wp.map (Burst.wDesc p.toReshaperParams)
  counting : s.mover.path.wCntValid = !atFirst wp
  count : ∀ pc ∈ wp.head?, pc.beats ≠ 0 → s.mover.path.wNumBeats.toNat =
    pc.rows p.toReshaperParams .wr - pc.beats + 1
  holds : Holds p.toReshaperParams s.mover.path flight
  rahead : Ahead p.toReshaperParams mem reqs (s.taken - 1) s.shift .rd (r.state.chan .rd) rr
  wahead : Ahead p.toReshaperParams mem reqs (s.taken - 1) s.shift .wr (r.state.chan .wr) wr
  reading : s.written ++ (flight ++ (rp.flatMap (Burst.rest p.toReshaperParams mem .rd) ++
    (rr ++ asked mem s.taken s.pending))) = asked mem 0 reqs
  writing : flight ++ (rp.flatMap (Burst.rest p.toReshaperParams mem .rd) ++
      (rr ++ asked mem s.taken s.pending)) =
    wp.flatMap (Burst.rest p.toReshaperParams mem .wr) ++ (wr ++ asked mem s.taken s.pending)
  ahead : wr ≠ [] → wp ≠ [] ∨ rr = wr

variable {lead : Nat} {mem : Nat → Nat → DataByte} {reqs : List DmaReq} {s : BackendRun F}
  {r : ReshapeRun} {rp wp : List Burst} {rr wr flight : List (Nat × DataByte)} {x : BackendIn}

/-- The handshakes the reshaper sees. -/
def seen (s : BackendRun F) (x : BackendIn) : Mover where
  valid := x.valid
  rReady := s.mover.rReqReady
  wReady := s.mover.wReqReady

def pathIn (lead : Nat) (mem : Nat → Nat → DataByte) (s : BackendRun F) (x : BackendIn) :
    PathIn where
  rDpValid := F.r.valid s.mover.rEmitter
  wDpValid := F.w.valid s.mover.wEmitter
  rData := s.rData mem
  rValid := s.rValid x
  rLast := s.rLast
  r := F.r.data s.mover.rEmitter
  wReady := x.wReady && decide (s.wTaken < s.awTakenNext x + lead)
  w := F.w.data s.mover.wEmitter

theorem path_eq : s.path lead mem x = p.dataPath s.mover.path (s.pathIn lead mem x) := rfl

namespace Inv

variable (h : Inv lead mem reqs s r rp wp rr wr flight)
include h

theorem reshape_ready : (s.reshape x).ready = r.refill p.toReshaperParams (s.seen x) := by
  rw [reshape, h.state, h.pending]
  rfl

theorem reshape_next : (s.reshape x).next = (r.step p.toReshaperParams (s.seen x)).state := by
  rw [reshape, h.state, h.pending]
  rfl

theorem reshape_readReq :
    (s.reshape x).readReq = (r.state.tx p.toReshaperParams .rd).1 := by
  rw [reshape, h.state, h.pending]
  rfl

theorem reshape_writeReq :
    (s.reshape x).writeReq = (r.state.tx p.toReshaperParams .wr).1 := by
  rw [reshape, h.state, h.pending]
  rfl

/-- In a decoupled run a side does not wait for the other one. -/
theorem valid_alone (hp : p.Valid) (side : Side) (other : Bool) :
    (if r.state.decoupleRw then (r.state.chan side).valid
      else (r.state.chan side).valid && other) = (r.state.chan side).valid := by
  cases hv : (r.state.chan side).valid with
  | false => split_ifs <;> rfl
  | true =>
      have hinv : ReshapeRun.Inv hp.config.toReshaperParams reqs r := h.reshaper
      rw [(hinv.decoupled_of_valid hv).1, if_pos rfl]

theorem rSends (hp : p.Valid) :
    ((s.reshape x).rValid && s.mover.rReqReady) = sends r (s.seen x) .rd := by
  rw [sends, ← h.valid_alone hp .rd s.mover.wReqReady, reshape, h.state, h.pending]
  rfl

theorem wSends (hp : p.Valid) :
    ((s.reshape x).wValid && s.mover.wReqReady) = sends r (s.seen x) .wr := by
  rw [sends, ← h.valid_alone hp .wr s.mover.rReqReady, reshape, h.state, h.pending]
  rfl

/-- The beat the memory gives belongs to the first read burst under way. -/
theorem readBeat (hp : p.Valid) (hvalid : s.rValid x = true) : ∃ pc tl, rp = pc :: tl ∧
    ReadBeat p.toReshaperParams s.mover.path (s.pathIn lead mem x) pc.req.src.toNat
      pc.req.dst.toNat pc.off pc.len pc.beats (fun k => mem pc.q (pc.req.src.toNat + k)) := by
  have hne : s.reads ≠ [] := by
    rw [rValid, Bool.and_eq_true, Bool.not_eq_true', List.isEmpty_eq_false_iff] at hvalid
    exact hvalid.2
  obtain ⟨o, os, hreads⟩ := List.exists_cons_of_ne_nil hne
  have hlist := h.reads
  rw [hreads, List.cons_append] at hlist
  cases rp with
  | nil => cases hlist
  | cons pc tl =>
      rw [List.map_cons, List.cons.injEq] at hlist
      have ho : o = pc.owed := hlist.1
      have hok := h.rok pc List.mem_cons_self
      have hdesc : F.r.data s.mover.rEmitter = pc.rDesc p.toReshaperParams :=
        F.r.data_eq _ _ (by rw [h.rdescs]; rfl)
      have hserves : s.serves = pc.q :: tl.map Burst.q := h.serves
      refine ⟨pc, tl, rfl, ⟨hok.cut.nonempty, hok.beats_le, h.first, ?_, ?_, ?_, ?_, ?_⟩⟩
      · change s.rLast = _
        rw [rLast, hreads, ho]
        change decide (pc.beats = pc.ax.len.toNat) = _
        rw [hok.len_eq]
        rfl
      · change (F.r.data s.mover.rEmitter).offset = _
        rw [hdesc]
        rfl
      · change (F.r.data s.mover.rEmitter).tailer = _
        rw [hdesc]
        rfl
      · intro l hl k
        change _ ↔ _ = (l + (F.r.data s.mover.rEmitter).shift) % _
        rw [hdesc]
        exact shift_spec hp pc.req l k hl
      · intro lane _ hin
        change s.rData mem lane = _
        rw [rData, hreads, hserves, ho]
        change mem pc.q (pc.ax.addr.toNat + p.strbWidth * pc.beats + lane) = _
        rw [hok.addr_eq]
        change mem pc.q (rowAt p.strbWidth pc.req.src.toNat pc.off pc.beats + lane) = _
        congr 1
        omega

/-- The write side is at the first write burst under way. -/
theorem writeBeat {pc : Burst} {tl : List Burst} (hwp : wp = pc :: tl) :
    WriteBeat p.toReshaperParams s.mover.path (s.pathIn lead mem x) pc.req.dst.toNat
      pc.off pc.len pc.beats := by
  subst hwp
  have hok := h.wok pc List.mem_cons_self
  have hdesc : F.w.data s.mover.wEmitter = pc.wDesc p.toReshaperParams :=
    F.w.data_eq _ _ (by rw [h.wdescs]; rfl)
  refine ⟨hok.cut.nonempty, hok.beats_le, ?_, ?_, ?_, ?_, ?_, h.count pc rfl⟩
  · change (F.w.data s.mover.wEmitter).offset = _
    rw [hdesc]
    rfl
  · change (F.w.data s.mover.wEmitter).tailer = _
    rw [hdesc]
    rfl
  · change (F.w.data s.mover.wEmitter).numBeats.toNat = _
    rw [hdesc]
    exact hok.len_eq
  · change (F.w.data s.mover.wEmitter).isSingle = ((F.w.data s.mover.wEmitter).numBeats == 0)
    rw [hdesc]
    rfl
  · rw [h.counting, atFirst]
    by_cases hb : pc.beats = 0 <;> simp [hb]

/-- With no write burst under way there is nothing to write. -/
theorem flight_eq_nil (hwp : wp = []) : flight = [] := by
  have hw := h.writing
  rw [hwp, List.flatMap_nil, List.nil_append] at hw
  have hlen := congrArg List.length hw
  simp only [List.length_append] at hlen
  by_cases hwr : wr = []
  · rw [hwr, List.length_nil] at hlen
    exact List.eq_nil_of_length_eq_zero (by omega)
  · rcases h.ahead hwr with hne | heq
    · exact absurd hwp hne
    · rw [heq] at hlen
      exact List.eq_nil_of_length_eq_zero (by omega)

/-- Nothing goes out without a descriptor, whatever the empty queue shows. -/
theorem wp_ne_nil (hready : p.readyToWrite s.mover.path (s.pathIn lead mem x) = true) :
    wp ≠ [] := by
  intro hwp
  have hflight := h.flight_eq_nil hwp
  rw [ReshaperParams.readyToWrite, ReshaperParams.holds, Bool.and_eq_true,
    Bool.not_eq_true'] at hready
  have hall : p.onLanes (fun lane => !F.byte.valid (s.mover.path.buffer lane)) = true := by
    refine onLanes_iff.2 fun lane hl => ?_
    have hcontents := h.holds lane hl
    rw [hflight] at hcontents
    rw [F.byte.valid_eq, hcontents]
    rfl
  rw [hall] at hready
  cases hready.2

end Inv

/-! ## The read side in a cycle -/

/-- A read beat is taken. -/
def rFires (lead : Nat) (mem : Nat → Nat → DataByte) (s : BackendRun F) (x : BackendIn) : Bool :=
  s.rValid x && (s.path lead mem x).rReady

/-- What a cycle's read beat, or none, does: `rp'` are the bursts then, `added` the bytes. -/
structure ReadDone (lead : Nat) (mem : Nat → Nat → DataByte) (reqs : List DmaReq)
    (s : BackendRun F) (x : BackendIn) (rp rp' : List Burst) (added : List (Nat × DataByte)) :
    Prop where
  ok : ∀ pc ∈ rp', pc.Ok p.toReshaperParams reqs .rd
  fresh : ∀ pc ∈ rp'.tail, pc.beats = 0
  reads : (if s.rFires lead mem x then
      match s.reads with
      | o :: rest => if s.rLast then rest else { o with beats := o.beats + 1 } :: rest
      | [] => []
    else s.reads) ++ (F.ax.contents s.mover.arEmitter).map (⟨·, 0⟩) = rp'.map Burst.owed
  descs : (if F.r.valid s.mover.rEmitter && (s.path lead mem x).rDpReady then
      (F.r.contents s.mover.rEmitter).tail else F.r.contents s.mover.rEmitter) =
    rp'.map (Burst.rDesc p.toReshaperParams)
  serves : (if s.rValid x && s.rLast && (s.path lead mem x).rReady then s.serves.tail
    else s.serves) = rp'.map Burst.q
  first : (s.path lead mem x).next.isFirstR = atFirst rp'
  stream : rp.flatMap (Burst.rest p.toReshaperParams mem .rd) =
    added ++ rp'.flatMap (Burst.rest p.toReshaperParams mem .rd)
  lanes : ∀ lane < p.strbWidth,
    (if s.rValid x && !p.pathFull s.mover.path (s.pathIn lead mem x) &&
        p.inMask s.mover.path (s.pathIn lead mem x) lane then
      [p.bufferIn (s.pathIn lead mem x) lane] else []) =
      (onLane (laneOf p.strbWidth) lane added).map Prod.snd
  fires : s.rFires lead mem x = true → added ≠ []
  waits : s.rFires lead mem x = false → rp' = rp ∧ added = []

theorem Burst.beat_ne_nil {side : Side} {pc : Burst} (h : pc.Ok p.toReshaperParams reqs side)
    (hS : 0 < p.strbWidth) : pc.beat p.toReshaperParams mem side ≠ [] := by
  rw [Burst.beat, ne_eq, List.map_eq_nil_iff]
  exact rowBeat_ne_nil hS h.cut.nonempty h.beats_le

theorem atFirst_advance {pcs : List Burst} {last : Bool} (h : ∀ pc ∈ pcs.tail, pc.beats = 0)
    (hne : pcs ≠ []) : atFirst (Burst.advance last pcs) = last := by
  obtain ⟨pc, tl, rfl⟩ := List.exists_cons_of_ne_nil hne
  cases last with
  | false => rfl
  | true =>
      cases tl with
      | nil => rfl
      | cons pc' tl => exact decide_eq_true (h pc' List.mem_cons_self)

theorem Inv.readDone (h : Inv lead mem reqs s r rp wp rr wr flight) (hp : p.Valid) :
    ∃ rp' added, ReadDone lead mem reqs s x rp rp' added := by
  have hready : (s.path lead mem x).rReady =
    !p.pathFull s.mover.path (s.pathIn lead mem x) := rfl
  cases hfire : s.rFires lead mem x with
  | false =>
      have hno : (s.rValid x && !p.pathFull s.mover.path (s.pathIn lead mem x)) = false := hfire
      have hdp : (s.path lead mem x).rDpReady = false := by
        have heq : (s.path lead mem x).rDpReady = (F.r.valid s.mover.rEmitter && s.rLast &&
          s.rValid x && !p.pathFull s.mover.path (s.pathIn lead mem x)) := rfl
        rw [heq, Bool.and_assoc, hno, Bool.and_false]
      refine ⟨rp, [], h.rok, h.rfresh, ?_, ?_, ?_, ?_, rfl, fun lane _ => ?_, fun hyes => ?_,
        fun _ => ⟨rfl, rfl⟩⟩
      · rw [hfire]
        exact h.reads
      · rw [hdp, Bool.and_false]
        exact h.rdescs
      · rw [Bool.and_right_comm, hready, hno]
        exact h.serves
      · rw [← h.first]
        exact if_neg (by rw [Bool.not_eq_true]; exact hno)
      · rw [hno]
        rfl
      · rw [hfire] at hyes
        cases hyes
  | true =>
      have hpush : (s.rValid x && !p.pathFull s.mover.path (s.pathIn lead mem x)) = true := hfire
      have hvalid : s.rValid x = true := (Bool.and_eq_true _ _ ▸ hpush).1
      have hroom := (Bool.and_eq_true _ _ ▸ hpush).2
      obtain ⟨pc, tl, rfl, hbeat⟩ := h.readBeat hp hvalid
      have hok := h.rok pc List.mem_cons_self
      have hlast : s.rLast = decide (pc.beats = pc.rows p.toReshaperParams .rd) := hbeat.last
      have hdp : (F.r.valid s.mover.rEmitter && (s.path lead mem x).rDpReady) = s.rLast := by
        have hv : F.r.valid s.mover.rEmitter = true := by
          rw [F.r.valid_eq, h.rdescs]
          rfl
        have heq : (s.path lead mem x).rDpReady = (F.r.valid s.mover.rEmitter && s.rLast &&
          s.rValid x && !p.pathFull s.mover.path (s.pathIn lead mem x)) := rfl
        rw [heq, hv, hvalid, hroom]
        simp
      refine ⟨Burst.advance s.rLast (pc :: tl), pc.beat p.toReshaperParams mem .rd,
        Burst.advance_ok h.rok ?_, Burst.advance_fresh h.rfresh, ?_, ?_, ?_, ?_, ?_,
        fun lane hl => ?_, fun _ => Burst.beat_ne_nil hok hp.strbWidth_pos, fun hno => ?_⟩
      · rintro pc' hpc'
        rw [List.head?_cons, Option.mem_some_iff] at hpc'
        rw [← hpc', hlast]
      · have hreads := h.reads
        rw [hfire, if_pos rfl]
        obtain ⟨o, os, hos⟩ := List.exists_cons_of_ne_nil (show s.reads ≠ [] by
          rw [rValid, Bool.and_eq_true, Bool.not_eq_true', List.isEmpty_eq_false_iff] at hvalid
          exact hvalid.2)
        rw [hos, List.cons_append, List.map_cons, List.cons.injEq] at hreads
        rw [hos]
        simp only
        rw [Burst.advance]
        split_ifs
        · exact hreads.2
        · rw [List.cons_append, List.map_cons, hreads.1, hreads.2]
          rfl
      · rw [hdp, h.rdescs, Burst.advance]
        split_ifs <;> rfl
      · rw [hvalid, hready, hroom, Bool.true_and, Bool.and_true, h.serves, Burst.advance]
        split_ifs <;> rfl
      · rw [atFirst_advance h.rfresh (List.cons_ne_nil _ _), hlast]
        exact hbeat.isFirstR_next hpush
      · rw [hlast]
        exact Burst.rest_eq mem hok hp.strbWidth_pos tl
      · rw [hpush, Bool.true_and]
        exact hbeat.pushed hp.strbWidth_pos lane hl
      · rw [hfire] at hno
        cases hno

/-! ## The write side in a cycle -/

/-- What a cycle's write beat, or none, does. -/
structure WriteDone (lead : Nat) (mem : Nat → Nat → DataByte) (reqs : List DmaReq)
    (s : BackendRun F) (x : BackendIn) (wp wp' : List Burst)
    (flight flight' bytes : List (Nat × DataByte)) : Prop where
  ok : ∀ pc ∈ wp', pc.Ok p.toReshaperParams reqs .wr
  fresh : ∀ pc ∈ wp'.tail, pc.beats = 0
  issued : ∃ done, s.issued = done ++ wp'.map Burst.ax ∧ done.length =
    if s.wFires lead mem x && (s.path lead mem x).wLast then s.wTaken + 1 else s.wTaken
  wBeats : (if s.wFires lead mem x then if (s.path lead mem x).wLast then 0 else s.wBeats + 1
    else s.wBeats) = (wp'.head?.map Burst.beats).getD 0
  descs : (if F.w.valid s.mover.wEmitter && (s.path lead mem x).wDpReady then
      (F.w.contents s.mover.wEmitter).tail else F.w.contents s.mover.wEmitter) =
    wp'.map (Burst.wDesc p.toReshaperParams)
  counting : (s.path lead mem x).next.wCntValid = !atFirst wp'
  count : ∀ pc ∈ wp'.head?, pc.beats ≠ 0 → (s.path lead mem x).next.wNumBeats.toNat =
    pc.rows p.toReshaperParams .wr - pc.beats + 1
  written : (if s.wFires lead mem x then s.written ++ s.beatBytes lead mem x else s.written) =
    s.written ++ bytes
  flight_eq : flight = bytes ++ flight'
  stream : wp.flatMap (Burst.rest p.toReshaperParams mem .wr) =
    bytes ++ wp'.flatMap (Burst.rest p.toReshaperParams mem .wr)
  lanes : ∀ lane < p.strbWidth,
    (if p.writeHappening s.mover.path (s.pathIn lead mem x) &&
        p.outMask s.mover.path (s.pathIn lead mem x) lane then
      (F.byte.contents (s.mover.path.buffer lane)).tail
      else F.byte.contents (s.mover.path.buffer lane)) =
      (onLane (laneOf p.strbWidth) lane flight').map Prod.snd
  length : wp.length ≤ wp'.length + 1
  last : s.wFires lead mem x = true → ∃ ax, s.issued[s.wTaken]? = some ax ∧
    ((s.path lead mem x).wLast = true ↔ s.wBeats = ax.len.toNat)
  fires : s.wFires lead mem x = true → bytes ≠ []
  waits : s.wFires lead mem x = false → wp' = wp ∧ bytes = []

theorem Inv.writeDone (h : Inv lead mem reqs s r rp wp rr wr flight) (hp : p.Valid) :
    ∃ wp' flight' bytes, WriteDone lead mem reqs s x wp wp' flight flight' bytes := by
  have hdpEq : (s.path lead mem x).wDpReady =
    (ReshaperParams.isLastW s.mover.path (s.pathIn lead mem x) &&
      p.writeHappening s.mover.path (s.pathIn lead mem x)) := rfl
  cases hfire : s.wFires lead mem x with
  | false =>
      have hno : p.writeHappening s.mover.path (s.pathIn lead mem x) = false := hfire
      have hcnt : (s.path lead mem x).next.wCntValid = s.mover.path.wCntValid ∧
          (s.path lead mem x).next.wNumBeats = s.mover.path.wNumBeats := by
        rw [path_eq]
        simp [ReshaperParams.dataPath, hno]
      refine ⟨wp, flight, [], h.wok, h.wfresh, ?_, ?_, ?_, ?_, ?_, ?_, rfl, rfl,
        fun lane hl => ?_, Nat.le_succ _, fun hyes => ?_, fun hyes => ?_, fun _ => ⟨rfl, rfl⟩⟩
      · rw [hfire]
        exact h.issued
      · rw [hfire]
        exact h.wBeats
      · rw [hdpEq, hno, Bool.and_false, Bool.and_false]
        exact h.wdescs
      · rw [hcnt.1]
        exact h.counting
      · rw [hcnt.2]
        exact h.count
      · rw [hfire, List.append_nil]
        rfl
      · rw [hno]
        exact h.holds lane hl
      · rw [hfire] at hyes
        cases hyes
      · rw [hfire] at hyes
        cases hyes
  | true =>
      have hhap : p.writeHappening s.mover.path (s.pathIn lead mem x) = true := hfire
      have hready : p.readyToWrite s.mover.path (s.pathIn lead mem x) = true :=
        (Bool.and_eq_true _ _ ▸ hhap).1
      obtain ⟨pc, tl, rfl⟩ := List.exists_cons_of_ne_nil (h.wp_ne_nil hready)
      have hbeat : WriteBeat p.toReshaperParams s.mover.path (s.pathIn lead mem x)
        pc.req.dst.toNat pc.off pc.len pc.beats := h.writeBeat rfl
      have hok := h.wok pc List.mem_cons_self
      have hS := hp.strbWidth_pos
      have hisLast : ReshaperParams.isLastW s.mover.path (s.pathIn lead mem x) =
        decide (pc.beats = pc.rows p.toReshaperParams .wr) := hbeat.isLastW_eq
      have hlast : (s.path lead mem x).wLast =
          decide (pc.beats = pc.rows p.toReshaperParams .wr) := by
        have heq : (s.path lead mem x).wLast =
          (ReshaperParams.isLastW s.mover.path (s.pathIn lead mem x) &&
            p.readyToWrite s.mover.path (s.pathIn lead mem x)) := rfl
        rw [heq, hready, Bool.and_true, hisLast]
      have hrest := Burst.rest_eq mem hok hS tl
      obtain ⟨flight', hflight⟩ : pc.beat p.toReshaperParams mem .wr <+: flight := by
        have hstream := h.writing
        rw [hrest, List.append_assoc] at hstream
        exact hbeat.ready_prefix hS hready h.holds hstream
      subst hflight
      have hbeats : s.wBeats = pc.beats := h.wBeats
      obtain ⟨done, hissued, hdone⟩ := h.issued
      have hax : s.issued[s.wTaken]? = some pc.ax := by
        rw [hissued, ← hdone, List.getElem?_append_right (Nat.le_refl _), Nat.sub_self]
        rfl
      have hbytes : s.beatBytes lead mem x = pc.beat p.toReshaperParams mem .wr := by
        rw [beatBytes, hax, hbeats]
        simp only
        rw [hok.addr_eq]
        exact hbeat.beat_eq hS hready h.holds
      obtain ⟨hcntValid, hcnt⟩ := hbeat.count_next hhap
      refine ⟨Burst.advance (s.path lead mem x).wLast (pc :: tl), flight',
        pc.beat p.toReshaperParams mem .wr, Burst.advance_ok h.wok ?_,
        Burst.advance_fresh h.wfresh, ?_, ?_, ?_, ?_, ?_, ?_, rfl, ?_, fun lane hl => ?_, ?_,
        fun _ => ⟨pc.ax, hax, ?_⟩, fun _ => Burst.beat_ne_nil hok hS, fun hno => ?_⟩
      · rintro pc' hpc'
        rw [List.head?_cons, Option.mem_some_iff] at hpc'
        rw [← hpc', hlast]
      · rw [hfire, Bool.true_and, Burst.advance]
        split_ifs
        · exact ⟨done ++ [pc.ax], by rw [hissued, List.append_assoc]; rfl, by simp [hdone]⟩
        · exact ⟨done, hissued, hdone⟩
      · rw [hfire, if_pos rfl, Burst.advance]
        split_ifs
        · cases tl with
          | nil => rfl
          | cons pc' tl => exact (h.wfresh pc' List.mem_cons_self).symm
        · rw [hbeats]
          rfl
      · have hv : F.w.valid s.mover.wEmitter = true := by
          rw [F.w.valid_eq, h.wdescs]
          rfl
        rw [hdpEq, hisLast, hhap, hv, Bool.true_and, Bool.and_true, hlast, h.wdescs, Burst.advance]
        split_ifs <;> rfl
      · rw [atFirst_advance h.wfresh (List.cons_ne_nil _ _), hlast]
        refine hcntValid.trans ?_
        rw [← decide_not]
        rfl
      · intro pc' hpc' hne
        rw [hlast, Burst.advance] at hpc'
        split_ifs at hpc' with hend
        · exact absurd (h.wfresh pc' (List.mem_of_mem_head? hpc')) hne
        · rw [List.head?_cons, Option.mem_some_iff] at hpc'
          rw [← hpc']
          exact hcnt (of_decide_eq_false (Bool.not_eq_true _ ▸ hend))
      · rw [hfire, hbytes]
        rfl
      · rw [hlast]
        exact hrest
      · rw [hhap, Bool.true_and]
        exact hbeat.popped hS hready h.holds lane hl
      · rw [Burst.advance]
        split_ifs <;> simp
      · rw [hlast, decide_eq_true_eq, hbeats, hok.len_eq]
      · rw [hfire] at hno
        cases hno

/-! ## A cycle -/

theorem atFirst_append {pcs pushed : List Burst} (h : ∀ pc ∈ pushed, pc.beats = 0) :
    atFirst (pcs ++ pushed) = atFirst pcs := by
  cases pcs with
  | cons => rfl
  | nil =>
      cases pushed with
      | nil => rfl
      | cons pc tl => exact decide_eq_true (h pc List.mem_cons_self)

theorem fresh_append {pcs pushed : List Burst} (hpcs : ∀ pc ∈ pcs.tail, pc.beats = 0)
    (h : ∀ pc ∈ pushed, pc.beats = 0) : ∀ pc ∈ (pcs ++ pushed).tail, pc.beats = 0 := by
  cases pcs with
  | nil => exact fun pc hpc => h pc (List.mem_of_mem_tail hpc)
  | cons pc₀ tl =>
      intro pc hpc
      rcases List.mem_append.1 hpc with hpc | hpc
      · exact hpcs pc hpc
      · exact h pc hpc

section Cycle

variable (h : Inv lead mem reqs s r rp wp rr wr flight) (hp : p.Valid)
include h hp

/-- The read descriptor of the burst the reshaper hands on. -/
theorem Inv.rDesc_eq {pc : Burst}
    (hsends : sends r (s.seen x) .rd = true)
    (hsent : Sent p.toReshaperParams reqs r s.taken s.shift .rd pc) :
    pc.rDesc p.toReshaperParams = p.rDesc s.reshaper s.shift := by
  have hinv : ReshapeRun.Inv hp.config.toReshaperParams reqs r := h.reshaper
  obtain ⟨hdec, hburst⟩ := hinv.decoupled_of_valid (Bool.and_eq_true _ _ ▸ hsends).1
  have haddr : r.state.src.addr.toNat = pc.req.src.toNat + pc.off := hsent.addr
  have hlen : p.numBytes r.state.src (p.numBytesToPb false r.state.src.addr) = pc.len :=
    hsent.len
  rw [ReshaperParams.rDesc, ReshaperParams.rNumBytesPossible, h.state, hdec, hburst, if_pos rfl,
    hlen, hp.slice_offset, hp.slice_offset, haddr, ← hsent.shift]
  rfl

theorem Inv.wDesc_eq {pc : Burst}
    (hsends : sends r (s.seen x) .wr = true)
    (hsent : Sent p.toReshaperParams reqs r s.taken s.shift .wr pc) :
    pc.wDesc p.toReshaperParams = p.wDesc s.reshaper (s.reshape x).writeReq.len := by
  have hinv : ReshapeRun.Inv hp.config.toReshaperParams reqs r := h.reshaper
  obtain ⟨hdec, hburst⟩ := hinv.decoupled_of_valid (Bool.and_eq_true _ _ ▸ hsends).1
  have haddr : r.state.dst.addr.toNat = pc.req.dst.toNat + pc.off := hsent.addr
  have hlen : p.numBytes r.state.dst (p.numBytesToPb false r.state.dst.addr) = pc.len :=
    hsent.len
  rw [ReshaperParams.wDesc, ReshaperParams.wNumBytesPossible, h.reshape_writeReq, h.state, hdec,
    hburst, if_pos rfl, hlen, hp.slice_offset, hp.slice_offset, haddr, ← hsent.ax]
  rfl

/-- A write side with something ahead either hands on a burst or has two under way. -/
theorem Inv.write_ahead (hlead : lead + 2 ≤ p.axReqFifoDepth) (hwr : wr ≠ [])
    (hno : sends r (s.seen x) .wr = false) : 2 ≤ wp.length := by
  have hv : (r.state.chan .wr).valid = true := h.wahead.valid hwr
  have hbusy : s.mover.wReqReady = false := by
    rw [sends, hv, Bool.true_and] at hno
    exact hno
  obtain ⟨done, hissued, hdone⟩ := h.issued
  have hlen : s.issued.length = s.wTaken + wp.length := by
    rw [hissued, List.length_append, List.length_map, hdone]
  have haw : (F.ax.contents s.mover.awEmitter).length = s.issued.length - s.awTaken := by
    rw [h.addrs, List.length_drop]
  have hw : (F.w.contents s.mover.wEmitter).length = wp.length := by
    rw [h.wdescs, List.length_map]
  have hle := h.lead
  have hdepth := hp.two_le_depth
  rw [MoverState.wReqReady, F.ax.ready_eq, F.w.ready_eq, Bool.and_eq_false_iff,
    decide_eq_false_iff_not, decide_eq_false_iff_not] at hbusy
  omega

end Cycle

section Addresses

variable (h : Inv lead mem reqs s r rp wp rr wr flight)
include h

theorem Inv.awTakenNext_le : s.awTakenNext x ≤ s.issued.length := by
  have hle := h.awTaken_le
  rw [awTakenNext]
  split_ifs with hpop
  · have hvalid := (Bool.and_eq_true _ _ ▸ hpop).1
    rw [F.ax.valid_eq, Bool.not_eq_true', List.isEmpty_eq_false_iff, h.addrs] at hvalid
    have := List.length_pos_of_ne_nil hvalid
    rw [List.length_drop] at this
    omega
  · exact hle

theorem Inv.addrs_next :
    (if F.ax.valid s.mover.awEmitter && x.awReady then (F.ax.contents s.mover.awEmitter).tail
      else F.ax.contents s.mover.awEmitter) = s.issued.drop (s.awTakenNext x) := by
  rw [awTakenNext, h.addrs]
  split_ifs
  · exact List.tail_drop
  · rfl

end Addresses

/-- All that a cycle does. -/
structure CycleDone (lead : Nat) (mem : Nat → Nat → DataByte) (reqs : List DmaReq)
    (s : BackendRun F) (r : ReshapeRun) (x : BackendIn) (rp rp' pr wp wp' pw : List Burst)
    (rr rr' wr wr' flight flight' added bytes : List (Nat × DataByte)) : Prop where
  read : ReadDone lead mem reqs s x rp rp' added
  write : WriteDone lead mem reqs s x wp wp' flight flight' bytes
  rchan : ChanStep p.toReshaperParams mem reqs r (s.seen x) s.taken s.shift .rd rr pr rr'
  wchan : ChanStep p.toReshaperParams mem reqs r (s.seen x) s.taken s.shift .wr wr pw wr'

theorem Inv.exists_cycleDone (h : Inv lead mem reqs s r rp wp rr wr flight) (hp : p.Valid)
    (hacc : ReshapeRun.Accepted reqs) : ∃ rp' pr wp' pw rr' wr' flight' added bytes,
      CycleDone lead mem reqs s r x rp rp' pr wp wp' pw rr rr' wr wr' flight flight' added
        bytes := by
  have hinv : ReshapeRun.Inv hp.config.toReshaperParams reqs r := h.reshaper
  obtain ⟨rp', added, hread⟩ : ∃ rp' added, ReadDone lead mem reqs s x rp rp' added :=
    h.readDone hp
  obtain ⟨wp', flight', bytes, hwrite⟩ : ∃ wp' flight' bytes,
    WriteDone lead mem reqs s x wp wp' flight flight' bytes := h.writeDone hp
  obtain ⟨pr, rr', hcr⟩ : ∃ pr rr', ChanStep p.toReshaperParams mem reqs r (s.seen x)
    s.taken s.shift .rd rr pr rr' := exists_chanStep hacc hinv h.rahead
  obtain ⟨pw, wr', hcw⟩ : ∃ pw wr', ChanStep p.toReshaperParams mem reqs r (s.seen x)
    s.taken s.shift .wr wr pw wr' := exists_chanStep hacc hinv h.wahead
  exact ⟨rp', pr, wp', pw, rr', wr', flight', added, bytes, hread, hwrite, hcr, hcw⟩

theorem Inv.step {rp' pr wp' pw : List Burst}
    {rr' wr' flight' added bytes : List (Nat × DataByte)}
    (h : Inv lead mem reqs s r rp wp rr wr flight) (hp : p.Valid)
    (hacc : ReshapeRun.Accepted reqs) (hlead : lead + 2 ≤ p.axReqFifoDepth)
    (hc : CycleDone lead mem reqs s r x rp rp' pr wp wp' pw rr rr' wr wr' flight flight' added
      bytes) : Inv lead mem reqs (s.step lead mem x) (r.step p.toReshaperParams (s.seen x))
        (rp' ++ pr) (wp' ++ pw) rr' wr' (flight' ++ added) := by
  have hinv : ReshapeRun.Inv hp.config.toReshaperParams reqs r := h.reshaper
  obtain ⟨hread, hwrite, hcr, hcw⟩ := hc
  have hrefill := h.reshape_ready (x := x)
  have hrs := h.rSends (x := x) hp
  have hws := h.wSends (x := x) hp
  have hrbeats : ∀ pc ∈ pr, pc.beats = 0 := fun pc hpc => (hcr.sent hpc).2.beats
  have hwbeats : ∀ pc ∈ pw, pc.beats = 0 := fun pc hpc => (hcw.sent hpc).2.beats
  have hpending : (s.step lead mem x).pending =
      (r.step p.toReshaperParams (s.seen x)).pending := by
    rw [ReshapeRun.step_pending, ← h.pending, ← hrefill]
    rfl
  have htaken : (s.step lead mem x).taken =
      if r.refill p.toReshaperParams (s.seen x) then s.taken + 1 else s.taken := by
    rw [← hrefill]
    rfl
  have hshift : (s.step lead mem x).shift =
      if r.refill p.toReshaperParams (s.seen x) then p.shift (r.pending.headD .zero)
      else s.shift := by
    rw [← hrefill, ← h.pending]
    rfl
  constructor
  case reshaper => exact hinv.step hacc
  case state => exact h.reshape_next
  case pending => exact hpending
  case rok =>
    exact List.forall_mem_append.2 ⟨hread.ok, fun pc hpc => (hcr.sent hpc).2.ok⟩
  case rfresh => exact fresh_append hread.fresh hrbeats
  case reads =>
    have hpush := F.ax.contents_push s.mover.arEmitter
      ((s.reshape x).rValid && s.mover.rReqReady) (s.reshape x).readReq x.arReady
      fun hs => (Bool.and_eq_true _ _ ▸ (Bool.and_eq_true _ _ ▸ hs).2).1
    have hsent : pr.map Burst.owed = ((if (s.reshape x).rValid && s.mover.rReqReady then
        [(s.reshape x).readReq] else []).map (⟨·, 0⟩) : List Owed) := by
      rw [hcr.map_eq (a := ⟨(s.reshape x).readReq, 0⟩) fun pc _ hpc => by
        rw [Burst.owed, hpc.ax, hpc.beats, h.reshape_readReq], hrs]
      split_ifs <;> rfl
    have hfront := F.ax.taken_append s.mover.arEmitter x.arReady
    rw [List.map_append, ← hread.reads, hsent, ← hfront]
    change s.readsNext lead mem x ++ (F.ax.contents (F.ax.next _ _ _ _)).map _ = _
    rw [readsNext]
    refine (congrArg (fun l : List AxDesc => _ ++ l.map fun ax => (⟨ax, 0⟩ : Owed))
      hpush).trans ?_
    rw [List.map_append, List.map_append]
    simp only [List.append_assoc]
    congr 2
    split_ifs <;> rfl
  case rdescs =>
    have hpush := F.r.contents_push s.mover.rEmitter
      ((s.reshape x).rValid && s.mover.rReqReady) (p.rDesc s.reshaper s.shift)
      (s.path lead mem x).rDpReady
      fun hs => (Bool.and_eq_true _ _ ▸ (Bool.and_eq_true _ _ ▸ hs).2).2
    refine hpush.trans ?_
    rw [hread.descs, List.map_append, hcr.map_eq fun pc hs hpc => h.rDesc_eq hp hs hpc, hrs]
  case serves =>
    rw [List.map_append, ← hread.serves, hcr.map_eq fun pc _ hpc => hpc.q, ← hrs]
    rfl
  case first =>
    rw [atFirst_append hrbeats]
    exact hread.first
  case wok =>
    exact List.forall_mem_append.2 ⟨hwrite.ok, fun pc hpc => (hcw.sent hpc).2.ok⟩
  case wfresh => exact fresh_append hwrite.fresh hwbeats
  case issued =>
    obtain ⟨done, hissued, hdone⟩ := hwrite.issued
    refine ⟨done, ?_, hdone⟩
    rw [List.map_append, ← List.append_assoc, ← hissued,
      hcw.map_eq (a := (s.reshape x).writeReq) fun pc _ hpc => by
        rw [hpc.ax, h.reshape_writeReq], ← hws]
    rfl
  case wBeats =>
    refine hwrite.wBeats.trans ?_
    cases wp' with
    | cons => rfl
    | nil =>
        cases pw with
        | nil => rfl
        | cons pc _ => exact (hwbeats pc List.mem_cons_self).symm
  case addrs =>
    have hpush := F.ax.contents_push s.mover.awEmitter
      ((s.reshape x).wValid && s.mover.wReqReady) (s.reshape x).writeReq x.awReady
      fun hs => (Bool.and_eq_true _ _ ▸ (Bool.and_eq_true _ _ ▸ hs).2).1
    refine hpush.trans ?_
    rw [h.addrs_next]
    exact (List.drop_append_of_le_length h.awTakenNext_le).symm
  case awTaken_le =>
    refine Nat.le_trans h.awTakenNext_le ?_
    change s.issued.length ≤ (s.issued ++ _).length
    rw [List.length_append]
    exact Nat.le_add_right _ _
  case lead =>
    change (if _ then s.wTaken + 1 else s.wTaken) ≤ s.awTakenNext x + lead
    have hle := h.lead
    split_ifs with hdone
    · have hready : (s.moverIn lead mem x).wReady = true :=
        (Bool.and_eq_true _ _ ▸ (Bool.and_eq_true _ _ ▸ hdone).1).2
      have hlt : s.wTaken < s.awTakenNext x + lead := by
        rw [moverIn, Bool.and_eq_true, decide_eq_true_eq] at hready
        exact hready.2
      exact hlt
    · rw [awTakenNext]
      split_ifs <;> omega
  case wdescs =>
    have hpush := F.w.contents_push s.mover.wEmitter
      ((s.reshape x).wValid && s.mover.wReqReady)
      (p.wDesc s.reshaper (s.reshape x).writeReq.len) (s.path lead mem x).wDpReady
      fun hs => (Bool.and_eq_true _ _ ▸ (Bool.and_eq_true _ _ ▸ hs).2).2
    refine hpush.trans ?_
    rw [hwrite.descs, List.map_append, hcw.map_eq fun pc hs hpc => h.wDesc_eq hp hs hpc, hws]
  case counting =>
    rw [atFirst_append hwbeats]
    exact hwrite.counting
  case count =>
    intro pc hpc hne
    cases wp' with
    | cons => exact hwrite.count pc hpc hne
    | nil => exact absurd (hwbeats pc (List.mem_of_mem_head? hpc)) hne
  case holds => exact Holds.next hread.lanes hwrite.lanes
  case rahead =>
    rw [htaken, hshift]
    exact hcr.ahead
  case wahead =>
    rw [htaken, hshift]
    exact hcw.ahead
  case reading =>
    have hreading := h.reading
    rw [hwrite.flight_eq, hread.stream, h.pending, hcr.stream] at hreading
    rw [htaken, hpending, List.flatMap_append, ← hreading]
    change (if _ then s.written ++ s.beatBytes lead mem x else s.written) ++ _ = _
    rw [hwrite.written]
    simp only [List.append_assoc]
  case writing =>
    have hwriting := h.writing
    rw [hwrite.flight_eq, hread.stream, hwrite.stream, h.pending, hcr.stream, hcw.stream]
      at hwriting
    rw [htaken, hpending, List.flatMap_append, List.flatMap_append]
    simp only [List.append_assoc] at hwriting ⊢
    exact List.append_cancel_left hwriting
  case ahead =>
    intro hwr
    cases hload : r.refill p.toReshaperParams (s.seen x) with
    | true => exact .inr ((hcr.load hload).trans (hcw.load hload).symm)
    | false =>
        refine .inl ?_
        cases hs : sends r (s.seen x) .wr with
        | true =>
            obtain ⟨pc, rfl, -⟩ := hcw.some hs
            simp
        | false =>
            have htwo := h.write_ahead hp hlead (fun hnil => hwr (hcw.keep hload hnil)) hs
            have hlen := hwrite.length
            intro hnil
            rw [List.append_eq_nil_iff] at hnil
            rw [hnil.1, List.length_nil] at hlen
            omega

/-! ## A run -/

section Run

variable (hp : p.Valid) (hacc : ReshapeRun.Accepted reqs)
include hp hacc

theorem inv_start : Inv lead mem reqs (start F reqs) (ReshapeRun.start reqs) [] [] [] [] [] := by
  have hinv : ReshapeRun.Inv hp.config.toReshaperParams reqs (ReshapeRun.start reqs) :=
    ReshapeRun.inv_after hacc (fun _ => .eager) 0
  have hidle : ∀ side, (BurstState.reset.chan side).Idle := by
    intro side
    cases side <;> exact BurstChan.idle_zero
  constructor
  case reshaper => exact hinv
  case state => rfl
  case pending => rfl
  case rok => exact fun _ h => nomatch h
  case rfresh => exact fun _ h => nomatch h
  case reads => exact congrArg (List.map _) F.ax.contents_reset
  case rdescs => exact F.r.contents_reset
  case serves => rfl
  case first => rfl
  case wok => exact fun _ h => nomatch h
  case wfresh => exact fun _ h => nomatch h
  case issued => exact ⟨[], rfl, rfl⟩
  case wBeats => rfl
  case addrs => exact F.ax.contents_reset
  case awTaken_le => exact Nat.le_refl _
  case lead => exact Nat.zero_le _
  case wdescs => exact F.w.contents_reset
  case counting => rfl
  case count => exact fun _ h => nomatch h
  case holds => exact fun _ _ => F.byte.contents_reset
  case rahead => exact .idle (hidle .rd)
  case wahead => exact .idle (hidle .wr)
  case reading => rfl
  case writing => rfl
  case ahead => exact fun h => absurd rfl h

variable (hlead : lead + 2 ≤ p.axReqFifoDepth)
include hlead

theorem inv_after (input : Nat → BackendIn) (t : Nat) : ∃ r rp wp rr wr flight,
    Inv lead mem reqs (after F lead mem reqs input t) r rp wp rr wr flight := by
  induction t with
  | zero => exact ⟨_, _, _, _, _, _, inv_start hp hacc⟩
  | succ t ih =>
      obtain ⟨r, rp, wp, rr, wr, flight, h⟩ := ih
      obtain ⟨rp', pr, wp', pw, rr', wr', flight', added, bytes, hc⟩ :=
        h.exists_cycleDone (x := input t) hp hacc
      exact ⟨_, _, _, _, _, _, h.step hp hacc hlead hc⟩

theorem written_isPrefix (input : Nat → BackendIn) (t : Nat) :
    (after F lead mem reqs input t).written <+: asked mem 0 reqs := by
  obtain ⟨r, rp, wp, rr, wr, flight, h⟩ : ∃ r rp wp rr wr flight,
      Inv lead mem reqs (after F lead mem reqs input t) r rp wp rr wr flight :=
    inv_after hp hacc hlead input t
  exact ⟨_, h.reading⟩

/-- What a backend has written is a first part of what it was asked for, byte by byte and in
order, whatever the alignment of source and destination, and whenever the requests come and the
memory answers; every write burst has the beats its address beat announced. -/
theorem backend_copies (input : Nat → BackendIn) (t : Nat) :
    (after F lead mem reqs input t).written <+: asked mem 0 reqs ∧
    ∀ x, (after F lead mem reqs input t).wFires lead mem x = true →
      ∃ ax, (after F lead mem reqs input t).issued[(after F lead mem reqs input t).wTaken]? =
          some ax ∧
        (((after F lead mem reqs input t).path lead mem x).wLast = true ↔
          (after F lead mem reqs input t).wBeats = ax.len.toNat) := by
  obtain ⟨r, rp, wp, rr, wr, flight, h⟩ : ∃ r rp wp rr wr flight,
      Inv lead mem reqs (after F lead mem reqs input t) r rp wp rr wr flight :=
    inv_after hp hacc hlead input t
  refine ⟨written_isPrefix hp hacc hlead input t, fun x hfires => ?_⟩
  obtain ⟨wp', flight', bytes, hwrite⟩ : ∃ wp' flight' bytes,
    WriteDone lead mem reqs (after F lead mem reqs input t) x wp wp' flight flight' bytes :=
    h.writeDone hp
  exact hwrite.last hfires

end Run

/-! ## On minpool -/

/-- A backend of minpool. -/
def minpoolBackend : BackendParams where
  dataWidth := 256
  axReqFifoDepth := 8
  bufferDepth := 4

theorem minpoolBackend_valid : minpoolBackend.Valid where
  width_pow := by decide +kernel
  width_le := by decide
  two_le_depth := by decide

/-- A load and a store, aligned nowhere. -/
def minpoolReqs : List DmaReq :=
  [{ src := 0x80000ffd#32, dst := 0x106#32, numBytes := 77#32, burstSrc := burstIncr
     burstDst := burstIncr, decoupleRw := true },
   { src := 0x203#32, dst := 0x80000021#32, numBytes := 300#32, burstSrc := burstIncr
     burstDst := burstIncr, decoupleRw := true }]

theorem minpoolReqs_accepted : ReshapeRun.Accepted minpoolReqs := by
  constructor
  · rw [minpoolReqs, List.forall_mem_cons, List.forall_mem_singleton]
    exact ⟨⟨rfl, rfl, fun side => by cases side <;> rfl⟩,
      ⟨rfl, rfl, fun side => by cases side <;> rfl⟩⟩
  · rw [minpoolReqs, List.forall_mem_cons, List.forall_mem_singleton]
    refine ⟨fun side => ?_, fun side => ?_⟩ <;> cases side <;> rw [DmaReq.NoWrap] <;> decide

end BackendRun

end TeraNoC.Dma
