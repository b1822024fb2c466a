import TeraNoC.Hw.AxiToReqrsp

/-!
# Bursts become requests, and answers become bursts

The beats of all read bursts, in order, are those the bridge has let through, those left of the
burst it is at, and those of the bursts to come; so are the beats of the write bursts
(`Side.stream`). While a beat waits in the fork the arbiter is locked on it and nothing it is made
of changes (`holds_next`), so that all three outputs of the fork see the same beats. The responses
come in the order of the requests, and each finds its `meta` at the front of the queue
(`Inv.front`).

The main theorem says what has gone through the bridge at any time: the requests are the beats of
the bursts, in the order of either side and with the words of the W channel, and the responses of
either channel are the answers to those requests, in order.
-/

namespace TeraNoC.Hw.AxiToReqrsp

open TeraNoC.Lib

variable {p : Params}

/-! ## The beats of a burst -/

def Burst.beat (p : Params) (b : Burst) (k : Nat) : MetaT :=
  { b.metaD with
    last := b.len == k
    addr :=
      if k = 0 then b.addr else (b.metaD.addr + k * numBytes b.metaD.size) % 2 ^ p.addrWidth }

def Burst.beats (p : Params) (b : Burst) : List MetaT := (List.range (b.len + 1)).map (b.beat p)

namespace Side

/-- What is left of the burst a side is at. -/
def rest (p : Params) (s : Side) : List MetaT :=
  (List.range s.cnt).map fun k =>
    { s.metaQ with
      last := s.cnt == k + 1
      addr := (s.metaQ.addr + (k + 1) * numBytes s.metaQ.size) % 2 ^ p.addrWidth }

theorem axMeta_of_pos {s : Side} (h : 0 < s.cnt) (new : Option Burst) :
    s.axMeta p new =
      { s.metaQ with
        last := s.cnt == 1
        addr := (s.metaQ.addr + numBytes s.metaQ.size) % 2 ^ p.addrWidth } := if_pos h

theorem axMeta_some {s : Side} (h : ¬0 < s.cnt) (b : Burst) :
    s.axMeta p (some b) = { b.metaD with addr := b.addr } := if_neg h

theorem next_of_pos {s : Side} (h : 0 < s.cnt) (new : Option Burst) (data ready : Bool) :
    s.next p new data ready =
      if data && ready then { cnt := s.cnt - 1, metaQ := s.axMeta p new }
      else { s with metaQ := { s.metaQ with last := s.cnt == 1 } } := if_pos h

theorem next_some {s : Side} (h : ¬0 < s.cnt) (b : Burst) (data ready : Bool) :
    s.next p (some b) data ready = { cnt := if ready then b.len else 0, metaQ := b.metaD } :=
  if_neg h

theorem next_none {s : Side} (h : ¬0 < s.cnt) (data ready : Bool) :
    s.next p none data ready = s := if_neg h

theorem beats_eq (b : Burst) :
    b.beats p = { b.metaD with addr := b.addr } :: (Side.mk b.len b.metaD).rest p := by
  have hfirst : b.beat p 0 = { b.metaD with addr := b.addr } := by
    rw [Burst.beat, ← b.last_eq, if_pos rfl]
  rw [Burst.beats, List.range_succ_eq_map, List.map_cons, List.map_map, hfirst]
  rfl

theorem rest_eq {s : Side} (h : 0 < s.cnt) (new : Option Burst) :
    s.rest p = s.axMeta p new :: (Side.mk (s.cnt - 1) (s.axMeta p new)).rest p := by
  obtain ⟨n, hn⟩ := Nat.exists_eq_succ_of_ne_zero h.ne'
  rw [rest, rest, hn, List.range_succ_eq_map, List.map_cons, List.map_map]
  congr 1
  · rw [axMeta_of_pos h, hn, Nat.zero_add, Nat.one_mul]
  · refine List.map_congr_left fun k _ => ?_
    simp only [Function.comp_apply, axMeta_of_pos h, MetaT.mk.injEq, Nat.succ_eq_add_one, true_and,
      and_true]
    refine ⟨?_, ?_⟩
    · rw [Nat.mod_add_mod, Nat.add_assoc, Nat.add_mul (k + 1) 1, Nat.one_mul,
        Nat.add_comm (_ * _), ← Nat.add_assoc]
    · rw [Nat.add_sub_cancel]
      exact Bool.eq_iff_iff.2 (by simp)

/-- Nothing is lost and nothing is made up in front of the arbiter. -/
theorem stream (s : Side) (data ready : Bool) {new : Option Burst} {bursts : List Burst}
    (hnew : ∀ b ∈ new, bursts.head? = some b) :
    s.rest p ++ bursts.flatMap (Burst.beats p) =
      (if s.valid new data && ready then [s.axMeta p new] else []) ++
        ((s.next p new data ready).rest p ++
          (if s.takes new ready then bursts.tail else bursts).flatMap (Burst.beats p)) := by
  rcases Nat.eq_zero_or_pos s.cnt with h0 | hpos
  case inr =>
    have hno : s.takes new ready = false := by
      rw [takes, beq_eq_false_iff_ne.2 hpos.ne', Bool.false_and, Bool.false_and]
    rw [hno, if_neg Bool.false_ne_true, valid, next_of_pos hpos, if_pos hpos, ← List.append_assoc]
    congr 1
    cases hmoves : data && ready with
    | true =>
        rw [if_pos rfl, if_pos rfl]
        exact rest_eq hpos new
    | false => rfl
  case inl =>
    have hn : ¬0 < s.cnt := by omega
    have hrest : s.rest p = [] := by
      rw [rest, h0]
      rfl
    rw [hrest, List.nil_append, valid, takes, if_neg hn, h0]
    cases new with
    | none =>
        rw [next_none hn, hrest]
        rfl
    | some b =>
        obtain ⟨tl, htl⟩ := List.head?_eq_some_iff.1 (hnew b rfl)
        rw [htl, next_some hn, axMeta_some hn]
        cases ready with
        | false => rfl
        | true =>
            rw [List.flatMap_cons, beats_eq, List.cons_append]
            rfl

/-- A beat that is not taken stays. -/
theorem next_waits (s : Side) (data : Bool) {new new' : Option Burst}
    (h : 0 < s.cnt ∨ new' = new) :
    (s.next p new data false).valid new' data = s.valid new data ∧
      (s.next p new data false).axMeta p new' = s.axMeta p new := by
  rcases Nat.eq_zero_or_pos s.cnt with h0 | hpos
  case inr =>
    have hnext : s.next p new data false =
        { s with metaQ := { s.metaQ with last := s.cnt == 1 } } := by
      rw [next_of_pos hpos, Bool.and_false, if_neg Bool.false_ne_true]
    rw [hnext]
    refine ⟨?_, ?_⟩
    · rw [valid, valid, if_pos hpos, if_pos hpos]
    · rw [axMeta_of_pos hpos]
      exact axMeta_of_pos hpos new'
  case inl =>
    have hn : ¬0 < s.cnt := by omega
    rw [h.resolve_left hn]
    cases new with
    | none =>
        rw [next_none hn]
        exact ⟨rfl, rfl⟩
    | some b =>
        rw [next_some hn, valid, valid, axMeta_some hn, axMeta_some (Nat.lt_irrefl 0), if_neg hn]
        exact ⟨rfl, rfl⟩

/-- A beat on offer is the next one of the side. -/
theorem axMeta_mem (s : Side) {new : Option Burst} {bursts : List Burst} {data : Bool}
    (hnew : ∀ b ∈ new, bursts.head? = some b) (hvalid : s.valid new data = true) :
    s.axMeta p new ∈ s.rest p ++ bursts.flatMap (Burst.beats p) := by
  rw [s.stream data true hnew, hvalid]
  exact List.mem_cons_self

end Side

theorem beat_write {b : Burst} {m : MetaT} (h : m ∈ b.beats p) : m.write = b.metaD.write := by
  obtain ⟨k, -, rfl⟩ := List.mem_map.1 h
  rfl

/-! ## Requests and responses -/

/-- The beats of the reads, or of the writes. -/
def side (write : Bool) (ms : List MetaT) : List MetaT := ms.filter fun m => m.write == write

/-- The requests for a list of beats: each write takes the next word of the W channel. -/
def asked : List (WChan p) → List MetaT → List (MetaT × ReqChan p)
  | _, [] => []
  | ws, m :: ms =>
      (m, m.request (ws.headD default)) :: asked (if m.write then ws.tail else ws) ms

/-- The answers to the beats that `sel` selects. -/
def responses {β : Type} (sel : MetaT → Bool) (beat : MetaT → RspChan p → β)
    (answer : Nat → RspChan p) (ms : List MetaT) : List (MetaT × β) :=
  (ms.zipIdx.filter fun c => sel c.1).map fun c => (c.1, beat c.1 (answer c.2))

theorem side_append (write : Bool) (l : List MetaT) (m : MetaT) :
    side write (l ++ [m]) = side write l ++ if m.write == write then [m] else [] := by
  rw [side, List.filter_append, List.filter_singleton, side]
  cases m.write == write <;> rfl

theorem asked_append (ws : List (WChan p)) (l : List MetaT) (m : MetaT) :
    asked ws (l ++ [m]) =
      asked ws l ++ [(m, m.request ((ws.drop (side true l).length).headD default))] := by
  induction l generalizing ws with
  | nil => rfl
  | cons a l ih =>
      rw [List.cons_append, asked, asked, ih, List.cons_append, side, side, List.filter_cons]
      cases ha : a.write with
      | true =>
          rw [if_pos rfl, if_pos (beq_self_eq_true true), List.length_cons, ← List.drop_tail]
      | false => rfl

theorem asked_fst (ws : List (WChan p)) (l : List MetaT) : (asked ws l).map Prod.fst = l := by
  induction l generalizing ws with
  | nil => rfl
  | cons a l ih => rw [asked, List.map_cons, ih]

theorem responses_append {β : Type} (sel : MetaT → Bool) (beat : MetaT → RspChan p → β)
    (answer : Nat → RspChan p) (l : List MetaT) (m : MetaT) :
    responses sel beat answer (l ++ [m]) =
      responses sel beat answer l ++
        if sel m then [(m, beat m (answer l.length))] else [] := by
  rw [responses, List.zipIdx_append, List.filter_append, List.map_append, Nat.zero_add]
  congr 1
  cases hs : sel m <;> simp [hs]

theorem responses_prefix {β : Type} (sel : MetaT → Bool) (beat : MetaT → RspChan p → β)
    (answer : Nat → RspChan p) {l l' : List MetaT} (h : l <+: l') :
    responses sel beat answer l <+: responses sel beat answer l' := by
  obtain ⟨r, rfl⟩ := h
  rw [responses, responses, List.zipIdx_append, List.filter_append, List.map_append]
  exact List.prefix_append _ _

theorem responses_fst {β : Type} (sel : MetaT → Bool) (beat : MetaT → RspChan p → β)
    (answer : Nat → RspChan p) (l : List MetaT) :
    (responses sel beat answer l).map Prod.fst = l.filter sel := by
  rw [responses, List.map_map]
  have hzip : l.filter sel = (l.zipIdx.map Prod.fst).filter sel := by rw [List.zipIdx_map_fst]
  rw [hzip, List.filter_map]
  rfl

/-! ## The invariant -/

/-- The outputs of the first fork that have its beat. -/
def State.forked {F : Cells p} (s : State F) : ReqOut → Bool := F.fork.done s.fork

/-- The outputs of the second fork that have its response. -/
def State.dynForked {F : Cells p} (s : State F) : RspOut → Bool := F.dynFork.done s.dynFork

/-- The beats `granted` have gone through the arbiter, `cur` waits in the fork. -/
structure Inv {F : Cells p} (answer : Nat → RspChan p) (ars : List ArChan) (aws : List AwChan)
    (ws : List (WChan p)) (s : State F) (granted : List MetaT) (cur : Option MetaT) : Prop where
  reads : side false granted ++
    (s.read.rest p ++ (s.ars.map (ArChan.read p)).flatMap (Burst.beats p)) =
      (ars.map (ArChan.read p)).flatMap (Burst.beats p)
  writes : side true granted ++
    (s.write.rest p ++ (s.aws.map (AwChan.write p)).flatMap (Burst.beats p)) =
      (aws.map (AwChan.write p)).flatMap (Burst.beats p)
  words : s.ws = ws.drop (side true granted).length
  lock : s.selLock = cur.isSome
  holds : ∀ m ∈ cur, ∀ x, s.arbValid x = true ∧ s.axMeta x = m
  forked : ∀ o, s.forked o = true → s.selLock = true
  forkOpen : ∃ o ∈ reqOuts, s.forked o = false
  sent : s.sent = asked ws (granted ++ if s.forked .req then cur.toList else [])
  metas : F.metaBuf.contents s.metaBuf =
    (granted ++ if s.forked .metaBuf then cur.toList else []).drop s.answered
  sels : F.sel.contents s.selBuf =
    ((granted ++ if s.forked .sel then cur.toList else []).map fun m => (m.selB, m.selR)).drop
      s.answered
  rs : s.rs = responses MetaT.selR MetaT.rBeat answer
    (granted.take (s.answered + (s.dynForked .r).toNat))
  bs : s.bs = responses MetaT.selB MetaT.bBeat answer
    (granted.take (s.answered + (s.dynForked .b).toNat))
  answered_le : ∀ o, s.answered + (s.dynForked o).toNat ≤ granted.length
  dynOpen : ∃ o ∈ rspOuts, s.dynForked o = false

section Cycle

variable {F : Cells p} {answer : Nat → RspChan p} {ars : List ArChan} {aws : List AwChan}
  {ws : List (WChan p)} {s : State F} {x : In} {granted : List MetaT} {cur : Option MetaT}

theorem reqTakes_iff {o : ReqOut} : s.reqTakes x o = true ↔
    s.arbValid x = true ∧ s.forked o = false ∧ s.reqReady x o = true := StreamFork.takes_iff

theorem rspTakes_iff {o : RspOut} : s.rspTakes x o = true ↔
    s.joined x = true ∧ s.dynForked o = false ∧ s.rspReady x o = true := StreamFork.takes_iff

theorem forked_next (hno : s.arbReady x = false) (o : ReqOut) :
    (s.next answer x).forked o = (s.forked o || s.reqTakes x o) := StreamFork.done_next_of_not hno

theorem dynForked_next (hno : s.joinReady x = false) (o : RspOut) :
    (s.next answer x).dynForked o = (s.dynForked o || s.rspTakes x o) :=
  StreamFork.done_next_of_not hno

theorem newRead_head : ∀ b ∈ s.newRead x, (s.ars.map (ArChan.read p)).head? = some b := by
  intro b hb
  rw [State.newRead] at hb
  split_ifs at hb
  · rw [List.head?_map]
    exact hb
  · cases hb

theorem newWrite_head : ∀ b ∈ s.newWrite x, (s.aws.map (AwChan.write p)).head? = some b := by
  intro b hb
  rw [State.newWrite] at hb
  split_ifs at hb
  · rw [List.head?_map]
    exact hb
  · cases hb

/-- A side moves when the arbiter lets one of its beats through. -/
theorem rd_moves : (s.rdValid x && s.rdReady x) = (!s.metaSelD x && s.arbReady x) := by
  rw [State.rdReady]
  cases hsel : s.metaSelD x with
  | true => rw [Bool.not_true, Bool.false_and, Bool.and_false]
  | false =>
      cases harb : s.arbReady x with
      | false => rw [Bool.and_false, Bool.and_false]
      | true =>
          have hv := (StreamFork.ready_iff.1 harb).1
          rw [State.arbValid, hsel] at hv
          rw [show s.rdValid x = true from hv]
          rfl

theorem wr_moves : (s.wrValid x && s.wrReady x) = (s.metaSelD x && s.arbReady x) := by
  rw [State.wrReady]
  cases hsel : s.metaSelD x with
  | false => rw [Bool.false_and, Bool.and_false]
  | true =>
      cases harb : s.arbReady x with
      | false => rw [Bool.and_false, Bool.and_false]
      | true =>
          have hv := (StreamFork.ready_iff.1 harb).1
          rw [State.arbValid, hsel] at hv
          rw [show s.wrValid x = true from hv]
          rfl

/-- The beats that have gone through after the cycle. -/
def grants (s : State F) (x : In) (granted : List MetaT) : List MetaT :=
  granted ++ if s.arbReady x then [s.axMeta x] else []

theorem side_grants (write : Bool)
    (hw : s.arbValid x = true → (s.axMeta x).write = s.metaSelD x) :
    side write (grants s x granted) = side write granted ++
      if s.metaSelD x == write && s.arbReady x then [s.axMeta x] else [] := by
  rw [grants]
  cases harb : s.arbReady x with
  | false => rw [Bool.and_false, if_neg Bool.false_ne_true, List.append_nil, List.append_nil]
  | true =>
      rw [if_pos rfl, side_append, hw (StreamFork.ready_iff.1 harb).1, Bool.and_true]

/-- A read that waits in front of the fork is on offer again. -/
theorem newRead_next (h0 : ¬0 < s.read.cnt) (hv : s.rdValid x = true) (hno : s.arbReady x = false)
    (x' : In) : (s.next answer x).newRead x' = s.newRead x := by
  have hsome : (s.newRead x).isSome = true := by
    rw [State.rdValid, Side.valid, if_neg h0] at hv
    exact hv
  have hkeep : s.arTakes x = false := by
    rw [State.arTakes, Side.takes, State.rdReady, hno, Bool.and_false, Bool.and_false]
  have hars : (s.next answer x).ars = s.ars := by
    rw [State.next, hkeep]
    rfl
  rw [State.newRead] at hsome ⊢
  rw [State.newRead]
  split_ifs at hsome with hshown
  · have hne : s.ars.isEmpty = false := by
      cases hl : s.ars with
      | nil => rw [hl] at hsome; cases hsome
      | cons => rfl
    have hagain : (s.next answer x).arShown = true := by
      change ((s.arShown || x.arValid) && !s.ars.isEmpty && !s.arTakes x) = true
      rw [hshown, hne, hkeep]
      rfl
    rw [hagain, Bool.true_or, if_pos rfl, if_pos hshown, hars]
  · cases hsome

theorem wValid_next (hv : s.wValid x = true) (hkeep : s.wTakes x = false) (x' : In) :
    (s.next answer x).wValid x' = true := by
  have hagain : (s.next answer x).wShown = true := by
    change (s.wValid x && !s.wTakes x) = true
    rw [hv, hkeep]
    rfl
  have hws : (s.next answer x).ws = s.ws := by
    rw [State.next, hkeep]
    rfl
  rw [State.wValid, hagain, hws, Bool.true_or, Bool.true_and]
  exact (Bool.and_eq_true_iff.1 hv).2

theorem newWrite_next (h0 : ¬0 < s.write.cnt) (hv : s.wrValid x = true)
    (hno : s.arbReady x = false) (x' : In) : (s.next answer x).newWrite x' = s.newWrite x := by
  have hsome : (s.newWrite x).isSome = true := by
    rw [State.wrValid, Side.valid, if_neg h0] at hv
    exact hv
  have hkeep : s.awTakes x = false := by
    rw [State.awTakes, Side.takes, State.wrReady, hno, Bool.and_false, Bool.and_false]
  have hwkeep : s.wTakes x = false := by
    rw [State.wTakes, State.wrReady, hno, Bool.and_false, Bool.and_false]
  have haws : (s.next answer x).aws = s.aws := by
    rw [State.next, hkeep]
    rfl
  rw [State.newWrite] at hsome ⊢
  rw [State.newWrite]
  split_ifs at hsome with hshown
  · have hne : s.aws.isEmpty = false := by
      cases hl : s.aws with
      | nil => rw [hl] at hsome; cases hsome
      | cons => rfl
    have hboth := Bool.and_eq_true_iff.1 hshown
    have hagain : (s.next answer x).awShown = true := by
      change ((s.awShown || x.awValid) && !s.aws.isEmpty && !s.awTakes x) = true
      rw [hboth.1, hne, hkeep]
      rfl
    rw [hagain, wValid_next hboth.2 hwkeep, Bool.true_or, Bool.and_self, if_pos rfl,
      if_pos hshown, haws]
  · cases hsome

/-- The beat that waits in the fork after the cycle. -/
def waiting (s : State F) (x : In) : Option MetaT :=
  if s.arbValid x && !s.arbReady x then some (s.axMeta x) else none

theorem selLock_of_waits (hv : s.arbValid x = true) (hno : s.arbReady x = false) :
    (s.next answer x).selLock = true := by
  change (if s.selLock then !(s.arbValid x && s.arbReady x) else s.arbValid x && !s.arbReady x) =
    true
  rw [hv, hno]
  split_ifs <;> rfl

/-- A beat in front of the fork stays there, and so does the choice of the arbiter. -/
theorem waits_next (hv : s.arbValid x = true) (hno : s.arbReady x = false) (x' : In) :
    (s.next answer x).arbValid x' = true ∧ (s.next answer x).axMeta x' = s.axMeta x := by
  have hsel : (s.next answer x).metaSelD x' = s.metaSelD x := by
    rw [State.metaSelD, selLock_of_waits hv hno, if_pos rfl]
    rfl
  have hv' := hv
  rw [State.arbValid] at hv' ⊢
  rw [State.axMeta, State.axMeta, hsel]
  cases hs : s.metaSelD x with
  | false =>
      rw [hs] at hv'
      have hready : s.rdReady x = false := by rw [State.rdReady, hno, Bool.and_false]
      have hnew : 0 < s.read.cnt ∨ (s.next answer x).newRead x' = s.newRead x :=
        or_iff_not_imp_left.2 fun h0 => newRead_next h0 hv' hno x'
      have hkeep := s.read.next_waits (p := p) true hnew
      rw [← hready] at hkeep
      exact ⟨hkeep.1.trans hv', hkeep.2⟩
  | true =>
      rw [hs] at hv'
      have hready : s.wrReady x = false := by rw [State.wrReady, hno, Bool.and_false]
      have hnew : 0 < s.write.cnt ∨ (s.next answer x).newWrite x' = s.newWrite x :=
        or_iff_not_imp_left.2 fun h0 => newWrite_next h0 hv' hno x'
      have hword : s.wValid x = true := by
        have hvalid : s.write.valid (s.newWrite x) (s.wValid x) = true := hv'
        rw [Side.valid] at hvalid
        split_ifs at hvalid
        · exact hvalid
        · rw [State.newWrite] at hvalid
          split_ifs at hvalid with hshown
          · exact (Bool.and_eq_true_iff.1 hshown).2
          · cases hvalid
      have hwkeep : s.wTakes x = false := by rw [State.wTakes, hready, Bool.and_false]
      have hkeep := s.write.next_waits (p := p) (s.wValid x) hnew
      rw [← hready] at hkeep
      refine ⟨?_, hkeep.2⟩
      change (s.next answer x).write.valid _ ((s.next answer x).wValid x') = true
      rw [wValid_next hword hwkeep, ← hword]
      exact hkeep.1.trans (hv'.trans hword.symm)

/-- What leaves a queue with a response. -/
theorem drop_next {α : Type} (l : List α) (n : Nat) (pop : Bool) :
    (if pop then (l.drop n).tail else l.drop n) = l.drop (n + pop.toNat) := by
  cases pop with
  | false => rfl
  | true => exact List.tail_drop

theorem mem_reqOuts (o : ReqOut) : o ∈ reqOuts := by cases o <;> decide

theorem mem_rspOuts (o : RspOut) : o ∈ rspOuts := by cases o <;> decide

theorem asked_length (ws : List (WChan p)) (l : List MetaT) : (asked ws l).length = l.length := by
  rw [← List.length_map Prod.fst, asked_fst]

variable (h : Inv answer ars aws ws s granted cur)
include h

theorem Inv.rdMeta_write (hv : s.rdValid x = true) : (s.rdMeta x).write = false := by
  have hmem := List.mem_append_right (side false granted)
    (s.read.axMeta_mem (p := p) (newRead_head (s := s) (x := x)) hv)
  rw [h.reads] at hmem
  obtain ⟨b, hb, hbeat⟩ := List.mem_flatMap.1 hmem
  obtain ⟨ar, -, rfl⟩ := List.mem_map.1 hb
  exact beat_write hbeat

theorem Inv.wrMeta_write (hv : s.wrValid x = true) : (s.wrMeta x).write = true := by
  have hmem := List.mem_append_right (side true granted)
    (s.write.axMeta_mem (p := p) (newWrite_head (s := s) (x := x)) hv)
  rw [h.writes] at hmem
  obtain ⟨b, hb, hbeat⟩ := List.mem_flatMap.1 hmem
  obtain ⟨aw, -, rfl⟩ := List.mem_map.1 hb
  exact beat_write hbeat

/-- The arbiter chooses the writes when it lets a write through. -/
theorem Inv.axMeta_write (hv : s.arbValid x = true) : (s.axMeta x).write = s.metaSelD x := by
  rw [State.arbValid] at hv
  rw [State.axMeta]
  cases hsel : s.metaSelD x with
  | true =>
      rw [hsel, if_pos rfl] at hv
      exact h.wrMeta_write hv
  | false =>
      rw [hsel] at hv
      exact h.rdMeta_write hv

theorem Inv.arb_of_forked {o : ReqOut} (ho : s.forked o = true) (x : In) :
    s.arbValid x = true ∧ cur = some (s.axMeta x) := by
  have hlock := h.forked o ho
  rw [h.lock, Option.isSome_iff_exists] at hlock
  obtain ⟨m, hm⟩ := hlock
  obtain ⟨hv, hmeta⟩ := h.holds m hm x
  exact ⟨hv, hm.trans (congrArg some hmeta.symm)⟩

/-- What an output has of the current beat. -/
theorem Inv.held (o : ReqOut) (x : In) :
    (if s.forked o then cur.toList else []) = if s.forked o then [s.axMeta x] else [] := by
  split_ifs with ho
  · rw [(h.arb_of_forked ho x).2, Option.toList_some]
  · rfl

/-! ### What goes through in a cycle -/

theorem Inv.reads_next : side false (grants s x granted) ++ ((s.next answer x).read.rest p ++
    ((s.next answer x).ars.map (ArChan.read p)).flatMap (Burst.beats p)) =
      (ars.map (ArChan.read p)).flatMap (Burst.beats p) := by
  have hars : (s.next answer x).ars.map (ArChan.read p) =
      if s.arTakes x then (s.ars.map (ArChan.read p)).tail else s.ars.map (ArChan.read p) := by
    rw [← List.map_tail, ← apply_ite (List.map (ArChan.read p))]
    rfl
  have hstream := s.read.stream (p := p) true (s.rdReady x)
    (newRead_head (s := s) (x := x))
  have hmove : (if s.read.valid (s.newRead x) true && s.rdReady x then
      [s.read.axMeta p (s.newRead x)] else []) =
      if s.metaSelD x == false && s.arbReady x then [s.axMeta x] else [] := by
    rw [show s.read.valid (s.newRead x) true = s.rdValid x from rfl, rd_moves]
    cases hsel : s.metaSelD x with
    | true => rfl
    | false =>
        rw [State.axMeta, hsel]
        rfl
  rw [side_grants false h.axMeta_write, List.append_assoc, hars, ← h.reads, hstream, hmove]
  rfl

theorem Inv.writes_next : side true (grants s x granted) ++ ((s.next answer x).write.rest p ++
    ((s.next answer x).aws.map (AwChan.write p)).flatMap (Burst.beats p)) =
      (aws.map (AwChan.write p)).flatMap (Burst.beats p) := by
  have haws : (s.next answer x).aws.map (AwChan.write p) =
      if s.awTakes x then (s.aws.map (AwChan.write p)).tail else s.aws.map (AwChan.write p) := by
    rw [← List.map_tail, ← apply_ite (List.map (AwChan.write p))]
    rfl
  have hstream := s.write.stream (p := p) (s.wValid x) (s.wrReady x)
    (newWrite_head (s := s) (x := x))
  have hmove : (if s.write.valid (s.newWrite x) (s.wValid x) && s.wrReady x then
      [s.write.axMeta p (s.newWrite x)] else []) =
      if s.metaSelD x == true && s.arbReady x then [s.axMeta x] else [] := by
    rw [show s.write.valid (s.newWrite x) (s.wValid x) = s.wrValid x from rfl, wr_moves]
    cases hsel : s.metaSelD x with
    | false => rfl
    | true =>
        rw [State.axMeta, hsel]
        rfl
  rw [side_grants true h.axMeta_write, List.append_assoc, haws, ← h.writes, hstream, hmove]
  rfl

theorem Inv.words_next :
    (s.next answer x).ws = ws.drop (side true (grants s x granted)).length := by
  have hws : (s.next answer x).ws =
      if s.metaSelD x && s.arbReady x then s.ws.tail else s.ws := by
    rw [← wr_moves]
    rfl
  rw [side_grants true h.axMeta_write, hws, h.words, beq_true]
  split_ifs
  · rw [List.tail_drop, List.length_append]
    rfl
  · rw [List.append_nil]

/-! ### What the outputs of the fork have -/

/-- After the cycle an output has what has gone through, and perhaps the beat that waits. -/
theorem Inv.taken (o : ReqOut) :
    (granted ++ if s.forked o then cur.toList else []) ++
      (if s.reqTakes x o then [s.axMeta x] else []) =
    grants s x granted ++ if (s.next answer x).forked o then (waiting s x).toList else [] := by
  refine StreamFork.taken (mem_reqOuts o) (congrArg _ (h.held o x)) fun hno hyes => ?_
  have hv : s.arbValid x = true := by
    rw [StreamFork.done_next_of_not hno, Bool.or_eq_true] at hyes
    rcases hyes with hdone | htakes
    · exact (h.arb_of_forked hdone x).1
    · exact (reqTakes_iff.1 htakes).1
  rw [waiting, hv, State.arbReady, hno]
  rfl

theorem Inv.sent_next : (s.next answer x).sent = asked ws
    (grants s x granted ++ if (s.next answer x).forked .req then (waiting s x).toList else []) := by
  have hsent : (s.next answer x).sent =
      s.sent ++ if s.reqTakes x .req then [s.item x] else [] := rfl
  rw [← h.taken, hsent, h.sent]
  cases htakes : s.reqTakes x .req with
  | false => rw [if_neg Bool.false_ne_true, if_neg Bool.false_ne_true, List.append_nil,
      List.append_nil]
  | true =>
      rw [if_pos rfl, if_pos rfl, (reqTakes_iff.1 htakes).2.1, if_neg Bool.false_ne_true,
        List.append_nil, asked_append, State.item, State.w, h.words]

theorem Inv.answered_le_granted : s.answered ≤ granted.length :=
  (Nat.le_add_right _ _).trans (h.answered_le .b)

/-- A queue, with what is pushed in the cycle. -/
theorem Inv.metas_pushed : F.metaBuf.contents s.metaBuf ++
    (if s.reqTakes x .metaBuf then [s.axMeta x] else []) =
      (grants s x granted ++
        if (s.next answer x).forked .metaBuf then (waiting s x).toList
        else []).drop s.answered := by
  rw [← h.taken, h.metas, List.append_assoc granted,
    List.drop_append_of_le_length h.answered_le_granted,
    List.drop_append_of_le_length h.answered_le_granted, List.append_assoc]

theorem Inv.sels_pushed : F.sel.contents s.selBuf ++
    (if s.reqTakes x .sel then [s.selItem x] else []) =
      ((grants s x granted ++
        if (s.next answer x).forked .sel then (waiting s x).toList else []).map
          fun m => (m.selB, m.selR)).drop s.answered := by
  have hitem : (if s.reqTakes x .sel then [s.selItem x] else []) =
      (if s.reqTakes x .sel then [s.axMeta x] else []).map fun m => (m.selB, m.selR) := by
    split_ifs <;> rfl
  have hle : s.answered ≤ (granted.map fun m => (m.selB, m.selR)).length := by
    rw [List.length_map]
    exact h.answered_le_granted
  rw [← h.taken, h.sels, hitem, List.map_append, List.map_append, List.map_append,
    List.append_assoc, List.drop_append_of_le_length hle, List.drop_append_of_le_length hle,
    List.append_assoc]

theorem Inv.forkOpen_next : ∃ o ∈ reqOuts, (s.next answer x).forked o = false :=
  StreamFork.exists_open h.forkOpen

/-! ### The responses -/

/-- A response comes for a beat that has gone through. -/
theorem Inv.answered_lt (hj : s.joined x = true) : s.answered < (grants s x granted).length := by
  obtain ⟨⟨hp, hmeta⟩, hsel⟩ := Bool.and_eq_true_iff.1 hj |>.imp_left Bool.and_eq_true_iff.1
  have hle := h.answered_le_granted
  rcases Nat.lt_or_ge s.answered granted.length with hlt | hge
  · rw [grants, List.length_append]
    omega
  · -- the beat that waits: then every output has it
    have hreq : s.forked .req = true := by
      by_contra hno
      have hlen : s.answered < s.sent.length := of_decide_eq_true (Bool.and_eq_true_iff.1 hp).2
      rw [h.sent, asked_length, if_neg hno, List.append_nil] at hlen
      omega
    cases harb : s.arbReady x with
    | true =>
        rw [grants, harb, if_pos rfl, List.length_append, List.length_singleton]
        omega
    | false =>
        exfalso
        have hgrants : grants s x granted = granted := by
          rw [grants, harb, if_neg Bool.false_ne_true, List.append_nil]
        have hmetaNext : (s.next answer x).forked .metaBuf = true := by
          by_contra hno
          have hpushed := h.metas_pushed (x := x)
          rw [if_neg hno, List.append_nil, hgrants, List.drop_eq_nil_of_le hge,
            List.append_eq_nil_iff] at hpushed
          rw [State.metaBufValid, F.metaBuf.empty_eq, hpushed.1] at hmeta
          cases htakes : s.reqTakes x .metaBuf with
          | true => rw [htakes, if_pos rfl] at hpushed; cases hpushed.2
          | false => rw [htakes] at hmeta; cases hmeta
        have hselNext : (s.next answer x).forked .sel = true := by
          by_contra hno
          have hpushed := h.sels_pushed (x := x)
          rw [if_neg hno, List.append_nil, hgrants, List.drop_eq_nil_of_le
            (by rw [List.length_map]; exact hge), List.append_eq_nil_iff] at hpushed
          rw [State.selBufValid, F.sel.empty_eq, hpushed.1] at hsel
          cases htakes : s.reqTakes x .sel with
          | true => rw [htakes, if_pos rfl] at hpushed; cases hpushed.2
          | false => rw [htakes] at hsel; cases hsel
        have hreqNext : (s.next answer x).forked .req = true := by
          rw [forked_next harb, hreq, Bool.true_or]
        obtain ⟨o, -, ho⟩ := h.forkOpen_next (x := x)
        cases o
        · rw [hselNext] at ho
          cases ho
        · rw [hmetaNext] at ho
          cases ho
        · rw [hreqNext] at ho
          cases ho

/-- It finds what it needs at the front of the two queues. -/
theorem Inv.front (hj : s.joined x = true) : ∃ m, (grants s x granted)[s.answered]? = some m ∧
    s.metaOut x = m ∧ s.selOut x = (m.selB, m.selR) := by
  have hlt := h.answered_lt hj
  refine ⟨(grants s x granted)[s.answered], List.getElem?_eq_getElem hlt, ?_, ?_⟩
  · refine F.metaBuf.data_eq _ _ _ _ ?_
    rw [h.metas_pushed, List.head?_drop, List.getElem?_append_left hlt,
      List.getElem?_eq_getElem hlt]
  · refine F.sel.data_eq _ _ _ _ ?_
    rw [h.sels_pushed, List.head?_drop, List.getElem?_map, List.getElem?_append_left hlt,
      List.getElem?_eq_getElem hlt]
    rfl

theorem Inv.responses_next {β : Type} {o : RspOut} {sel : MetaT → Bool}
    {beat : MetaT → RspChan p → β} {log : List (MetaT × β)}
    (hlog : log = responses sel beat answer (granted.take (s.answered + (s.dynForked o).toNat)))
    (hsel : ∀ m, s.selOut x = (m.selB, m.selR) → s.selected x o = sel m) :
    (log ++ if s.rspTakes x o && s.selected x o then
      [(s.metaOut x, beat (s.metaOut x) (answer s.answered))] else []) =
    responses sel beat answer ((grants s x granted).take
      ((s.next answer x).answered + ((s.next answer x).dynForked o).toNat)) := by
  have hcount : (s.next answer x).answered + ((s.next answer x).dynForked o).toNat =
      s.answered + (s.dynForked o).toNat + (s.rspTakes x o).toNat :=
    (StreamFork.count (mem_rspOuts o) s.answered).symm
  rw [hcount, hlog]
  cases htakes : s.rspTakes x o with
  | false =>
      rw [Bool.false_and, if_neg Bool.false_ne_true, List.append_nil, Bool.toNat_false,
        Nat.add_zero, grants, List.take_append_of_le_length (h.answered_le o)]
  | true =>
      obtain ⟨hj, hdone, -⟩ := rspTakes_iff.1 htakes
      obtain ⟨m, hm, hmeta, hselOut⟩ := h.front hj
      have hle := h.answered_le_granted
      rw [hdone, Bool.toNat_false, Nat.add_zero, Bool.toNat_true, Bool.true_and, hsel m hselOut,
        hmeta, List.take_add_one, hm, Option.toList_some, responses_append, List.length_take,
        grants, List.take_append_of_le_length hle, List.length_append,
        Nat.min_eq_left (by omega)]

theorem Inv.answered_le_next (o : RspOut) :
    (s.next answer x).answered + ((s.next answer x).dynForked o).toNat ≤
      (grants s x granted).length := by
  have hcount : (s.next answer x).answered + ((s.next answer x).dynForked o).toNat =
      s.answered + (s.dynForked o).toNat + (s.rspTakes x o).toNat :=
    (StreamFork.count (mem_rspOuts o) s.answered).symm
  have hle := h.answered_le o
  rw [hcount]
  cases htakes : s.rspTakes x o with
  | false =>
      rw [Bool.toNat_false, Nat.add_zero, grants, List.length_append]
      omega
  | true =>
      obtain ⟨hj, hdone, -⟩ := rspTakes_iff.1 htakes
      have hlt := h.answered_lt hj
      rw [hdone, Bool.toNat_false, Bool.toNat_true]
      omega

theorem Inv.step : Inv answer ars aws ws (s.next answer x) (grants s x granted) (waiting s x) where
  reads := h.reads_next
  writes := h.writes_next
  words := h.words_next
  lock := by
    have hv : s.selLock = true → s.arbValid x = true := by
      intro hlock
      rw [h.lock, Option.isSome_iff_exists] at hlock
      obtain ⟨m, hm⟩ := hlock
      exact (h.holds m hm x).1
    change (if s.selLock then !(s.arbValid x && s.arbReady x)
      else s.arbValid x && !s.arbReady x) = _
    rw [waiting]
    cases hlock : s.selLock with
    | true =>
        rw [hv hlock]
        cases s.arbReady x <;> rfl
    | false => cases s.arbValid x <;> cases s.arbReady x <;> rfl
  holds := by
    intro m hm x'
    rw [waiting] at hm
    split_ifs at hm with hwaits
    · cases hm
      rw [Bool.and_eq_true, Bool.not_eq_true'] at hwaits
      exact waits_next hwaits.1 hwaits.2 x'
    · cases hm
  forked := by
    intro o ho
    have hno : s.arbReady x = false := by
      by_contra hyes
      rw [Bool.not_eq_false] at hyes
      rw [show (s.next answer x).forked o = false from StreamFork.done_next_of_ready hyes] at ho
      cases ho
    have hdone : (s.forked o || s.reqTakes x o) = true := by
      rw [forked_next hno] at ho
      exact ho
    rw [Bool.or_eq_true] at hdone
    refine selLock_of_waits ?_ hno
    rcases hdone with hdone | htakes
    · exact (h.arb_of_forked hdone x).1
    · exact (reqTakes_iff.1 htakes).1
  forkOpen := h.forkOpen_next
  sent := h.sent_next
  metas := by
    have hpush : s.reqTakes x .metaBuf = true → F.metaBuf.full s.metaBuf = false := fun htakes =>
      Bool.not_eq_true' _ ▸ (reqTakes_iff.1 htakes).2.2
    refine (F.metaBuf.contents_next s.metaBuf _ _ _ hpush).trans ?_
    rw [h.metas_pushed, drop_next]
    rfl
  sels := by
    have hpush : s.reqTakes x .sel = true → F.sel.full s.selBuf = false := fun htakes =>
      Bool.not_eq_true' _ ▸ (reqTakes_iff.1 htakes).2.2
    refine (F.sel.contents_next s.selBuf _ _ _ hpush).trans ?_
    rw [h.sels_pushed, drop_next]
    rfl
  rs := h.responses_next h.rs fun m hm => congrArg Prod.snd hm
  bs := h.responses_next h.bs fun m hm => congrArg Prod.fst hm
  answered_le := h.answered_le_next
  dynOpen := StreamFork.exists_open h.dynOpen

end Cycle

/-! ## A run -/

section Run

variable (F : Cells p) (answer : Nat → RspChan p) (ars : List ArChan) (aws : List AwChan)
  (ws : List (WChan p)) (x : Nat → In)

theorem forked_start (o : ReqOut) : (State.start F ars aws ws).forked o = false :=
  F.fork.done_reset o

theorem dynForked_start (o : RspOut) : (State.start F ars aws ws).dynForked o = false :=
  F.dynFork.done_reset o

theorem inv_start : Inv answer ars aws ws (State.start F ars aws ws) [] none where
  reads := rfl
  writes := rfl
  words := rfl
  lock := rfl
  holds := fun m hm => by cases hm
  forked := fun o ho => by
    rw [forked_start] at ho
    cases ho
  forkOpen := ⟨.sel, mem_reqOuts _, forked_start F ars aws ws _⟩
  sent := by
    rw [forked_start]
    rfl
  metas := by
    rw [forked_start]
    exact F.metaBuf.contents_reset
  sels := by
    rw [forked_start]
    exact F.sel.contents_reset
  rs := by
    rw [dynForked_start]
    rfl
  bs := by
    rw [dynForked_start]
    rfl
  answered_le := fun o => by
    rw [dynForked_start]
    exact Nat.le_refl 0
  dynOpen := ⟨.b, mem_rspOuts _, dynForked_start F ars aws ws _⟩

theorem inv_after (t : Nat) :
    ∃ granted cur, Inv answer ars aws ws (after F answer ars aws ws x t) granted cur := by
  induction t with
  | zero => exact ⟨_, _, inv_start F answer ars aws ws⟩
  | succ t ih =>
      obtain ⟨granted, cur, h⟩ := ih
      exact ⟨_, _, h.step (x := x t)⟩

end Run

/-! ## What the two ends see -/

/-- What has gone through the bridge: the requests are beats of the bursts, in the order of either
side, with the words of the W channel, and the responses are the answers to the requests. So the R
channel has, of the reads, the beats of each burst with its identifier, the last one marked, and
the B channel has one response for each burst of writes. -/
structure Bridged {F : Cells p} (answer : Nat → RspChan p) (ars : List ArChan) (aws : List AwChan)
    (ws : List (WChan p)) (s : State F) : Prop where
  reads : side false (s.sent.map Prod.fst) <+: (ars.map (ArChan.read p)).flatMap (Burst.beats p)
  writes : side true (s.sent.map Prod.fst) <+: (aws.map (AwChan.write p)).flatMap (Burst.beats p)
  words : s.sent = asked ws (s.sent.map Prod.fst)
  rs : s.rs <+: responses MetaT.selR MetaT.rBeat answer (s.sent.map Prod.fst)
  bs : s.bs <+: responses MetaT.selB MetaT.bBeat answer (s.sent.map Prod.fst)
  rBursts : ((s.rs.filter fun c => !c.1.write).map fun c => (c.2.id, c.2.last)) <+:
    ars.flatMap fun ar => (List.range (ar.len + 1)).map fun k => (ar.id, ar.len == k)
  bBursts : (s.bs.map fun c => c.2.id) <+: aws.map fun aw => aw.id

section Ends

variable {F : Cells p} {answer : Nat → RspChan p} {ars : List ArChan} {aws : List AwChan}
  {ws : List (WChan p)} {s : State F} {granted : List MetaT} {cur : Option MetaT}

/-- The beat in front of the fork is the next one of its side. -/
theorem Inv.next_reads (h : Inv answer ars aws ws s granted cur) {x : In}
    (hv : s.arbValid x = true) : side false (granted ++ [s.axMeta x]) <+:
      (ars.map (ArChan.read p)).flatMap (Burst.beats p) := by
  rw [← h.reads, side_append, h.axMeta_write hv, State.axMeta]
  refine List.prefix_append_right_inj _ |>.2 ?_
  rw [State.arbValid] at hv
  cases hsel : s.metaSelD x with
  | true => exact List.nil_prefix
  | false =>
      rw [hsel] at hv
      rw [s.read.stream true true (newRead_head (s := s) (x := x)), Bool.and_true,
        show s.read.valid (s.newRead x) true = true from hv]
      exact List.prefix_append _ _

theorem Inv.next_writes (h : Inv answer ars aws ws s granted cur) {x : In}
    (hv : s.arbValid x = true) : side true (granted ++ [s.axMeta x]) <+:
      (aws.map (AwChan.write p)).flatMap (Burst.beats p) := by
  rw [← h.writes, side_append, h.axMeta_write hv, State.axMeta]
  refine List.prefix_append_right_inj _ |>.2 ?_
  rw [State.arbValid] at hv
  cases hsel : s.metaSelD x with
  | false => exact List.nil_prefix
  | true =>
      rw [hsel] at hv
      rw [s.write.stream (s.wValid x) true (newWrite_head (s := s) (x := x)), Bool.and_true,
        show s.write.valid (s.newWrite x) (s.wValid x) = true from hv]
      exact List.prefix_append _ _

/-- The R beats of a burst of reads. -/
theorem beats_ids (l : List ArChan) :
    ((l.map (ArChan.read p)).flatMap (Burst.beats p)).map (fun m => (m.id, m.last)) =
      l.flatMap fun ar => (List.range (ar.len + 1)).map fun k => (ar.id, ar.len == k) := by
  rw [List.map_flatMap, List.flatMap_map]
  refine List.flatMap_congr fun ar _ => ?_
  rw [Burst.beats, List.map_map]
  rfl

/-- One beat of a burst is the last one. -/
theorem beats_last (b : Burst) : (b.beats p).filter (fun m => m.last) = [b.beat p b.len] := by
  rw [Burst.beats, List.range_succ, List.map_append, List.filter_append, List.map_singleton,
    List.filter_singleton]
  have hnone : ((List.range b.len).map (b.beat p)).filter (fun m => m.last) = [] := by
    rw [List.filter_eq_nil_iff]
    rintro m hm
    obtain ⟨k, hk, rfl⟩ := List.mem_map.1 hm
    have hlt := List.mem_range.1 hk
    change ¬(b.len == k) = true
    rw [beq_iff_eq]
    omega
  have hlast : (b.beat p b.len).last = true := beq_self_eq_true b.len
  rw [hnone, hlast]
  rfl

theorem lasts_ids (l : List AwChan) :
    (((l.map (AwChan.write p)).flatMap (Burst.beats p)).filter fun m => m.last).map
      (fun m => m.id) =
      l.map fun aw => aw.id := by
  induction l with
  | nil => rfl
  | cons aw l ih =>
      rw [List.map_cons, List.flatMap_cons, List.filter_append, beats_last, List.map_append, ih]
      rfl

theorem responses_snd {β : Type} {sel : MetaT → Bool} {beat : MetaT → RspChan p → β}
    {l : List MetaT} {c : MetaT × β} (hc : c ∈ responses sel beat answer l) :
    ∃ rsp, c.2 = beat c.1 rsp := by
  obtain ⟨d, -, rfl⟩ := List.mem_map.1 hc
  exact ⟨_, rfl⟩

/-- The R beats of the reads. -/
theorem responses_reads (answer : Nat → RspChan p) (l : List MetaT) :
    ((responses MetaT.selR MetaT.rBeat answer l).filter fun c => !c.1.write).map
      (fun c => (c.2.id, c.2.last)) = (side false l).map fun m => (m.id, m.last) := by
  have hsel : (l.filter MetaT.selR).filter (fun m => !m.write) = side false l := by
    rw [List.filter_filter]
    refine List.filter_congr fun m _ => ?_
    rw [MetaT.selR]
    cases m.write <;> rfl
  rw [← hsel, ← responses_fst MetaT.selR MetaT.rBeat answer l, List.filter_map, List.map_map]
  refine List.map_congr_left fun c hc => ?_
  obtain ⟨rsp, hrsp⟩ := responses_snd (List.mem_of_mem_filter hc)
  rw [hrsp]
  rfl

/-- The B beats: one for each last beat of the writes. -/
theorem responses_writes (answer : Nat → RspChan p) (l : List MetaT) :
    (responses MetaT.selB MetaT.bBeat answer l).map (fun c => c.2.id) =
      ((side true l).filter fun m => m.last).map fun m => m.id := by
  have hsel : l.filter MetaT.selB = (side true l).filter fun m => m.last := by
    rw [side, List.filter_filter]
    refine List.filter_congr fun m _ => ?_
    rw [MetaT.selB]
    cases m.write <;> cases m.last <;> rfl
  rw [← hsel, ← responses_fst MetaT.selB MetaT.bBeat answer l, List.map_map]
  refine List.map_congr_left fun c hc => ?_
  obtain ⟨rsp, hrsp⟩ := responses_snd hc
  rw [hrsp]
  rfl

theorem Inv.bridged (h : Inv answer ars aws ws s granted cur) : Bridged answer ars aws ws s := by
  have hmetas : s.sent.map Prod.fst = granted ++ if s.forked .req then cur.toList else [] := by
    rw [h.sent, asked_fst]
  have hpre : granted <+: s.sent.map Prod.fst := by
    rw [hmetas]
    exact List.prefix_append _ _
  have hside : side false (s.sent.map Prod.fst) <+:
        (ars.map (ArChan.read p)).flatMap (Burst.beats p) ∧
      side true (s.sent.map Prod.fst) <+:
        (aws.map (AwChan.write p)).flatMap (Burst.beats p) := by
    rw [hmetas]
    cases hreq : s.forked .req with
    | false =>
        rw [if_neg Bool.false_ne_true, List.append_nil]
        exact ⟨⟨_, h.reads⟩, ⟨_, h.writes⟩⟩
    | true =>
        obtain ⟨hv, hcur⟩ := h.arb_of_forked hreq .eager
        rw [if_pos rfl, hcur]
        exact ⟨h.next_reads hv, h.next_writes hv⟩
  have hrs : s.rs <+: responses MetaT.selR MetaT.rBeat answer (s.sent.map Prod.fst) := by
    rw [h.rs]
    exact responses_prefix _ _ _ ((List.take_prefix _ _).trans hpre)
  have hbs : s.bs <+: responses MetaT.selB MetaT.bBeat answer (s.sent.map Prod.fst) := by
    rw [h.bs]
    exact responses_prefix _ _ _ ((List.take_prefix _ _).trans hpre)
  refine ⟨hside.1, hside.2, by rw [hmetas]; exact h.sent, hrs, hbs, ?_, ?_⟩
  · -- of the R channel, the reads
    have hids := (hrs.filter fun c => !c.1.write).map fun c => (c.2.id, c.2.last)
    rw [responses_reads] at hids
    rw [← beats_ids (p := p)]
    exact hids.trans (hside.1.map _)
  · -- of the B channel, the last beats
    have hids := hbs.map fun c => c.2.id
    rw [responses_writes] at hids
    rw [← lasts_ids (p := p)]
    exact hids.trans ((hside.2.filter fun m => m.last).map _)

end Ends

/-- Whenever bursts and words are offered, requests and responses are taken and the memory
answers. -/
theorem after_bridged (F : Cells p) (answer : Nat → RspChan p) (ars : List ArChan)
    (aws : List AwChan) (ws : List (WChan p)) (x : Nat → In) (t : Nat) :
    Bridged answer ars aws ws (after F answer ars aws ws x t) := by
  obtain ⟨granted, cur, h⟩ := inv_after F answer ars aws ws x t
  exact h.bridged

end TeraNoC.Hw.AxiToReqrsp
