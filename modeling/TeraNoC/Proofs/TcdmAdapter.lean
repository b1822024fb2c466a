import Mathlib.Data.List.Forall2
import TeraNoC.Hw.TcdmAdapter

/-!
# The adapter is a sequential memory

`specExec` executes one request at a time on a memory and a reservation; it has
no phases and no queues. The adapter refines it in acceptance order. The
invariant `Refines` splits what the specification has answered so far into the
responses already delivered and those still pending, and says where a pending
one is: its metadata in the spill register, its data in the FIFO or, for the
youngest, on the SRAM's output. The SRAM itself is the specified memory while
the adapter is idle; during an atomic it is that memory before the write-back,
and the value to be written back is at hand.

A request is accepted only when the FIFO is empty, so at most two responses are
ever pending and neither queue overflows.
-/

namespace TeraNoC.Hw

open TeraNoC.Lib

variable {Addr Meta : Type} [DecidableEq Addr]

/-! ## The sequential memory -/

structure SpecState (Addr : Type) where
  mem : Addr → Word
  resv : Reservation Addr

/-- One request, executed at once. A store answers with a bare acknowledgement. -/
def specExec (p : AdapterParams Meta) (s : SpecState Addr) (r : BankReq Addr Meta) :
    SpecState Addr × Option Word :=
  let (resv, success) := if p.lrScEnable then lrsc p s.resv r else (s.resv, false)
  let mem :=
    if r.amo.modifies then setWord s.mem r.address (amoAlu r.amo (s.mem r.address) r.wdata)
    else if r.write || (success && decide (r.amo = .sc)) then
      setWord s.mem r.address (mergeBytes r.be (s.mem r.address) r.wdata)
    else s.mem
  let resp :=
    if p.lrScEnable && decide (r.amo = .sc) then some (if success then 0 else 1)
    else if r.write then none
    else some (s.mem r.address)
  ({ mem := mem, resv := resv }, resp)

def specState (p : AdapterParams Meta) (s : SpecState Addr) (rs : List (BankReq Addr Meta)) :
    SpecState Addr :=
  rs.foldl (fun s r => (specExec p s r).1) s

/-- The responses to a sequence of requests, each with its request's metadata. -/
def specResps (p : AdapterParams Meta) (s : SpecState Addr) :
    List (BankReq Addr Meta) → List (Meta × Option Word)
  | [] => []
  | r :: rs => (r.metadata, (specExec p s r).2) :: specResps p (specExec p s r).1 rs

theorem specState_append (p : AdapterParams Meta) (s : SpecState Addr)
    (rs : List (BankReq Addr Meta)) (r : BankReq Addr Meta) :
    specState p s (rs ++ [r]) = (specExec p (specState p s rs) r).1 := by
  rw [specState, List.foldl_append]
  rfl

theorem specResps_append (p : AdapterParams Meta) (s : SpecState Addr)
    (rs : List (BankReq Addr Meta)) (r : BankReq Addr Meta) :
    specResps p s (rs ++ [r]) =
      specResps p s rs ++ [(r.metadata, (specExec p (specState p s rs) r).2)] := by
  induction rs generalizing s with
  | nil => rfl
  | cons q rs ih =>
      rw [List.cons_append, specResps, ih, specResps, List.cons_append]
      rfl

/-- The response to request `n` is what the memory left by the requests before it
answers. -/
theorem specResps_getElem? (p : AdapterParams Meta) (s : SpecState Addr)
    {rs : List (BankReq Addr Meta)} {n : Nat} {r : BankReq Addr Meta} (h : rs[n]? = some r) :
    (specResps p s rs)[n]?
      = some (r.metadata, (specExec p (specState p s (rs.take n)) r).2) := by
  induction rs generalizing s n with
  | nil => simp at h
  | cons q rs ih =>
      cases n with
      | zero =>
          obtain rfl := Option.some.inj h
          rfl
      | succ n =>
          rw [List.getElem?_cons_succ] at h
          rw [specResps, List.getElem?_cons_succ, ih _ h, List.take_succ_cons]
          rfl

/-- The data of a response is the specified one, where one is specified. -/
def DataOk (w : Word) (e : Option Word) : Prop := ∀ v, e = some v → w = v

/-- A delivered response answers what is specified for its request. -/
def Answers (d : Meta × Word) (e : Meta × Option Word) : Prop :=
  d.1 = e.1 ∧ DataOk d.2 e.2

/-! ## The invariant -/

variable (p : AdapterParams Meta) {k : AdapterCells Meta}

/-- The read data the adapter holds: in the FIFO and on the SRAM's output. -/
def heldData (b : BankState Addr k) : List Word :=
  k.rdataFifo.contents b.adapter.rdataFifo ++
    if b.adapter.outGnt then [outRdata p b.adapter b.sram.rdata] else []

/-- What is still to be done to the SRAM. -/
def memInv (b : BankState Addr k) (mem : Addr → Word) : Prop :=
  match b.adapter.phase with
  | .idle => b.sram.mem = mem
  | .doAmo => setWord b.sram.mem b.adapter.addrQ (amoResult b.adapter b.sram.rdata) = mem
  | .writeBackAmo =>
      p.registerAmo = true ∧ setWord b.sram.mem b.adapter.addrQ b.adapter.amoResultQ = mem

/-- The queues hold the answers `pend`, after the answers `done` have left. -/
structure Aligned (b : BankState Addr k) (done pend : List (Meta × Option Word)) : Prop where
  delivered : List.Forall₂ Answers b.delivered done
  metas : k.metaReg.contents b.adapter.metaReg = pend.map Prod.fst
  datas : List.Forall₂ DataOk (heldData p b) (pend.map Prod.snd)
  room : (k.rdataFifo.contents b.adapter.rdataFifo).length
    + (if b.adapter.outGnt then 1 else 0) ≤ 2

structure Refines (s0 : SpecState Addr) (b : BankState Addr k)
    (done pend : List (Meta × Option Word)) : Prop where
  split : specResps p s0 b.accepted = done ++ pend
  delivered : List.Forall₂ Answers b.delivered done
  metas : k.metaReg.contents b.adapter.metaReg = pend.map Prod.fst
  datas : List.Forall₂ DataOk (heldData p b) (pend.map Prod.snd)
  room : (k.rdataFifo.contents b.adapter.rdataFifo).length
    + (if b.adapter.outGnt then 1 else 0) ≤ 2
  resv : b.adapter.reservationQ = (specState p s0 b.accepted).resv
  mem : memInv p b (specState p s0 b.accepted).mem

section Step

variable {p} {s0 : SpecState Addr} {b : BankState Addr k}
variable {done pend : List (Meta × Option Word)} {i : AdapterIn Addr Meta}

theorem Refines.aligned (h : Refines p s0 b done pend) : Aligned p b done pend :=
  ⟨h.delivered, h.metas, h.datas, h.room⟩

omit [DecidableEq Addr] in
theorem length_heldData :
    (heldData p b).length = (k.rdataFifo.contents b.adapter.rdataFifo).length
      + if b.adapter.outGnt then 1 else 0 := by
  rw [heldData, List.length_append]
  split <;> rfl

omit [DecidableEq Addr] in
/-- A request is accepted only in an idle adapter with an empty FIFO. -/
theorem fire_cases (h : Aligned p b done pend) (hf : fire b.adapter i = true) :
    b.adapter.phase = .idle ∧ k.rdataFifo.contents b.adapter.rdataFifo = [] := by
  rw [fire, inReadyO, Bool.and_eq_true] at hf
  have hroom := h.room
  cases hph : b.adapter.phase with
  | idle =>
      simp only [hph, rdataReady, k.rdataFifo.usage_eq, k.rdataFifo.full_eq,
        show clog2 2 = 1 from clog2_pow 1, Bool.and_eq_true, beq_iff_eq,
        Bool.not_eq_true', decide_eq_false_iff_not] at hf
      refine ⟨rfl, List.length_eq_zero_iff.mp ?_⟩
      omega
  | doAmo => simp [hph] at hf
  | writeBackAmo => simp [hph] at hf

omit [DecidableEq Addr] in
/-- A response is offered exactly when one is pending. -/
theorem inValidO_iff (h : Aligned p b done pend) :
    inValidO b.adapter = true ↔ pend ≠ [] := by
  have hlen := h.datas.length_eq
  rw [length_heldData, List.length_map] at hlen
  rw [inValidO, k.metaReg.valid_eq, k.rdataFifo.empty_eq, h.metas]
  cases pend with
  | nil => simp
  | cons e pend =>
      simp only [List.map_cons, List.isEmpty_cons, Bool.not_false, Bool.true_and,
        ne_eq, reduceCtorEq, not_false_eq_true, iff_true]
      cases hg : b.adapter.outGnt with
      | true => simp
      | false =>
          rw [hg] at hlen
          cases hc : k.rdataFifo.contents b.adapter.rdataFifo with
          | nil => simp [hc] at hlen
          | cons x xs => simp

omit [DecidableEq Addr] in
/-- The response offered is the one to the oldest pending request. -/
theorem answers_head {e : Meta × Option Word} (h : Aligned p b done (e :: pend)) :
    Answers (inMetaO b.adapter, inRdataO p b.adapter b.sram.rdata) e := by
  have hd := h.datas
  rw [List.map_cons, List.forall₂_cons_right_iff] at hd
  obtain ⟨w, ws, hw, -, hheld⟩ := hd
  constructor
  · exact k.metaReg.data_eq _ _ (by rw [h.metas]; rfl)
  · have hdata : inRdataO p b.adapter b.sram.rdata = w := by
      refine k.rdataFifo.data_eq _ _ _ _ ?_
      rw [heldData] at hheld
      rw [hheld]
      rfl
    rw [hdata]
    exact hw

/-! ## One cycle of the queues -/

omit [DecidableEq Addr] in
/-- Nothing is pushed into a full FIFO. -/
theorem push_room (h : Aligned p b done pend) (hg : b.adapter.outGnt = true) :
    k.rdataFifo.full b.adapter.rdataFifo = false := by
  have hroom := h.room
  rw [hg] at hroom
  rw [k.rdataFifo.full_eq, decide_eq_false_iff_not]
  simp only [if_true] at hroom
  omega

variable (junk : Word)

/-- What the FIFO holds after the cycle. -/
theorem contents_next (h : Aligned p b done pend) :
    k.rdataFifo.contents (b.next p i junk).adapter.rdataFifo =
      if popResp b.adapter i then (heldData p b).tail else heldData p b := by
  show k.rdataFifo.contents (k.rdataFifo.next _ _ _ _) = _
  rw [k.rdataFifo.contents_next _ _ _ _ (push_room h), ← heldData]
  have hpop : (popResp b.adapter i
      && !k.rdataFifo.empty b.adapter.rdataFifo b.adapter.outGnt) = popResp b.adapter i := by
    rw [popResp, inValidO]
    cases i.respReady <;> cases k.metaReg.valid b.adapter.metaReg <;>
      cases k.rdataFifo.empty b.adapter.rdataFifo b.adapter.outGnt <;> rfl
  rw [hpop]

/-- What is pending after the cycle, apart from a request it accepts. -/
def pendAfter (b : BankState Addr k) (i : AdapterIn Addr Meta)
    (pend : List (Meta × Option Word)) : List (Meta × Option Word) :=
  if popResp b.adapter i then pend.tail else pend

omit [DecidableEq Addr] in
/-- The metadata register, whose ready goes nowhere, has room for what is accepted. -/
theorem metaReg_ready (h : Aligned p b done pend) (hf : fire b.adapter i = true) :
    k.metaReg.ready b.adapter.metaReg = true := by
  obtain ⟨-, hc⟩ := fire_cases h hf
  have hlen := h.datas.length_eq
  rw [length_heldData, List.length_map, hc, List.length_nil] at hlen
  rw [k.metaReg.ready_eq, h.metas, List.length_map, decide_eq_true_eq, ← hlen]
  split <;> omega

theorem metas_next (h : Aligned p b done pend) :
    k.metaReg.contents (b.next p i junk).adapter.metaReg =
      (pendAfter b i pend).map Prod.fst ++
        (if fire b.adapter i then [i.req.metadata] else []) := by
  show k.metaReg.contents (k.metaReg.next _ _ _ _) = _
  have hvalid : (k.metaReg.valid b.adapter.metaReg && popResp b.adapter i)
      = popResp b.adapter i := by
    rw [popResp, inValidO]
    cases i.respReady <;> cases k.metaReg.valid b.adapter.metaReg <;>
      cases k.rdataFifo.empty b.adapter.rdataFifo b.adapter.outGnt <;> rfl
  have hpush : (fire b.adapter i && k.metaReg.ready b.adapter.metaReg) = fire b.adapter i := by
    cases hf : fire b.adapter i with
    | false => rfl
    | true => rw [metaReg_ready h hf]; rfl
  rw [k.metaReg.contents_next, hvalid, hpush, h.metas, pendAfter]
  split
  · rw [List.map_tail]
  · rfl

theorem datas_next (h : Aligned p b done pend) :
    List.Forall₂ DataOk (k.rdataFifo.contents (b.next p i junk).adapter.rdataFifo)
      ((pendAfter b i pend).map Prod.snd) := by
  rw [contents_next junk h, pendAfter]
  split
  · cases pend with
    | nil =>
        have := h.datas
        rw [List.map_nil, List.forall₂_nil_right_iff] at this
        rw [this]
        exact .nil
    | cons e pend =>
        have hd := h.datas
        rw [List.map_cons, List.forall₂_cons_right_iff] at hd
        obtain ⟨w, ws, -, hws, hheld⟩ := hd
        rw [hheld]
        exact hws
  · exact h.datas

theorem delivered_next (h : Aligned p b done pend) :
    ∃ done', done' ++ pendAfter b i pend = done ++ pend ∧
      List.Forall₂ Answers (b.next p i junk).delivered done' := by
  show ∃ done', _ ∧ List.Forall₂ Answers
    (if popResp b.adapter i then _ else b.delivered) done'
  rw [pendAfter]
  split
  · rename_i hpop
    rw [popResp, Bool.and_eq_true] at hpop
    cases pend with
    | nil => exact absurd rfl ((inValidO_iff h).mp hpop.2)
    | cons e pend =>
        refine ⟨done ++ [e], by simp, ?_⟩
        exact List.rel_append h.delivered (.cons (answers_head h) .nil)
  · exact ⟨done, rfl, h.delivered⟩

theorem outGnt_next : (b.next p i junk).adapter.outGnt = fire b.adapter i := by
  show (decide (b.adapter.phase = .idle) && (sramPort p b.adapter i b.sram.rdata).req) = _
  cases hph : b.adapter.phase with
  | idle => simp [sramPort, hph]
  | doAmo => simp [fire, inReadyO, hph]
  | writeBackAmo => simp [fire, inReadyO, hph]

theorem room_next (h : Aligned p b done pend) :
    (k.rdataFifo.contents (b.next p i junk).adapter.rdataFifo).length
      + (if (b.next p i junk).adapter.outGnt then 1 else 0) ≤ 2 := by
  have hroom := h.room
  have hheld := length_heldData (p := p) (b := b)
  have hle : (k.rdataFifo.contents (b.next p i junk).adapter.rdataFifo).length
      ≤ (heldData p b).length := by
    rw [contents_next junk h]
    split
    · rw [List.length_tail]
      exact Nat.sub_le _ _
    · exact Nat.le_refl _
  rw [outGnt_next]
  cases hf : fire b.adapter i with
  | false =>
      simp only [Bool.false_eq_true, if_false]
      omega
  | true =>
      obtain ⟨-, hc⟩ := fire_cases h hf
      rw [hc, List.length_nil, Nat.zero_add] at hheld
      have : (if b.adapter.outGnt then 1 else 0) ≤ 1 := by split <;> omega
      simp only [if_true]
      omega

theorem heldData_next : heldData p (b.next p i junk) =
    k.rdataFifo.contents (b.next p i junk).adapter.rdataFifo ++
      if fire b.adapter i then
        [outRdata p (b.next p i junk).adapter (b.next p i junk).sram.rdata] else [] := by
  rw [heldData, outGnt_next]

/-- The answer that belongs to the request accepted in this cycle: its metadata, with
the word that the bank holds at its address or, for an SC, with its outcome. -/
def ownAnswer (p : AdapterParams Meta) (b : BankState Addr k) (i : AdapterIn Addr Meta) :
    Meta × Option Word :=
  (i.req.metadata,
    if p.lrScEnable && decide (i.req.amo = .sc) then
      some (if scSuccessfulD p b.adapter i then 0 else 1)
    else if i.req.write then none
    else some (b.sram.mem i.req.address))

/-- It is on the SRAM's output in the cycle after. -/
theorem ownAnswer_data (h : Aligned p b done pend) (hf : fire b.adapter i = true) :
    DataOk (outRdata p (b.next p i junk).adapter (b.next p i junk).sram.rdata)
      (ownAnswer p b i).2 := by
  obtain ⟨hph, -⟩ := fire_cases h hf
  intro v hv
  simp only [BankState.next, adapterNext, outRdata, sramPort, SramState.next, hph, hf,
    Bool.true_and, Bool.and_true]
  simp only [ownAnswer] at hv
  by_cases hs : p.lrScEnable = true ∧ i.req.amo = .sc
  · simpa [hs.1, hs.2] using hv
  · have hns : (p.lrScEnable && decide (i.req.amo = .sc)) = false := by
      cases hen : p.lrScEnable with
      | false => rfl
      | true => simpa [hen] using hs
    have hnsc : (scSuccessfulD p b.adapter i && decide (i.req.amo = .sc)) = false := by
      rw [scSuccessfulD]
      cases hen : p.lrScEnable with
      | false => rfl
      | true =>
          rw [hen, Bool.true_and] at hns
          rw [hns, Bool.and_false]
    rw [hns] at hv
    cases hw : i.req.write with
    | true => simp [hw] at hv
    | false =>
        have hsq : (p.lrScEnable && decide (i.req.amo = .sc) && p.lrScEnable) = false := by
          rw [hns, Bool.false_and]
        rw [hsq, hnsc]
        simpa [hw] using hv

/-- A cycle keeps the queues aligned; an accepted request's own answer joins them. -/
theorem Aligned.next (h : Aligned p b done pend) :
    ∃ done', done' ++ pendAfter b i pend = done ++ pend ∧
      Aligned p (b.next p i junk) done'
        (pendAfter b i pend ++ if fire b.adapter i then [ownAnswer p b i] else []) := by
  obtain ⟨done', hsplit, hdel⟩ := delivered_next (i := i) junk h
  have hmetas := metas_next (i := i) junk h
  have hheld := heldData_next (p := p) (b := b) (i := i) junk
  have hdatas := datas_next (i := i) junk h
  refine ⟨done', hsplit, hdel, ?_, ?_, room_next junk h⟩
  · rw [hmetas, List.map_append]
    split <;> rfl
  · rw [hheld, List.map_append]
    refine List.rel_append hdatas ?_
    split
    · rename_i hf
      exact .cons (ownAnswer_data junk h hf) .nil
    · exact .nil

/-! ## One cycle of the memory -/

/-- The accepted request's effect on the reservation, as the specification has it. -/
theorem lrsc_fire (h : Refines p s0 b done pend) (hf : fire b.adapter i = true) :
    (reservationD p b.adapter i, scSuccessfulD p b.adapter i) =
      if p.lrScEnable then lrsc p (specState p s0 b.accepted).resv i.req
      else ((specState p s0 b.accepted).resv, false) := by
  rw [reservationD, scSuccessfulD, hf, h.resv]
  cases p.lrScEnable <;> simp

/-- An accepted request's own answer is the specified one. -/
theorem ownAnswer_eq (h : Refines p s0 b done pend) (hf : fire b.adapter i = true) :
    ownAnswer p b i =
      (i.req.metadata, (specExec p (specState p s0 b.accepted) i.req).2) := by
  obtain ⟨hph, -⟩ := fire_cases h.aligned hf
  have hmem := h.mem
  rw [memInv, hph] at hmem
  have hsc := congrArg Prod.snd (lrsc_fire h hf)
  simp only at hmem hsc
  simp only [ownAnswer, specExec, hmem]
  rw [hsc]

/-- An accepted request is executed on the SRAM, except for an atomic's write. -/
theorem fire_mem (h : Refines p s0 b done pend) (hf : fire b.adapter i = true)
    (hwf : i.req.write = true → i.req.amo = .none) :
    memInv p (b.next p i junk) (specExec p (specState p s0 b.accepted) i.req).1.mem := by
  obtain ⟨hph, -⟩ := fire_cases h.aligned hf
  have hmem := h.mem
  rw [memInv, hph] at hmem
  have hsc := congrArg Prod.snd (lrsc_fire h hf)
  simp only at hmem hsc
  simp only [BankState.next, adapterNext, memInv, sramPort, SramState.next, phaseD,
    amoResult, specExec, hph, hf, hmem, decide_true, Bool.true_and]
  simp only [← hsc]
  cases hmod : i.req.amo.modifies with
  | true =>
      have hnsc : i.req.amo ≠ .sc := by
        intro hs
        rw [hs] at hmod
        cases hmod
      have hnw : i.req.write = false := by
        by_contra hw
        rw [Bool.not_eq_false] at hw
        rw [hwf hw] at hmod
        cases hmod
      simp [hnsc, hnw]
  | false => simp

/-- A cycle that accepts nothing finishes what an atomic has begun. -/
theorem stall_mem (h : Refines p s0 b done pend) (hf : fire b.adapter i = false) :
    memInv p (b.next p i junk) (specState p s0 b.accepted).mem := by
  have hmem := h.mem
  rw [memInv] at hmem
  cases hph : b.adapter.phase with
  | idle =>
      simp only [hph] at hmem
      simp [BankState.next, adapterNext, memInv, sramPort, SramState.next, phaseD, hph, hf,
        hmem]
  | doAmo =>
      simp only [hph] at hmem
      cases hr : p.registerAmo with
      | false =>
          simpa [BankState.next, adapterNext, memInv, sramPort, SramState.next, phaseD, hph,
            hr, mergeBytes_all] using hmem
      | true =>
          -- the stale word written now is overwritten in the next cycle
          simpa [BankState.next, adapterNext, memInv, sramPort, SramState.next, phaseD, hph,
            hr, mergeBytes_all, setWord_setWord] using hmem
  | writeBackAmo =>
      simp only [hph] at hmem
      obtain ⟨hr, hmem⟩ := hmem
      simpa [BankState.next, adapterNext, memInv, sramPort, SramState.next, phaseD, hph,
        hr, mergeBytes_all] using hmem

/-- A cycle that accepts nothing keeps the refinement. -/
theorem Refines.stall (h : Refines p s0 b done pend) (hf : fire b.adapter i = false) :
    ∃ done', Refines p s0 (b.next p i junk) done' (pendAfter b i pend) := by
  obtain ⟨done', hsplit, hal⟩ := h.aligned.next (i := i) junk
  have hacc : (b.next p i junk).accepted = b.accepted := by simp [BankState.next, hf]
  simp only [hf, Bool.false_eq_true, if_false, List.append_nil] at hal
  refine ⟨done', ?_, hal.delivered, hal.metas, hal.datas, hal.room, ?_, ?_⟩
  · rw [hacc, h.split, hsplit]
  · rw [hacc, ← h.resv]
    show reservationD p b.adapter i = _
    rw [reservationD, hf, Bool.and_false]
    rfl
  · rw [hacc]
    exact stall_mem junk h hf

/-- So does one that accepts a request, which is then pending. -/
theorem Refines.accept (h : Refines p s0 b done pend) (hf : fire b.adapter i = true)
    (hwf : i.req.write = true → i.req.amo = .none) :
    ∃ done', Refines p s0 (b.next p i junk) done' (pendAfter b i pend ++
      [(i.req.metadata, (specExec p (specState p s0 b.accepted) i.req).2)]) := by
  obtain ⟨done', hsplit, hal⟩ := h.aligned.next (i := i) junk
  have hacc : (b.next p i junk).accepted = b.accepted ++ [i.req] := by
    simp [BankState.next, hf]
  simp only [hf, if_true, ownAnswer_eq h hf] at hal
  refine ⟨done', ?_, hal.delivered, hal.metas, hal.datas, hal.room, ?_, ?_⟩
  · rw [hacc, specResps_append, h.split, ← hsplit, List.append_assoc]
  · rw [hacc, specState_append]
    have hresv := congrArg Prod.fst (lrsc_fire h hf)
    show reservationD p b.adapter i = _
    simp only at hresv
    rw [hresv]
    rfl
  · rw [hacc, specState_append]
    exact fire_mem junk h hf hwf

end Step

/-! ## Runs -/

section Run

variable {p} {s0 : SpecState Addr} {b : BankState Addr k}
variable {done pend : List (Meta × Option Word)}

theorem Refines.run (h : Refines p s0 b done pend)
    {cycles : List (AdapterIn Addr Meta × Word)}
    (hwf : ∀ c ∈ cycles, c.1.valid = true → c.1.req.write = true → c.1.req.amo = .none) :
    ∃ done' pend', Refines p s0 (b.run p cycles) done' pend' := by
  induction cycles generalizing b done pend with
  | nil => exact ⟨done, pend, h⟩
  | cons c cycles ih =>
      have hrest : ∀ c ∈ cycles, c.1.valid = true → c.1.req.write = true →
          c.1.req.amo = .none := fun d hd => hwf d (List.mem_cons_of_mem _ hd)
      cases hf : fire b.adapter c.1 with
      | false =>
          obtain ⟨done', h'⟩ := h.stall c.2 hf
          exact ih h' hrest
      | true =>
          have hvalid : c.1.valid = true := by
            rw [fire, Bool.and_eq_true] at hf
            exact hf.1
          obtain ⟨done', h'⟩ := h.accept c.2 hf
            (hwf c (List.mem_cons_self) hvalid)
          exact ih h' hrest

theorem Refines.reset [Inhabited Addr] (sram : SramState Addr) :
    Refines p { mem := sram.mem, resv := { valid := false, addr := default, core := 0 } }
      (.reset k sram) [] [] where
  split := rfl
  delivered := .nil
  metas := k.metaReg.contents_reset
  datas := by
    show List.Forall₂ DataOk (k.rdataFifo.contents k.rdataFifo.reset ++ []) []
    rw [k.rdataFifo.contents_reset]
    exact .nil
  room := by
    show (k.rdataFifo.contents k.rdataFifo.reset).length + 0 ≤ 2
    rw [k.rdataFifo.contents_reset]
    exact Nat.zero_le _
  resv := rfl
  mem := rfl

/-- Cycles an atomic still needs. -/
def AdapterPhase.rank : AdapterPhase → Nat
  | .idle => 0
  | .writeBackAmo => 1
  | .doAmo => 2

/-- A cycle without a request, with the response port open: one response fewer is
pending and an atomic is one cycle further. -/
theorem Refines.drain (h : Refines p s0 b done pend) {i : AdapterIn Addr Meta} (junk : Word)
    (hv : i.valid = false) (hr : i.respReady = true) :
    (b.next p i junk).accepted = b.accepted ∧
    (b.next p i junk).adapter.phase.rank ≤ b.adapter.phase.rank - 1 ∧
    ∃ done', Refines p s0 (b.next p i junk) done' pend.tail := by
  have hf : fire b.adapter i = false := by rw [fire, hv, Bool.false_and]
  refine ⟨by simp [BankState.next, hf], ?_, ?_⟩
  · show (phaseD p b.adapter i).rank ≤ _
    rw [phaseD]
    cases b.adapter.phase with
    | idle => simp [hf, AdapterPhase.rank]
    | doAmo => cases p.registerAmo <;> simp [AdapterPhase.rank]
    | writeBackAmo => simp [AdapterPhase.rank]
  · obtain ⟨done', h'⟩ := h.stall junk hf
    have hpop : pendAfter b i pend = pend.tail := by
      rw [pendAfter, popResp, hr, Bool.true_and]
      split
      · rfl
      · rename_i hno
        have := mt (inValidO_iff h.aligned).mpr hno
        rw [not_not] at this
        rw [this]
        rfl
    rw [hpop] at h'
    exact ⟨done', h'⟩

omit [DecidableEq Addr] in
theorem Aligned.length_pend (h : Aligned p b done pend) : pend.length ≤ 2 := by
  have hlen := h.datas.length_eq
  rw [length_heldData, List.length_map] at hlen
  exact hlen ▸ h.room

theorem rank_le (ph : AdapterPhase) : ph.rank ≤ 2 := by
  cases ph <;> decide

theorem mem_of_rank_zero (h : Refines p s0 b done pend) (h0 : b.adapter.phase.rank = 0) :
    b.sram.mem = (specState p s0 b.accepted).mem := by
  have hmem := h.mem
  rw [memInv] at hmem
  cases hph : b.adapter.phase with
  | idle => simpa [hph] using hmem
  | doAmo => simp [hph, AdapterPhase.rank] at h0
  | writeBackAmo => simp [hph, AdapterPhase.rank] at h0

/-- Two such cycles deliver everything. -/
theorem Refines.drained (h : Refines p s0 b done pend) {i j : AdapterIn Addr Meta}
    {v w : Word} (hi : i.valid = false ∧ i.respReady = true)
    (hj : j.valid = false ∧ j.respReady = true) :
    (b.run p [(i, v), (j, w)]).accepted = b.accepted ∧
    List.Forall₂ Answers (b.run p [(i, v), (j, w)]).delivered (specResps p s0 b.accepted) ∧
    (b.run p [(i, v), (j, w)]).sram.mem = (specState p s0 b.accepted).mem := by
  obtain ⟨hacc1, hrank1, done1, h1⟩ := h.drain v hi.1 hi.2
  obtain ⟨hacc2, hrank2, done2, h2⟩ := h1.drain w hj.1 hj.2
  have hnil : pend.tail.tail = [] := by
    have := h.aligned.length_pend
    refine List.length_eq_zero_iff.mp ?_
    rw [List.length_tail, List.length_tail]
    omega
  have hrank := rank_le b.adapter.phase
  have hacc := hacc2.trans hacc1
  rw [hnil] at h2
  refine ⟨hacc, ?_, ?_⟩
  · have hsplit := h2.split
    rw [List.append_nil, hacc] at hsplit
    rw [hsplit]
    exact h2.delivered
  · have := mem_of_rank_zero h2 (by omega)
    rw [hacc] at this
    exact this

end Run

end TeraNoC.Hw
