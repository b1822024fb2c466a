import TeraNoC.Proofs.DataLanes
import TeraNoC.Proofs.LsuTickets

/-!
# The identifiers of the load/store unit

A trace is the unit under any requests and any memory that answers what it has accepted,
each request once and in any order; the requests are numbered as they arrive. `CycleOk`
is what every cycle of such a trace has: a fresh identifier for a new request, a port that
does not move until the handshake, and answers that are read with the data of their own
requests.

That the unit is empty when all identifiers are free needs two of them. A request waits
in the register either because the memory has not taken it, and then it has an
identifier, or because the table was full; one answer frees one identifier, and the
request takes it in the next cycle.
-/

namespace TeraNoC.Snitch

open TeraNoC.Hw TeraNoC.Lib TeraNoC.Spike

variable {cfg : CoreConfig} {k : LsuCells cfg}

/-- The unit and the requests on their way. -/
structure LsuTrace (k : LsuCells cfg) where
  state : LsuState k
  tickets : List (Ticket cfg)
  count : Nat

namespace LsuTrace

def reset (k : LsuCells cfg) : LsuTrace k where
  state := .reset k
  tickets := []
  count := 0

variable (t : LsuTrace k) (i : LsuIn cfg)

/-- The number of the request with the identifier on the answer port. -/
def answered : Nat :=
  ((t.tickets.find? fun u => decide (u.id = some i.dataPid)).map Ticket.num).getD 0

def next : LsuTrace k where
  state := t.state.next i
  tickets := t.state.ticketsNext i t.count (t.answered i) t.tickets
  count := t.count + 1

/-- The memory answers a request that it has accepted and not yet answered. -/
def Answers : Prop := i.dataPvalid = true → ∃ u ∈ t.tickets, u.id = some i.dataPid

inductive Reachable : LsuTrace k → Prop where
  | reset : Reachable (.reset k)
  | next {t : LsuTrace k} (h : Reachable t) (i : LsuIn cfg) (ha : t.Answers i) :
      Reachable (t.next i)

end LsuTrace

/-- The request's bytes are in one word. -/
def LsuReq.InWord (q : LsuReq cfg) : Prop :=
  (q.qaddr.extractLsb' 0 2).toNat + numBytes q.qsize ≤ 4

/-- The addressed byte, half or word of a word, extended. -/
def LsuReq.addressed (q : LsuReq cfg) (data : Word) : Word :=
  let field := data.extractLsb' (8 * (q.qaddr.extractLsb' 0 2).toNat) (8 * numBytes q.qsize)
  if q.qsigned then field.signExtend 32 else field.setWidth 32

/-- The port of a cycle in which `q` is on offer. -/
structure LsuState.OnPort (s : LsuState k) (i : LsuIn cfg) (id : MetaId cfg) (q : LsuReq cfg) :
    Prop where
  valid : s.dataQvalid i = true
  id : s.dataQid = id
  addr : s.dataQaddr i = LsuState.wordAddr q.qaddr
  write : s.dataQwrite i = q.qwrite
  amo : s.dataQamo i = q.qamo
  strb : s.dataQstrb i = LsuState.byteStrobe q.qsize q.qaddr
  data : s.dataQdata i = LsuState.alignedData q.qaddr q.qdata

/-- The answer port of a cycle in which `q` is answered. -/
structure LsuState.Returns (s : LsuState k) (i : LsuIn cfg) (q : LsuReq cfg) : Prop where
  tag : s.lsuPtag i = q.qtag
  /-- A store's answer is dropped, any other is handed to the core. -/
  valid : s.lsuPvalid i = !q.qwrite
  taken : s.idTablePop i = (q.qwrite || i.pready)
  data : s.ldResult i = LsuState.loadResult (metadataOf q) i.dataPdata
  addressed : q.InWord → s.ldResult i = q.addressed i.dataPdata

/-- What a cycle of the unit has. The first two are the assertions of the source. -/
structure LsuTrace.CycleOk (t : LsuTrace k) (i : LsuIn cfg) : Prop where
  invalid_req_id : ¬ (t.state.idTablePush i = true ∧ t.state.idAvailable t.state.reqId = false)
  invalid_resp_id : ¬ (t.state.idTablePop i = true ∧ t.state.idAvailable i.dataPid = true)
  /-- The identifier on the port is of no request that is outstanding. -/
  fresh : t.state.dataQvalid i = true → ∀ u ∈ t.tickets, u.id ≠ some t.state.dataQid
  /-- The oldest request that the memory has not accepted is on the port. -/
  offers : t.state.dataQvalid i = true → ∃ u,
    (Ticket.queued (t.state.arrived i t.count t.tickets)).head? = some u ∧
      t.state.OnPort i t.state.dataQid u.req
  stable : ∀ q, t.state.OnPort i t.state.dataQid q → i.dataQready = false →
    ∀ i', (t.state.next i).OnPort i' t.state.dataQid q
  returns : i.dataPvalid = true → ∀ u ∈ t.tickets, u.id = some i.dataPid →
    t.state.Returns i u.req
  empty : t.state.lsuEmpty = true → t.tickets = [] ∧ t.state.handshakePending = false

/-! ## Cutting out of a word -/

theorem extract_shift (data : Word) (n w : Nat) :
    (data >>> n).extractLsb' 0 w = data.extractLsb' n w := by
  refine BitVec.eq_of_getLsbD_eq fun j hj => ?_
  simp only [BitVec.getLsbD_extractLsb', BitVec.getLsbD_ushiftRight, Nat.zero_add]

theorem loadResult_addressed (q : LsuReq cfg) (hin : q.InWord) (data : Word) :
    LsuState.loadResult (metadataOf q) data = q.addressed data := by
  rw [LsuReq.InWord] at hin
  rw [LsuState.loadResult, LsuReq.addressed]
  simp only [metadataOf]
  cases hs : q.qsize with
  | byte => simp only [extract_shift, numBytes]
  | halfWord => simp only [extract_shift, numBytes]
  | word =>
      rw [hs, numBytes] at hin
      have hoff : (q.qaddr.extractLsb' 0 2).toNat = 0 := by omega
      simp [hoff, numBytes]
  | double =>
      rw [hs, numBytes] at hin
      omega

/-! ## The invariant -/

namespace LsuTrace

open LsuState

structure Inv (t : LsuTrace k) : Prop where
  tracks : t.state.Tracks t.tickets
  nums : ∀ u ∈ t.tickets, u.num < t.count
  length : (k.reqReg.contents t.state.reqReg).length ≤ 1
  /-- A request waits for the memory, or for one of few identifiers. -/
  waits : k.reqReg.contents t.state.reqReg ≠ [] → t.state.handshakePending = true ∨
    ∀ j j', t.state.idAvailable j = true → t.state.idAvailable j' = true → j = j'

variable {t : LsuTrace k} {i : LsuIn cfg}

theorem inv_reset : Inv (.reset k) where
  tracks := tracks_reset
  nums := nofun
  length := by
    show (k.reqReg.contents k.reqReg.reset).length ≤ 1
    rw [k.reqReg.contents_reset]
    exact Nat.zero_le _
  waits h := absurd k.reqReg.contents_reset h

theorem answers_answered (ha : t.Answers i) :
    LsuState.Answers i (t.answered i) t.tickets := by
  intro hvalid
  obtain ⟨u, hu, hid⟩ := ha hvalid
  rw [answered]
  cases hfind : t.tickets.find? fun u => decide (u.id = some i.dataPid) with
  | none =>
      have := List.find?_eq_none.mp hfind u hu
      simp [hid] at this
  | some v =>
      have hvid := List.find?_some hfind
      exact ⟨v, List.mem_of_find?_eq_some hfind, rfl, by simpa using hvid⟩

theorem Inv.fresh_count (h : t.Inv) : t.count ∉ t.tickets.map Ticket.num := by
  rw [List.mem_map]
  rintro ⟨u, hu, hnum⟩
  exact Nat.ne_of_lt (h.nums u hu) hnum

/-- The register holds one request at most, also with the one that arrives. -/
theorem Inv.arrived_length (h : t.Inv) : (k.reqReg.contents t.state.reqReg ++
    if t.state.regPush i then [i.req] else []).length ≤ 1 := by
  have hlength := h.length
  split
  next hpush =>
    have hroom : k.reqReg.full t.state.reqReg = false := by
      simpa [regPush, lsuQready] using (Bool.and_eq_true_iff.mp hpush).2
    rw [k.reqReg.full_eq, decide_eq_false_iff_not] at hroom
    rw [List.length_append, List.length_singleton]
    omega
  next =>
    rw [List.append_nil]
    exact hlength

theorem Inv.next (h : t.Inv) (ha : t.Answers i) : (t.next i).Inv where
  tracks := h.tracks.next h.fresh_count (answers_answered ha)
  nums u hu := by
    show u.num < t.count + 1
    rcases (mem_ticketsNext hu).1 with hu | ⟨-, v, hv, -, rfl⟩
    · rcases List.mem_append.mp hu with hu | hu
      · exact Nat.lt_succ_of_lt (h.nums u hu)
      · split at hu
        · rw [List.mem_singleton.mp hu]
          exact Nat.lt_succ_self _
        · cases hu
    · rcases List.mem_append.mp hv with hv | hv
      · exact Nat.lt_succ_of_lt (h.nums v hv)
      · split at hv
        · rw [List.mem_singleton.mp hv]
          exact Nat.lt_succ_self _
        · cases hv
  length := by
    have harrived := h.arrived_length (i := i)
    show (k.reqReg.contents (t.state.next i).reqReg).length ≤ 1
    rw [contents_next]
    split
    · rw [List.length_tail]
      omega
    · exact harrived
  waits := by
    intro hwaits
    have harrived := h.arrived_length (i := i)
    change k.reqReg.contents (t.state.next i).reqReg ≠ [] at hwaits
    rw [contents_next] at hwaits
    split at hwaits
    next =>
      -- the one request there was has been accepted
      exact absurd (List.length_eq_zero_iff.mp (by rw [List.length_tail]; omega)) hwaits
    next hnot =>
      have hvalid : t.state.postregValid i = true := by
        rw [postregValid, k.reqReg.empty_eq]
        cases hpush : t.state.regPush i with
        | true => rw [Bool.not_true, Bool.and_false, Bool.not_false]
        | false =>
            rw [hpush, if_neg Bool.false_ne_true, List.append_nil] at hwaits
            simpa using hwaits
      cases hq : t.state.dataQvalid i with
      | true =>
          left
          show t.state.handshakePendingD i = true
          rw [accepts, hq] at hnot
          rw [handshakePendingD, hq]
          simpa using hnot
      | false =>
          -- the table is full, and an answer frees one identifier
          right
          rw [dataQvalid, hvalid, Bool.true_and, Bool.or_eq_false_iff] at hq
          have hfull : ∀ j, t.state.idAvailable j = false := by
            simpa [idTableFull] using hq.1
          have hfreed : ∀ j, (t.next i).state.idAvailable j = true → j = i.dataPid := by
            intro j hj
            change (if (t.state.idTablePop i && i.dataPid == j) = true then true
              else if (t.state.idTablePush i && t.state.reqId == j) = true then false
              else t.state.idAvailable j) = true at hj
            split at hj
            next hpop => exact (beq_iff_eq.mp (Bool.and_eq_true_iff.mp hpop).2).symm
            next =>
              split at hj
              · cases hj
              · rw [hfull j] at hj
                cases hj
          intro j j' hj hj'
          exact (hfreed j hj).trans (hfreed j' hj').symm

theorem Reachable.inv (h : t.Reachable) : t.Inv := by
  induction h with
  | reset => exact inv_reset
  | next _ i ha ih => exact ih.next ha

/-! ## What a cycle has -/

theorem Inv.offers (h : t.Inv) (hv : t.state.dataQvalid i = true) : ∃ u,
    (Ticket.queued (t.state.arrived i t.count t.tickets)).head? = some u ∧
      t.state.OnPort i t.state.dataQid u.req := by
  obtain ⟨u, hhead, hreq⟩ := head_arrived (n := t.count) h.tracks hv
  exact ⟨u, hhead, hv, rfl, by rw [dataQaddr, hreq], by rw [dataQwrite, hreq],
    by rw [dataQamo, hreq], by rw [dataQstrb, hreq], by rw [dataQdata, hreq]⟩

/-- A request that was not accepted stays in the register, and keeps its identifier. -/
theorem stable {q : LsuReq cfg} (hq : t.state.OnPort i t.state.dataQid q)
    (hready : i.dataQready = false) (i' : LsuIn cfg) :
    (t.state.next i).OnPort i' t.state.dataQid q := by
  have hvalid : t.state.postregValid i = true := (Bool.and_eq_true_iff.mp hq.valid).1
  have hpending : t.state.handshakePendingD i = true := by
    rw [handshakePendingD, hq.valid, hready]
    rfl
  have hcontents : k.reqReg.contents (t.state.next i).reqReg = k.reqReg.contents t.state.reqReg ++
      if t.state.regPush i then [i.req] else [] := by
    rw [contents_next, if_neg]
    rw [accepts, hready, Bool.and_false]
    exact Bool.false_ne_true
  obtain ⟨x, rest, hlist⟩ : ∃ x rest, k.reqReg.contents t.state.reqReg ++
      (if t.state.regPush i then [i.req] else []) = x :: rest := by
    refine List.exists_cons_of_ne_nil fun hnil => ?_
    rw [List.append_eq_nil_iff] at hnil
    rw [postregValid, k.reqReg.empty_eq, hnil.1] at hvalid
    split at hnil
    · exact absurd hnil.2 (List.cons_ne_nil _ _)
    next hpush => simp [hpush] at hvalid
  have hreq : (t.state.next i).postregReq i' = t.state.postregReq i := by
    have hnow : t.state.postregReq i = x := k.reqReg.data_eq _ _ _ _ (by rw [hlist]; rfl)
    rw [hnow]
    exact k.reqReg.data_eq _ _ _ _ (by rw [hcontents, hlist]; rfl)
  have hvalid' : (t.state.next i).dataQvalid i' = true := by
    have hp : (t.state.next i).handshakePending = true := hpending
    rw [dataQvalid, hp, Bool.or_true, Bool.and_true, postregValid, k.reqReg.empty_eq, hcontents,
      hlist]
    rfl
  have hid : (t.state.next i).dataQid = t.state.dataQid := by
    have hp : (t.state.next i).handshakePending = true := hpending
    rw [dataQid, if_pos hp]
    exact reqIdQ_next hpending
  exact ⟨hvalid', hid, by rw [← hq.addr, dataQaddr, dataQaddr, hreq],
    by rw [← hq.write, dataQwrite, dataQwrite, hreq], by rw [← hq.amo, dataQamo, dataQamo, hreq],
    by rw [← hq.strb, dataQstrb, dataQstrb, hreq], by rw [← hq.data, dataQdata, dataQdata, hreq]⟩

theorem Inv.returns (h : t.Inv) {u : Ticket cfg} (hu : u ∈ t.tickets)
    (hid : u.id = some i.dataPid) (hvalid : i.dataPvalid = true) : t.state.Returns i u.req := by
  have hmeta := h.tracks.respMetadata_eq hu hid
  refine ⟨?_, ?_, ?_, ?_, fun hin => ?_⟩
  · rw [lsuPtag, hmeta]
    rfl
  · rw [lsuPvalid, hvalid, hmeta]
    rfl
  · rw [idTablePop, hvalid, dataPready, hmeta, Bool.true_and]
    exact Bool.or_comm ..
  · rw [ldResult, hmeta]
  · rw [ldResult, hmeta, loadResult_addressed u.req hin]

/-- With two identifiers or more, no request is on its way once all are free. -/
theorem Inv.empty (h : t.Inv) (hids : 2 ≤ cfg.numLoads) (hempty : t.state.lsuEmpty = true) :
    t.tickets = [] ∧ t.state.handshakePending = false := by
  have hfree : ∀ j, t.state.idAvailable j = true := of_decide_eq_true hempty
  have hpending : t.state.handshakePending = false := by
    by_contra hp
    have hused := (h.tracks.pending (Bool.eq_true_of_not_eq_false hp)).1
    rw [hfree] at hused
    cases hused
  have hqueue : k.reqReg.contents t.state.reqReg = [] := by
    by_contra hne
    rcases h.waits hne with hp | hone
    · rw [hpending] at hp
      cases hp
    · have := hone ⟨0, by omega⟩ ⟨1, by omega⟩ (hfree _) (hfree _)
      exact absurd (congrArg Fin.val this) Nat.zero_ne_one
  refine ⟨List.eq_nil_iff_forall_not_mem.mpr fun u hu => ?_, hpending⟩
  cases hid : u.id with
  | none =>
      have hmem : u ∈ Ticket.queued t.tickets := List.mem_filter.mpr ⟨hu, by rw [hid]; rfl⟩
      have hmap := h.tracks.queue
      rw [hqueue] at hmap
      rw [List.map_eq_nil_iff.mp hmap.symm] at hmem
      cases hmem
  | some j =>
      have hused := h.tracks.used u hu j hid
      rw [hfree] at hused
      cases hused

end LsuTrace

open LsuState

/-- Whatever is requested, and in whatever order the memory answers what it has accepted,
every cycle of the unit is as it should be. -/
theorem lsu_id_table (hids : 2 ≤ cfg.numLoads) {t : LsuTrace k} (ht : t.Reachable)
    (i : LsuIn cfg) (ha : t.Answers i) : t.CycleOk i := by
  have h := ht.inv
  refine ⟨?_, ?_, dataQid_fresh h.tracks, h.offers, fun q hq => LsuTrace.stable hq,
    fun hv u hu hid => h.returns hu hid hv, h.empty hids⟩
  · rintro ⟨hpush, hused⟩
    rw [available_reqId hpush] at hused
    cases hused
  · rintro ⟨hpop, hfree⟩
    obtain ⟨u, hu, hid⟩ := ha (Bool.and_eq_true_iff.mp hpop).1
    rw [h.tracks.used u hu _ hid] at hfree
    cases hfree

/-- A load of a signed byte, which the memory takes or not, and its answer. -/
def byteLoad (ready : Bool) : LsuIn mempoolCore where
  req := ⟨5, false, true, 0x80000003, 0, .byte, .none⟩
  qvalid := true
  pready := true
  dataQready := ready
  dataPdata := 0
  dataPid := ⟨0, by decide⟩
  dataPvalid := false

def byteAnswer : LsuIn mempoolCore where
  __ := byteLoad false
  qvalid := false
  dataPdata := 0x80123456
  dataPvalid := true

/-- The load waits a cycle, is taken, and answered. -/
def byteTrace : LsuTrace (.plain mempoolCore) :=
  ((LsuTrace.reset _).next (byteLoad false)).next (byteLoad true)

theorem lsu_id_table_byteLoad :
    byteTrace.CycleOk byteAnswer ∧ byteTrace.state.ldResult byteAnswer = 0xffffff80 := by
  have hquiet : ∀ (t : LsuTrace (.plain mempoolCore)) ready, t.Answers (byteLoad ready) := by
    intro t ready h
    cases h
  refine ⟨lsu_id_table (by decide) (.next (.next .reset _ (hquiet _ _)) _ (hquiet _ _)) _ ?_,
    by decide⟩
  intro _
  exact ⟨⟨0, (byteLoad false).req, some ⟨0, by decide⟩⟩, List.mem_singleton.mpr rfl, rfl⟩

end TeraNoC.Snitch
