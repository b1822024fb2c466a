import Mathlib.Data.List.Nodup
import TeraNoC.Snitch.Lsu

/-!
# Which request an answer of the memory is for

The load/store unit tells the answers of the memory apart by their identifiers alone,
and reuses an identifier as soon as its answer was taken. A `Ticket` is a request
together with the number of the instruction it belongs to; nothing in the unit knows
these numbers. `Tracks` says that the unit's tables fit the tickets on their way: the
queue holds the requests that have no identifier yet, and the entry of an identifier in
use describes the request that has it. The unit keeps this in every cycle in which the
memory answers a request it has accepted before (`Tracks.next`), and then the answer is
read with the data of its own request (`Tracks.respMetadata_eq`).
-/

namespace TeraNoC.Snitch

open TeraNoC.Hw TeraNoC.Lib

variable {cfg : CoreConfig} {k : LsuCells cfg}

def metadataOf (q : LsuReq cfg) : Metadata cfg where
  write := q.qwrite
  tag := q.qtag
  signExt := q.qsigned
  offset := q.qaddr.extractLsb' 0 2
  size := q.qsize

/-- A request of instruction `num`, with its identifier once the memory has it. -/
structure Ticket (cfg : CoreConfig) where
  num : Nat
  req : LsuReq cfg
  id : Option (MetaId cfg)

namespace Ticket

/-- The requests the memory does not have yet, the oldest first. -/
def queued (ts : List (Ticket cfg)) : List (Ticket cfg) := ts.filter fun t => t.id.isNone

/-- The memory accepts the oldest of the queued requests. -/
def send (id : MetaId cfg) : List (Ticket cfg) → List (Ticket cfg)
  | [] => []
  | t :: ts => if t.id.isNone then { t with id := some id } :: ts else t :: send id ts

theorem queued_send (id : MetaId cfg) (ts : List (Ticket cfg)) :
    queued (send id ts) = (queued ts).tail := by
  induction ts with
  | nil => rfl
  | cons t ts ih =>
      obtain ⟨num, req, tid⟩ := t
      cases tid with
      | none => simp [send, queued]
      | some j => simpa [send, queued] using ih

theorem map_num_send (id : MetaId cfg) (ts : List (Ticket cfg)) :
    (send id ts).map num = ts.map num := by
  induction ts with
  | nil => rfl
  | cons t ts ih =>
      obtain ⟨num, req, tid⟩ := t
      cases tid with
      | none => simp [send]
      | some j => simpa [send] using ih

theorem mem_send {id : MetaId cfg} {ts : List (Ticket cfg)} {t : Ticket cfg}
    (h : t ∈ send id ts) :
    t ∈ ts ∨ ∃ u ∈ ts, (queued ts).head? = some u ∧ t = { u with id := some id } := by
  induction ts with
  | nil => cases h
  | cons u ts ih =>
      obtain ⟨num, req, uid⟩ := u
      cases uid with
      | none =>
          rcases List.mem_cons.mp h with rfl | h
          · exact .inr ⟨_, List.mem_cons_self, rfl, rfl⟩
          · exact .inl (List.mem_cons_of_mem _ h)
      | some j =>
          rcases List.mem_cons.mp h with rfl | h
          · exact .inl List.mem_cons_self
          · rcases ih h with h | ⟨u, hu, hhead, rfl⟩
            · exact .inl (List.mem_cons_of_mem _ h)
            · exact .inr ⟨u, List.mem_cons_of_mem _ hu, hhead, rfl⟩

theorem mem_send_of_sent {id : MetaId cfg} {ts : List (Ticket cfg)} {t : Ticket cfg}
    (ht : t ∈ ts) (hsent : t.id.isNone = false) : t ∈ send id ts := by
  induction ts with
  | nil => cases ht
  | cons u ts ih =>
      rw [send]
      rcases List.mem_cons.mp ht with rfl | ht
      · rw [hsent, if_neg Bool.false_ne_true]
        exact List.mem_cons_self
      · split
        · exact List.mem_cons_of_mem _ ht
        · exact List.mem_cons_of_mem _ (ih ht)

/-- With the numbers all different, taking out a ticket that was sent leaves the queue. -/
theorem queued_filter_num {ts : List (Ticket cfg)} {t : Ticket cfg}
    (hnodup : (ts.map num).Nodup) (ht : t ∈ ts) (hsent : t.id.isNone = false) :
    queued (ts.filter fun u => u.num != t.num) = queued ts := by
  rw [queued, List.filter_filter, queued]
  apply List.filter_congr
  intro u hu
  cases hid : u.id.isNone with
  | false => rfl
  | true =>
      have hne : u.num ≠ t.num := by
        intro heq
        have := List.inj_on_of_nodup_map hnodup hu ht heq
        rw [this, hsent] at hid
        cases hid
      simp [hne]

end Ticket

namespace LsuState

open Ticket

/-- The tables of the unit fit the requests `ts` on their way. -/
structure Tracks (s : LsuState k) (ts : List (Ticket cfg)) : Prop where
  nums : (ts.map num).Nodup
  queue : k.reqReg.contents s.reqReg = (queued ts).map req
  used : ∀ t ∈ ts, ∀ j, t.id = some j → s.idAvailable j = false
  metadata : ∀ t ∈ ts, ∀ j, t.id = some j → s.metadata j = metadataOf t.req
  ids : ∀ t ∈ ts, ∀ u ∈ ts, ∀ j, t.id = some j → u.id = some j → t.num = u.num
  /-- A request that was offered and not accepted has its identifier already. -/
  pending : s.handshakePending = true → s.idAvailable s.reqIdQ = false ∧
    (∀ t ∈ ts, t.id ≠ some s.reqIdQ) ∧
    ∃ t, (queued ts).head? = some t ∧ s.metadata s.reqIdQ = metadataOf t.req

/-- The cycle's request has arrived. -/
def arrived (s : LsuState k) (i : LsuIn cfg) (num : Nat) (ts : List (Ticket cfg)) :
    List (Ticket cfg) :=
  ts ++ if s.regPush i then [⟨num, i.req, none⟩] else []

/-- The memory accepts a request in this cycle. -/
def accepts (s : LsuState k) (i : LsuIn cfg) : Bool := s.dataQvalid i && i.dataQready

/-- The requests on their way after a cycle in which instruction `num` issues its request
and the memory answers that of instruction `answered`. -/
def ticketsNext (s : LsuState k) (i : LsuIn cfg) (num answered : Nat)
    (ts : List (Ticket cfg)) : List (Ticket cfg) :=
  let sent := if s.accepts i then send s.dataQid (s.arrived i num ts)
    else s.arrived i num ts
  if s.idTablePop i then sent.filter fun t => t.num != answered else sent

/-- The memory answers a request it has accepted in an earlier cycle. -/
def Answers (i : LsuIn cfg) (answered : Nat) (ts : List (Ticket cfg)) : Prop :=
  i.dataPvalid = true → ∃ t ∈ ts, t.num = answered ∧ t.id = some i.dataPid

theorem tracks_reset : Tracks (.reset k) [] where
  nums := List.nodup_nil
  queue := k.reqReg.contents_reset
  used := by simp
  metadata := by simp
  ids := by simp
  pending := by
    intro h
    cases h

variable {s : LsuState k} {i : LsuIn cfg} {ts : List (Ticket cfg)} {n answered : Nat}

/-- The memory accepts a request exactly when it leaves the queue. -/
theorem pop_eq_accepts : (s.postregValid i && s.postregReady i) = s.accepts i := by
  rw [accepts, postregReady, handshakePendingD, dataQvalid]
  cases s.postregValid i <;> cases s.idTableFull <;> cases s.handshakePending <;>
    cases i.dataQready <;> rfl

theorem contents_next : k.reqReg.contents (s.next i).reqReg =
    if s.accepts i then (k.reqReg.contents s.reqReg ++ if s.regPush i then [i.req] else []).tail
    else k.reqReg.contents s.reqReg ++ if s.regPush i then [i.req] else [] := by
  have hpush : s.regPush i = true → k.reqReg.full s.reqReg = false := by
    intro hp
    simpa [lsuQready] using (Bool.and_eq_true_iff.mp hp).2
  change k.reqReg.contents (k.reqReg.next _ _ _ _) = _
  rw [k.reqReg.contents_next _ _ _ _ hpush, pop_eq_accepts]

theorem contents_arrived (h : s.Tracks ts) :
    k.reqReg.contents s.reqReg ++ (if s.regPush i then [i.req] else []) =
      (queued (s.arrived i n ts)).map req := by
  rw [h.queue, arrived, queued, queued, List.filter_append, List.map_append]
  cases s.regPush i <;> rfl

/-- The request on the port is the oldest one queued. -/
theorem head_arrived (h : s.Tracks ts) (hv : s.dataQvalid i = true) :
    ∃ t, (queued (s.arrived i n ts)).head? = some t ∧ s.postregReq i = t.req := by
  have hvalid : s.postregValid i = true := (Bool.and_eq_true_iff.mp hv).1
  have hjoin := contents_arrived (i := i) (n := n) h
  rw [postregValid, k.reqReg.empty_eq] at hvalid
  cases hq : queued (s.arrived i n ts) with
  | nil =>
      rw [hq, List.map_nil, List.append_eq_nil_iff] at hjoin
      rw [hjoin.1] at hvalid
      cases hp : s.regPush i with
      | true =>
          rw [hp] at hjoin
          cases hjoin.2
      | false =>
          rw [hp] at hvalid
          cases hvalid
  | cons t rest =>
      refine ⟨t, rfl, ?_⟩
      apply k.reqReg.data_eq
      rw [hjoin, hq]
      rfl

/-- The identifier of a new request is free. -/
theorem available_reqId (h : s.idTablePush i = true) : s.idAvailable s.reqId = true := by
  have hfull : s.idTableFull = false := by
    simp only [idTablePush, dataQvalid, Bool.and_eq_true, Bool.or_eq_true, Bool.not_eq_true']
      at h
    rcases h.1.2 with h' | h'
    · exact h'
    · rw [h'] at h
      cases h.2
  rw [idTableFull, decide_eq_false_iff_not, not_forall] at hfull
  obtain ⟨j, hj⟩ := hfull
  exact k.lzc_set _ j (by simpa using hj)

/-- The identifier a request is offered with belongs to no request the memory has. -/
theorem dataQid_fresh (h : s.Tracks ts) (hv : s.dataQvalid i = true) :
    ∀ t ∈ ts, t.id ≠ some s.dataQid := by
  intro t ht hid
  cases hp : s.handshakePending with
  | true =>
      rw [dataQid, hp, if_pos rfl] at hid
      exact (h.pending hp).2.1 t ht hid
  | false =>
      rw [dataQid, hp, if_neg (by simp)] at hid
      have hfree := available_reqId (s := s) (i := i) (by rw [idTablePush, hv, hp]; rfl)
      rw [h.used t ht _ hid] at hfree
      cases hfree

/-- The identifier that is remembered is the one the request is offered with. -/
theorem reqIdQ_next (h : s.handshakePendingD i = true) : (s.next i).reqIdQ = s.dataQid := by
  obtain ⟨hv, hready⟩ := Bool.and_eq_true_iff.mp h
  change (if (s.idTablePush i && !i.dataQready) = true then s.reqId else s.reqIdQ) = _
  rw [hready, idTablePush, hv, dataQid]
  cases s.handshakePending <;> rfl

/-- What is in the tables for an identifier in use stays, unless its answer is taken. -/
theorem entry_kept {j : MetaId cfg} (hused : s.idAvailable j = false)
    (hanswer : s.idTablePop i = true → i.dataPid ≠ j) :
    (s.next i).idAvailable j = false ∧ (s.next i).metadata j = s.metadata j := by
  have hpush : (s.idTablePush i && s.reqId == j) = false := by
    cases hp : s.idTablePush i with
    | false => rfl
    | true =>
        have hne : s.reqId ≠ j := by
          rintro rfl
          rw [available_reqId hp] at hused
          cases hused
        simp [hne]
  have hpop : (s.idTablePop i && i.dataPid == j) = false := by
    cases hp : s.idTablePop i with
    | false => rfl
    | true => simp [hanswer hp]
  constructor
  · change (if (s.idTablePop i && i.dataPid == j) = true then true else _) = false
    rw [hpop, hpush, if_neg Bool.false_ne_true, if_neg Bool.false_ne_true]
    exact hused
  · change (if (s.idTablePush i && s.reqId == j) = true then _ else _) = _
    rw [hpush, if_neg Bool.false_ne_true]

/-- The entry of the request on the port, after the cycle. -/
theorem entry_offered (h : s.Tracks ts) (hv : s.dataQvalid i = true)
    (hanswer : Answers i answered ts) {t : Ticket cfg}
    (hhead : (queued (s.arrived i n ts)).head? = some t) :
    (s.next i).idAvailable s.dataQid = false ∧
      (s.next i).metadata s.dataQid = metadataOf t.req := by
  have hpid : s.idTablePop i = true → i.dataPid ≠ s.dataQid := by
    intro hpop heq
    obtain ⟨u, hu, -, hid⟩ := hanswer (Bool.and_eq_true_iff.mp hpop).1
    rw [heq] at hid
    exact dataQid_fresh h hv u hu hid
  cases hp : s.handshakePending with
  | true =>
      obtain ⟨hused, -, u, hu, hmeta⟩ := h.pending hp
      have hid : s.dataQid = s.reqIdQ := by rw [dataQid, hp, if_pos rfl]
      rw [hid] at hpid ⊢
      obtain ⟨hfree, hkept⟩ := entry_kept hused hpid
      refine ⟨hfree, hkept.trans (hmeta.trans ?_)⟩
      -- the request offered before is still the oldest
      have heq : (queued (s.arrived i n ts)).head? = some u := by
        rw [arrived, queued, List.filter_append, List.head?_append, ← queued, hu]
        rfl
      rw [heq] at hhead
      cases hhead
      rfl
  | false =>
      have hid : s.dataQid = s.reqId := by rw [dataQid, hp, if_neg (by simp)]
      have hpush : s.idTablePush i = true := by rw [idTablePush, hv, hp]; rfl
      obtain ⟨u, hu, hreq⟩ := head_arrived (n := n) h hv
      rw [hhead] at hu
      cases hu
      rw [hid] at hpid ⊢
      constructor
      · change (if (s.idTablePop i && i.dataPid == s.reqId) = true then true
          else if (s.idTablePush i && s.reqId == s.reqId) = true then false else _) = false
        rw [if_neg, hpush, if_pos (by simp)]
        intro hc
        obtain ⟨hpop, heq⟩ := Bool.and_eq_true_iff.mp hc
        exact hpid hpop (beq_iff_eq.mp heq)
      · change (if (s.idTablePush i && s.reqId == s.reqId) = true then s.reqMetadata i else _) = _
        rw [hpush, if_pos (by simp), reqMetadata, hreq]
        rfl

/-! ## A cycle -/

theorem nums_arrived (h : s.Tracks ts) (hfresh : n ∉ ts.map num) :
    ((s.arrived i n ts).map num).Nodup := by
  rw [arrived, List.map_append]
  cases s.regPush i with
  | false => simpa using h.nums
  | true => simpa [List.nodup_append, h.nums] using hfresh

/-- A ticket on its way after the cycle had its identifier before, or was just given it. -/
theorem mem_ticketsNext {t : Ticket cfg} (ht : t ∈ s.ticketsNext i n answered ts) :
    (t ∈ s.arrived i n ts ∨ s.accepts i = true ∧ ∃ u ∈ s.arrived i n ts,
      (queued (s.arrived i n ts)).head? = some u ∧ t = { u with id := some s.dataQid }) ∧
    (s.idTablePop i = true → t.num ≠ answered) := by
  have hsent : t ∈ (if s.accepts i then send s.dataQid (s.arrived i n ts)
      else s.arrived i n ts) ∧ (s.idTablePop i = true → t.num ≠ answered) := by
    rw [ticketsNext] at ht
    cases hp : s.idTablePop i with
    | false =>
        rw [hp, if_neg Bool.false_ne_true] at ht
        exact ⟨ht, fun hc => absurd hc Bool.false_ne_true⟩
    | true =>
        rw [hp, if_pos rfl] at ht
        obtain ⟨hmem, hne⟩ := List.mem_filter.mp ht
        exact ⟨hmem, fun _ => bne_iff_ne.mp hne⟩
  refine ⟨?_, hsent.2⟩
  cases ha : s.accepts i with
  | false =>
      rw [ha, if_neg Bool.false_ne_true] at hsent
      exact .inl hsent.1
  | true =>
      rw [ha, if_pos rfl] at hsent
      exact (mem_send hsent.1).imp id fun h => ⟨rfl, h⟩

/-- A ticket with an identifier had it before the cycle, or is the one accepted in it. -/
theorem id_ticketsNext {t : Ticket cfg} {j : MetaId cfg}
    (ht : t ∈ s.ticketsNext i n answered ts) (hj : t.id = some j) :
    t ∈ ts ∨ s.accepts i = true ∧ j = s.dataQid ∧
      ∃ u, (queued (s.arrived i n ts)).head? = some u ∧ t.req = u.req ∧ t.num = u.num := by
  rcases (mem_ticketsNext ht).1 with ht | ⟨ha, u, -, hhead, rfl⟩
  · rcases List.mem_append.mp ht with ht | ht
    · exact .inl ht
    · split at ht
      · rw [List.mem_singleton.mp ht] at hj
        cases hj
      · cases ht
  · exact .inr ⟨ha, (Option.some.inj hj).symm, u, hhead, rfl, rfl⟩

/-- The identifier of a ticket that stays is not the one that is answered. -/
theorem pid_ne (h : s.Tracks ts) (hanswer : Answers i answered ts) {t : Ticket cfg}
    {j : MetaId cfg} (ht : t ∈ ts) (hj : t.id = some j)
    (hstays : s.idTablePop i = true → t.num ≠ answered) :
    s.idTablePop i = true → i.dataPid ≠ j := by
  rintro hpop rfl
  obtain ⟨u, hu, hnum, hid⟩ := hanswer (Bool.and_eq_true_iff.mp hpop).1
  exact hstays hpop ((h.ids t ht u hu _ hj hid).trans hnum)

theorem queued_ticketsNext (h : s.Tracks ts) (hfresh : n ∉ ts.map num)
    (hanswer : Answers i answered ts) :
    queued (s.ticketsNext i n answered ts) =
      if s.accepts i then (queued (s.arrived i n ts)).tail else queued (s.arrived i n ts) := by
  have hnums := nums_arrived (i := i) h hfresh
  have hsent : queued (if s.accepts i then send s.dataQid (s.arrived i n ts)
      else s.arrived i n ts) =
      if s.accepts i then (queued (s.arrived i n ts)).tail else queued (s.arrived i n ts) := by
    split
    · exact queued_send _ _
    · rfl
  rw [ticketsNext, ← hsent]
  split
  · next hpop =>
    obtain ⟨u, hu, rfl, hid⟩ := hanswer (Bool.and_eq_true_iff.mp hpop).1
    have hisSent : u.id.isNone = false := by rw [hid]; rfl
    have hmem : u ∈ s.arrived i n ts := List.mem_append_left _ hu
    split
    · apply queued_filter_num _ (mem_send_of_sent hmem hisSent) hisSent
      rw [map_num_send]
      exact hnums
    · exact queued_filter_num hnums hmem hisSent
  · rfl

theorem nums_ticketsNext (h : s.Tracks ts) (hfresh : n ∉ ts.map num) :
    ((s.ticketsNext i n answered ts).map num).Nodup := by
  have hnums := nums_arrived (i := i) h hfresh
  have hsent : ((if s.accepts i then send s.dataQid (s.arrived i n ts)
      else s.arrived i n ts).map num).Nodup := by
    split
    · rw [map_num_send]
      exact hnums
    · exact hnums
  rw [ticketsNext]
  split
  · exact hsent.sublist (List.Sublist.map _ List.filter_sublist)
  · exact hsent

theorem Tracks.next (h : s.Tracks ts) (hfresh : n ∉ ts.map num)
    (hanswer : Answers i answered ts) : (s.next i).Tracks (s.ticketsNext i n answered ts) where
  nums := nums_ticketsNext h hfresh
  queue := by
    rw [contents_next, contents_arrived (n := n) h, queued_ticketsNext h hfresh hanswer]
    split
    · exact List.map_tail.symm
    · rfl
  used := by
    intro t ht j hj
    have hstays := (mem_ticketsNext ht).2
    rcases id_ticketsNext ht hj with ht | ⟨ha, rfl, u, hhead, -⟩
    · exact (entry_kept (h.used t ht j hj) (pid_ne h hanswer ht hj hstays)).1
    · exact (entry_offered h (Bool.and_eq_true_iff.mp ha).1 hanswer hhead).1
  metadata := by
    intro t ht j hj
    have hstays := (mem_ticketsNext ht).2
    rcases id_ticketsNext ht hj with ht | ⟨ha, rfl, u, hhead, hreq, -⟩
    · rw [(entry_kept (h.used t ht j hj) (pid_ne h hanswer ht hj hstays)).2]
      exact h.metadata t ht j hj
    · rw [hreq]
      exact (entry_offered h (Bool.and_eq_true_iff.mp ha).1 hanswer hhead).2
  ids := by
    intro t ht u hu j hj hj'
    rcases id_ticketsNext ht hj with ht | ⟨ha, rfl, t', hhead, -, hnum⟩
    · rcases id_ticketsNext hu hj' with hu | ⟨ha, rfl, -⟩
      · exact h.ids t ht u hu j hj hj'
      · exact absurd hj (dataQid_fresh h (Bool.and_eq_true_iff.mp ha).1 t ht)
    · rcases id_ticketsNext hu hj' with hu | ⟨-, -, u', hhead', -, hnum'⟩
      · exact absurd hj' (dataQid_fresh h (Bool.and_eq_true_iff.mp ha).1 u hu)
      · rw [hhead] at hhead'
        cases hhead'
        rw [hnum, hnum']
  pending := by
    intro hp
    obtain ⟨hv, hready⟩ := Bool.and_eq_true_iff.mp (show s.handshakePendingD i = true from hp)
    have haccept : s.accepts i = false := by
      rw [accepts]
      simpa [hv] using hready
    have hid := reqIdQ_next (show s.handshakePendingD i = true from hp)
    obtain ⟨t, hhead, -⟩ := head_arrived (n := n) h hv
    obtain ⟨hfree, hmeta⟩ := entry_offered h hv hanswer hhead
    rw [hid]
    refine ⟨hfree, ?_, t, ?_, hmeta⟩
    · intro u hu hid'
      rcases id_ticketsNext hu hid' with hu | ⟨ha, -⟩
      · exact dataQid_fresh h hv u hu hid'
      · rw [haccept] at ha
        cases ha
    · rw [queued_ticketsNext h hfresh hanswer, haccept]
      exact hhead

/-- The answer is read with the data of the request it is for. -/
theorem Tracks.respMetadata_eq (h : s.Tracks ts) {t : Ticket cfg} (ht : t ∈ ts)
    (hid : t.id = some i.dataPid) : s.respMetadata i = metadataOf t.req :=
  h.metadata t ht _ hid

end LsuState

end TeraNoC.Snitch
