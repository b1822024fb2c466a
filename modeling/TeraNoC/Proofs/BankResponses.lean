import TeraNoC.Lib.Progress
import TeraNoC.Proofs.TcdmAdapter

/-!
# Every request to a bank is answered once

The metadata of a request enters its register when the request is accepted, the
data enters its FIFO a cycle later, and neither queue stops a request: the
register's ready is not connected and the FIFO is asked only whether it is
empty. `Aligned` is what holds them together, and it holds of every request,
well-formed or not, since it says nothing about the memory beyond the word a
request was answered with.

Runs are infinite here, so that a requester can be said to keep taking
responses.
-/

namespace TeraNoC.Hw

open TeraNoC.Lib

variable {Addr Meta : Type} [DecidableEq Addr]
variable (p : AdapterParams Meta) {k : AdapterCells Meta}

/-- The bank after `n` cycles. -/
def BankState.trace (b : BankState Addr k) (inp : Nat → AdapterIn Addr Meta × Word) :
    Nat → BankState Addr k
  | 0 => b
  | n + 1 => (b.trace inp n).next p (inp n).1 (inp n).2

/-- The answers that belong to the requests accepted in the first `n` cycles, in the
order of their acceptance. -/
def BankState.owed (b : BankState Addr k) (inp : Nat → AdapterIn Addr Meta × Word) :
    Nat → List (Meta × Option Word)
  | 0 => []
  | n + 1 => b.owed inp n ++
      if fire (b.trace p inp n).adapter (inp n).1 then
        [ownAnswer p (b.trace p inp n) (inp n).1] else []

/-- What a requester may rely on, given the answers it is owed. -/
structure Intact (b : BankState Addr k) (owed : List (Meta × Option Word)) : Prop where
  metadata : owed.map Prod.fst = b.accepted.map BankReq.metadata
  answered : List.Forall₂ Answers b.delivered (owed.take b.delivered.length)
  offered : inValidO b.adapter = true ↔ b.delivered.length < b.accepted.length
  pending : b.accepted.length ≤ b.delivered.length + 2
  /-- `assert_rdata_full`. -/
  dataRoom : b.adapter.outGnt = true → k.rdataFifo.full b.adapter.rdataFifo = false
  metaRoom : ∀ i : AdapterIn Addr Meta, fire b.adapter i = true →
    k.metaReg.ready b.adapter.metaReg = true

section Run

variable {p} {b : BankState Addr k} (inp : Nat → AdapterIn Addr Meta × Word)

omit [DecidableEq Addr] in
theorem Aligned.intact {done pend owed : List (Meta × Option Word)}
    (h : Aligned p b done pend) (howed : owed = done ++ pend)
    (hmeta : owed.map Prod.fst = b.accepted.map BankReq.metadata) : Intact b owed := by
  have hdone := h.delivered.length_eq
  have hpend := h.length_pend
  have hlen : b.accepted.length = b.delivered.length + pend.length := by
    have := congrArg List.length hmeta
    rw [List.length_map, List.length_map, howed, List.length_append] at this
    omega
  refine ⟨hmeta, ?_, ?_, by omega, push_room h, fun i => metaReg_ready h⟩
  · rw [howed, hdone, List.take_left]
    exact h.delivered
  · rw [inValidO_iff h, hlen, ← List.length_pos_iff]
    omega

theorem owed_metadata (h0 : b.accepted = []) (n : Nat) :
    (b.owed p inp n).map Prod.fst = (b.trace p inp n).accepted.map BankReq.metadata := by
  induction n with
  | zero =>
      rw [BankState.owed, BankState.trace, h0]
      rfl
  | succ n ih =>
      rw [BankState.owed, BankState.trace, List.map_append, ih]
      show _ = List.map _ (if _ then _ else _)
      split
      · rw [List.map_append]
        rfl
      · simp

/-- The queues stay aligned with what is owed. -/
theorem aligned_trace (h : Aligned p b [] []) (n : Nat) :
    ∃ done pend, b.owed p inp n = done ++ pend ∧ Aligned p (b.trace p inp n) done pend := by
  induction n with
  | zero => exact ⟨[], [], rfl, h⟩
  | succ n ih =>
      obtain ⟨done, pend, howed, hal⟩ := ih
      obtain ⟨done', hsplit, hal'⟩ := hal.next (i := (inp n).1) (inp n).2
      refine ⟨done', _, ?_, hal'⟩
      rw [BankState.owed, howed, ← hsplit, List.append_assoc]

theorem intact_trace (h : Aligned p b [] []) (h0 : b.accepted = []) (n : Nat) :
    Intact (b.trace p inp n) (b.owed p inp n) := by
  obtain ⟨done, pend, howed, hal⟩ := aligned_trace inp h n
  exact hal.intact howed (owed_metadata inp h0 n)

theorem length_accepted_trace (n d : Nat) :
    (b.trace p inp n).accepted.length ≤ (b.trace p inp (n + d)).accepted.length := by
  induction d with
  | zero => exact Nat.le_refl _
  | succ d ih =>
      refine Nat.le_trans ih ?_
      show _ ≤ List.length (if _ then _ else _)
      split
      · simp
      · exact Nat.le_refl _

/-- A response that is offered and taken is delivered. -/
theorem length_delivered_succ (n : Nat) :
    (b.trace p inp (n + 1)).delivered.length = (b.trace p inp n).delivered.length
      + if popResp (b.trace p inp n).adapter (inp n).1 then 1 else 0 := by
  show List.length (if _ then _ else _) = _
  split
  · rw [List.length_append, List.length_singleton]
  · rfl

/-- A requester that keeps taking responses receives all of them. -/
theorem delivered_eventually (h : Aligned p b [] []) (h0 : b.accepted = [])
    (hready : ∀ n, ∃ m, n ≤ m ∧ (inp m).1.respReady = true) (n : Nat) :
    ∃ m, (b.trace p inp n).accepted.length ≤ (b.trace p inp m).delivered.length := by
  -- the measure is what is missing of the requests accepted by cycle `n`
  let missing := fun t => (b.trace p inp n).accepted.length
    - (b.trace p inp (n + t)).delivered.length
  have hle : ∀ t, missing (t + 1) ≤ missing t := by
    intro t
    have := length_delivered_succ (p := p) (b := b) inp (n + t)
    simp only [missing, ← Nat.add_assoc]
    omega
  have hlt : ∀ t, (inp (n + t)).1.respReady = true → 0 < missing t →
      missing (t + 1) < missing t := by
    intro t hr hpos
    simp only [missing] at hpos
    have hacc := length_accepted_trace (p := p) (b := b) inp n t
    have hoffer := (intact_trace inp h h0 (n + t)).offered.mpr (by omega)
    have hdel := length_delivered_succ (p := p) (b := b) inp (n + t)
    rw [popResp, hr, hoffer] at hdel
    simp only [Bool.and_self, if_true] at hdel
    simp only [missing, ← Nat.add_assoc]
    omega
  have hfair : ∀ t, ∃ u, t ≤ u ∧ (inp (n + u)).1.respReady = true := by
    intro t
    obtain ⟨m, hm, hr⟩ := hready (n + t)
    exact ⟨m - n, by omega, by rwa [Nat.add_sub_cancel' (by omega)]⟩
  obtain ⟨t, ht⟩ := eventually_zero hle hlt hfair
  exact ⟨n + t, by simp only [missing] at ht; omega⟩

theorem owed_extends (n d : Nat) : b.owed p inp n <+: b.owed p inp (n + d) := by
  induction d with
  | zero => exact List.prefix_refl _
  | succ d ih => exact ih.trans (List.prefix_append _ _)

theorem length_owed (h0 : b.accepted = []) (n : Nat) :
    (b.owed p inp n).length = (b.trace p inp n).accepted.length := by
  have := congrArg List.length (owed_metadata (p := p) inp h0 n)
  rwa [List.length_map, List.length_map] at this

/-- The response that has the place of a request is that request's own answer. -/
theorem delivered_own (h : Aligned p b [] []) (h0 : b.accepted = []) {n m : Nat}
    (hf : fire (b.trace p inp n).adapter (inp n).1 = true) {d : Meta × Word}
    (hd : (b.trace p inp m).delivered[(b.trace p inp n).accepted.length]? = some d) :
    Answers d (ownAnswer p (b.trace p inp n) (inp n).1) := by
  have hint := intact_trace inp h h0 m
  obtain ⟨hlt, hget⟩ := List.getElem?_eq_some_iff.mp hd
  have hlen := hint.answered.length_eq
  rw [List.length_take] at hlen
  have hans := (List.forall₂_iff_get.mp hint.answered).2 _ hlt (by rw [List.length_take]; omega)
  have hn := length_owed (p := p) inp h0 n
  rcases Nat.lt_or_ge n m with hnm | hmn
  · obtain ⟨rest, hrest⟩ := owed_extends (p := p) (b := b) inp (n + 1) (m - (n + 1))
    rw [Nat.add_sub_cancel' hnm, BankState.owed, if_pos hf] at hrest
    simp only [List.get_eq_getElem, List.getElem_take, ← hrest, ← hn] at hans hget
    rw [hget] at hans
    simpa using hans
  · -- not yet accepted, so not delivered either
    have hpre := (owed_extends (p := p) (b := b) inp m (n - m)).length_le
    rw [Nat.add_sub_cancel' hmn] at hpre
    omega

end Run

/-- Responses leave a bank out of reset in the order in which the requests were
accepted, each with its own request's metadata and data; neither queue is
pushed while full; and none is withheld from a requester that keeps taking
them. -/
theorem response_integrity [Inhabited Addr] (p : AdapterParams Meta) (k : AdapterCells Meta)
    (sram : SramState Addr) (inp : Nat → AdapterIn Addr Meta × Word) :
    (∀ n, Intact ((BankState.reset k sram).trace p inp n)
      ((BankState.reset k sram).owed p inp n)) ∧
    ((∀ n, ∃ m, n ≤ m ∧ (inp m).1.respReady = true) →
      ∀ n, ∃ m, ((BankState.reset k sram).trace p inp n).accepted.length
        ≤ ((BankState.reset k sram).trace p inp m).delivered.length) := by
  have hreset := (Refines.reset (p := p) (k := k) sram).aligned
  exact ⟨intact_trace inp hreset rfl, delivered_eventually inp hreset rfl⟩

/-- A load every cycle, from a requester that is always ready. -/
def loads (t : Nat) : AdapterIn Nat Nat × Word :=
  ({ valid := true, respReady := true
     req := { address := t, amo := .none, write := false, wdata := 0, be := 0, metadata := t } }, 0)

def loadsTrace (n : Nat) : BankState Nat ⟨StreamFifo.list Nat 2, .list Word 2⟩ :=
  (BankState.reset _ { mem := fun a => .ofNat 32 a, rdata := 0 }).trace
    { registerAmo := false, lrScEnable := true, uniqueCoreId := id } loads n

theorem loads_answered :
    ∀ n, ∃ m, (loadsTrace n).accepted.length ≤ (loadsTrace m).delivered.length :=
  (response_integrity _ _ _ loads).2 fun n => ⟨n, Nat.le_refl n, rfl⟩

end TeraNoC.Hw
