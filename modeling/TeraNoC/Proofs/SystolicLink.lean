import TeraNoC.Proofs.SystolicQueue

/-!
# A queue between two processing elements

One side only ever pushes and the other only ever pops, both blocking. `Link` is what
the two sides know of their queue: how many entries went in and came out, that each of
them is what its number says, and that a side is inside a call only while its element
stands at it. A step of a call either moves it on, or finds the queue full or empty.
-/

namespace TeraNoC.Systolic

open TeraNoC.Runtime

variable {α : Type}

/-- The producer is between two calls, or in one that pushes the entry of `call`. -/
def PushCall (call : Option (Entry α)) : MultiPushPc α → Prop
  | .idle => True
  | .loadTail blocking data => blocking = true ∧ call = some data
  | .loadCounter blocking data _ => blocking = true ∧ call = some data
  | .storeData data _ _ => call = some data
  | .storeTail data _ => call = some data
  | .fetchAdd data => call = some data

def PopCall (call : Bool) : MultiPopPc α → Prop
  | .idle => True
  | .loadHead blocking => blocking = true ∧ call = true
  | .loadCounter blocking _ => blocking = true ∧ call = true
  | .loadData _ _ _ => call = true
  | .storeHead _ _ => call = true
  | .fetchSub _ => call = true

/-- How far a push is. -/
def pushPhase : MultiPushPc α → Nat
  | .idle => 0
  | .loadTail _ _ => 1
  | .loadCounter _ _ _ => 2
  | .storeData _ _ i => 3 + i
  | .storeTail _ _ => 7
  | .fetchAdd _ => 8

def popPhase : MultiPopPc α → Nat
  | .idle => 0
  | .loadHead _ => 1
  | .loadCounter _ _ => 2
  | .loadData _ _ i => 3 + i
  | .storeHead _ _ => 7
  | .fetchSub _ => 8

theorem pushPhase_le (pc : MultiPushPc α) : pushPhase pc ≤ 8 := by
  cases pc with
  | storeData data currentTail i =>
      have hi : i.val < 4 := i.isLt
      show 3 + i.val ≤ 8
      omega
  | _ => exact Nat.le_of_ble_eq_true rfl

theorem popPhase_le (pc : MultiPopPc α) : popPhase pc ≤ 8 := by
  cases pc with
  | loadData data currentHead i =>
      have hi : i.val < 4 := i.isLt
      show 3 + i.val ≤ 8
      omega
  | _ => exact Nat.le_of_ble_eq_true rfl

/-- A step of one side leaves the other where it is. -/
theorem stepPush_consumer (q : MultiQueue α) (size : Nat) (blocking : Bool) (data : Entry α) :
    (q.stepPush size blocking data).consumer = q.consumer := by
  obtain ⟨buffer, head, tail, counter, producer, consumer, array, pushed, popped, m, n⟩ := q
  rw [MultiQueue.stepPush]
  cases producer with
  | loadCounter b x ct =>
      simp only
      split <;> rfl
  | _ => rfl

theorem stepPop_producer (q : MultiQueue α) (size : Nat) (blocking : Bool) :
    (q.stepPop size blocking).producer = q.producer := by
  obtain ⟨buffer, head, tail, counter, producer, consumer, array, pushed, popped, m, n⟩ := q
  rw [MultiQueue.stepPop]
  cases consumer with
  | loadCounter b ch =>
      simp only
      split <;> rfl
  | _ => rfl

/-- How far the calls of the two sides are. -/
def callPhase (q : MultiQueue α) : Nat := pushPhase q.producer + popPhase q.consumer

/-- A step takes a call back by no more than the end of one. -/
theorem callPhase_stepPush (q : MultiQueue α) (size : Nat) (blocking : Bool) (data : Entry α) :
    callPhase q ≤ callPhase (q.stepPush size blocking data) + 8 := by
  have := pushPhase_le q.producer
  rw [callPhase, callPhase, stepPush_consumer]
  omega

theorem callPhase_stepPop (q : MultiQueue α) (size : Nat) (blocking : Bool) :
    callPhase q ≤ callPhase (q.stepPop size blocking) + 8 := by
  have := popPhase_le q.consumer
  rw [callPhase, callPhase, stepPop_producer]
  omega

/-- The queue after `sent` pushes and `got` pops, with the calls its two sides are in. -/
structure Link (size : Nat) (valid : Nat → Entry α → Prop) (q : MultiQueue α) (sent : Nat)
    (push : Option (Entry α)) (got : Nat) (pop : Bool) : Prop where
  inv : MultiQueue.Inv size q
  pushed : q.pushed.length = sent
  popped : q.popped.length = got
  all_valid : ∀ k e, q.pushed[k]? = some e → valid k e
  producer : PushCall push q.producer
  consumer : PopCall pop q.consumer

namespace Link

variable {size : Nat} {valid : Nat → Entry α → Prop} {q : MultiQueue α} {sent got : Nat}
  {push : Option (Entry α)} {pop : Bool} {data : Entry α}

theorem create (buffer : Nat → α) (data : Entry α) (push : Option (Entry α)) (pop : Bool) :
    Link size valid (.create buffer data) 0 push 0 pop where
  inv := MultiQueue.inv_create buffer data
  pushed := rfl
  popped := rfl
  all_valid := fun _ _ h => nomatch h
  producer := trivial
  consumer := trivial

/-- A producer that has not called may. -/
theorem beginPush (h : Link size valid q sent none got pop) (call : Option (Entry α)) :
    Link size valid q sent call got pop := by
  refine ⟨h.inv, h.pushed, h.popped, h.all_valid, ?_, h.consumer⟩
  have hp := h.producer
  cases hpc : q.producer with
  | idle => trivial
  | loadTail b x =>
      rw [hpc] at hp
      exact nomatch hp.2
  | loadCounter b x ct =>
      rw [hpc] at hp
      exact nomatch hp.2
  | storeData x ct i => exact nomatch hpc ▸ hp
  | storeTail x ct => exact nomatch hpc ▸ hp
  | fetchAdd x => exact nomatch hpc ▸ hp

theorem beginPop (h : Link size valid q sent push got false) (call : Bool) :
    Link size valid q sent push got call := by
  refine ⟨h.inv, h.pushed, h.popped, h.all_valid, h.producer, ?_⟩
  have hp := h.consumer
  cases hpc : q.consumer with
  | idle => trivial
  | loadHead b =>
      rw [hpc] at hp
      exact nomatch hp.2
  | loadCounter b ch =>
      rw [hpc] at hp
      exact nomatch hp.2
  | loadData x ch i => exact nomatch hpc ▸ hp
  | storeHead x ch => exact nomatch hpc ▸ hp
  | fetchSub x => exact nomatch hpc ▸ hp

/-- The last step of a push. -/
theorem stepPush_last (h : Link size valid q sent (some data) got pop)
    (hsize : size * dataSize < 2 ^ 32) (hpos : 0 < size) (hvalid : valid sent data)
    {x : Entry α} (hp : q.producer = .fetchAdd x) :
    Link size valid (q.stepPush size true data) (sent + 1) none got pop := by
  obtain rfl : data = x := by
    have hcall := h.producer
    rw [hp] at hcall
    exact Option.some.inj hcall
  have hinv := h.inv.stepPush hsize hpos true data
  rw [MultiQueue.stepPush, hp] at hinv ⊢
  refine ⟨hinv, ?_, h.popped, fun k e he => ?_, trivial, h.consumer⟩
  · rw [List.length_append, h.pushed]
    rfl
  · rcases Nat.lt_or_ge k q.pushed.length with hlt | hge
    · rw [List.getElem?_append_left hlt] at he
      exact h.all_valid k e he
    · rw [List.getElem?_append_right hge, List.getElem?_singleton] at he
      split at he
      · cases he
        obtain rfl : k = sent := by
          have := h.pushed
          omega
        exact hvalid
      · cases he

/-- Any other step of a push. -/
theorem stepPush (h : Link size valid q sent (some data) got pop)
    (hsize : size * dataSize < 2 ^ 32) (hpos : 0 < size)
    (hp : ∀ x, q.producer ≠ .fetchAdd x) :
    Link size valid (q.stepPush size true data) sent (some data) got pop ∧
      (callPhase q < callPhase (q.stepPush size true data) ∨
        q.stepPush size true data = q ∧ sent = got + size) := by
  have hphase : pushPhase q.producer < pushPhase (q.stepPush size true data).producer →
      callPhase q < callPhase (q.stepPush size true data) := by
    rw [callPhase, callPhase, stepPush_consumer]
    exact fun hlt => Nat.add_lt_add_right hlt _
  refine And.imp_right (Or.imp_left hphase) ?_
  have hinv := h.inv.stepPush hsize hpos true data
  have hcall := h.producer
  rw [MultiQueue.stepPush] at hinv ⊢
  cases hpc : q.producer with
  | idle =>
      rw [hpc] at hinv
      exact ⟨⟨hinv, h.pushed, h.popped, h.all_valid, ⟨rfl, rfl⟩, h.consumer⟩,
        .inl (Nat.lt_succ_self 0)⟩
  | loadTail b x =>
      rw [hpc] at hinv hcall
      exact ⟨⟨hinv, h.pushed, h.popped, h.all_valid, hcall, h.consumer⟩, .inl (Nat.lt_succ_self 1)⟩
  | loadCounter b x ct =>
      rw [hpc] at hinv hcall
      obtain ⟨rfl, hx⟩ := hcall
      by_cases hfull : q.counter = size
      · simp only [if_pos hfull] at hinv ⊢
        have hq : { q with producer := .loadCounter true x ct } = q := by rw [← hpc]
        refine ⟨⟨hinv, h.pushed, h.popped, h.all_valid, ⟨rfl, hx⟩, h.consumer⟩, .inr ⟨hq, ?_⟩⟩
        have := h.inv.counter
        have := h.inv.le
        have := h.pushed
        have := h.popped
        omega
      · simp only [if_neg hfull] at hinv ⊢
        exact ⟨⟨hinv, h.pushed, h.popped, h.all_valid, hx, h.consumer⟩, .inl (Nat.lt_succ_self 2)⟩
  | storeData x ct i =>
      rw [hpc] at hinv hcall
      have hi : i.val < 4 := i.isLt
      refine ⟨⟨hinv, h.pushed, h.popped, h.all_valid, ?_, h.consumer⟩, .inl ?_⟩
      · show PushCall _ (MultiQueue.pushLoop x ct (i + 1))
        rw [MultiQueue.pushLoop]
        split
        · exact hcall
        · exact hcall
      · show 3 + i.val < pushPhase (MultiQueue.pushLoop x ct (i + 1))
        rw [MultiQueue.pushLoop]
        split
        · show 3 + i.val < 3 + (i.val + 1)
          omega
        · show 3 + i.val < 7
          omega
  | storeTail x ct =>
      rw [hpc] at hinv hcall
      exact ⟨⟨hinv, h.pushed, h.popped, h.all_valid, hcall, h.consumer⟩, .inl (Nat.lt_succ_self 7)⟩
  | fetchAdd x => exact absurd hpc (hp x)

/-- The last step of a pop, which takes the entry whose turn it is. -/
theorem stepPop_last (h : Link size valid q sent push got true)
    (hsize : size * dataSize < 2 ^ 32) (hpos : 0 < size) {x : Entry α}
    (hp : q.consumer = .fetchSub x) :
    Link size valid (q.stepPop size true) sent push (got + 1) false ∧ valid got x := by
  have hpop := h.inv.pop
  rw [hp] at hpop
  have heq : q.stepPop size true =
      { q with
        counter := sub32 q.counter 1
        consumer := .idle
        data := x
        popped := q.popped ++ [x]
        popStores := q.popStores + 1 } := by
    rw [MultiQueue.stepPop, hp]
  refine ⟨⟨h.inv.stepPop hsize hpos true, ?_, ?_, ?_, ?_, ?_⟩, ?_⟩
  · rw [heq]
    exact h.pushed
  · rw [heq, List.length_append, h.popped]
    rfl
  · rw [heq]
    exact h.all_valid
  · rw [heq]
    exact h.producer
  · rw [heq]
    trivial
  · rw [← h.popped]
    exact h.all_valid _ x hpop.2

theorem stepPop (h : Link size valid q sent push got true)
    (hsize : size * dataSize < 2 ^ 32) (hpos : 0 < size)
    (hp : ∀ x, q.consumer ≠ .fetchSub x) :
    Link size valid (q.stepPop size true) sent push got true ∧
      (callPhase q < callPhase (q.stepPop size true) ∨
        q.stepPop size true = q ∧ sent = got) := by
  have hphase : popPhase q.consumer < popPhase (q.stepPop size true).consumer →
      callPhase q < callPhase (q.stepPop size true) := by
    rw [callPhase, callPhase, stepPop_producer]
    exact fun hlt => Nat.add_lt_add_left hlt _
  refine And.imp_right (Or.imp_left hphase) ?_
  have hinv := h.inv.stepPop hsize hpos true
  have hcall := h.consumer
  rw [MultiQueue.stepPop] at hinv ⊢
  cases hpc : q.consumer with
  | idle =>
      rw [hpc] at hinv
      exact ⟨⟨hinv, h.pushed, h.popped, h.all_valid, h.producer, ⟨rfl, rfl⟩⟩,
        .inl (Nat.lt_succ_self 0)⟩
  | loadHead b =>
      rw [hpc] at hinv hcall
      exact ⟨⟨hinv, h.pushed, h.popped, h.all_valid, h.producer, hcall⟩, .inl (Nat.lt_succ_self 1)⟩
  | loadCounter b ch =>
      rw [hpc] at hinv hcall
      obtain ⟨rfl, -⟩ := hcall
      by_cases hempty : q.counter = 0
      · simp only [if_pos hempty] at hinv ⊢
        have hq : { q with consumer := .loadCounter true ch } = q := by rw [← hpc]
        refine ⟨⟨hinv, h.pushed, h.popped, h.all_valid, h.producer, ⟨rfl, rfl⟩⟩, .inr ⟨hq, ?_⟩⟩
        have := h.inv.counter
        have := h.inv.le
        have := h.pushed
        have := h.popped
        omega
      · simp only [if_neg hempty] at hinv ⊢
        exact ⟨⟨hinv, h.pushed, h.popped, h.all_valid, h.producer, rfl⟩, .inl (Nat.lt_succ_self 2)⟩
  | loadData x ch i =>
      rw [hpc] at hinv
      have hi : i.val < 4 := i.isLt
      refine ⟨⟨hinv, h.pushed, h.popped, h.all_valid, h.producer, ?_⟩, .inl ?_⟩
      · show PopCall _ (MultiQueue.popLoop _ ch (i + 1))
        rw [MultiQueue.popLoop]
        split
        · exact rfl
        · exact rfl
      · show 3 + i.val < popPhase (MultiQueue.popLoop _ ch (i + 1))
        rw [MultiQueue.popLoop]
        split
        · show 3 + i.val < 3 + (i.val + 1)
          omega
        · show 3 + i.val < 7
          omega
  | storeHead x ch =>
      rw [hpc] at hinv
      exact ⟨⟨hinv, h.pushed, h.popped, h.all_valid, h.producer, rfl⟩, .inl (Nat.lt_succ_self 7)⟩
  | fetchSub x => exact absurd hpc (hp x)

end Link

end TeraNoC.Systolic
