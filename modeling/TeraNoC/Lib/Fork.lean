import TeraNoC.Lib.Stream

/-!
# Forks of streams

A fork hands every item to all of its outputs, to each of them when it is ready, and lets go of
the item when the last one has it. It is an interface as the queues are: what a design sees of
its state is which outputs already have the item.

What an output has taken is what all outputs have taken, and the current item if the output has
it (`taken`); and some output always has not (`exists_open`).
-/

namespace TeraNoC.Lib

structure StreamFork {ι : Type} (outs : List ι) where
  State : Type
  reset : State
  /-- The outputs that have the current item. -/
  done : State → ι → Bool
  /-- The item is offered at an output. -/
  valid : State → Bool → ι → Bool
  /-- The fork lets go of the item. -/
  ready : State → Bool → (ι → Bool) → Bool
  next : State → Bool → (ι → Bool) → State
  done_reset : ∀ o, done reset o = false
  valid_eq : ∀ s validI o, valid s validI o = (validI && !done s o)
  ready_eq : ∀ s validI readyI, ready s validI readyI =
    (validI && outs.all fun o => done s o || readyI o)
  done_next : ∀ s validI readyI o, done (next s validI readyI) o =
    if ready s validI readyI then false else done s o || (valid s validI o && readyI o)

namespace StreamFork

variable {ι : Type} {outs : List ι}

/-- A fork that keeps just the marks. -/
def marks (outs : List ι) : StreamFork outs where
  State := ι → Bool
  reset _ := false
  done s := s
  valid s validI o := validI && !s o
  ready s validI readyI := validI && outs.all fun o => s o || readyI o
  next s validI readyI o :=
    if (validI && outs.all fun o => s o || readyI o) = true then false
    else s o || (validI && !s o && readyI o)
  done_reset _ := rfl
  valid_eq _ _ _ := rfl
  ready_eq _ _ _ := rfl
  done_next _ _ _ _ := rfl

variable (K : StreamFork outs) (s : K.State) (validI : Bool) (readyI : ι → Bool)

def takes (o : ι) : Bool := K.valid s validI o && readyI o

variable {K s validI readyI}

theorem ready_iff : K.ready s validI readyI = true ↔
    validI = true ∧ ∀ o ∈ outs, K.done s o = true ∨ readyI o = true := by
  simp only [K.ready_eq, Bool.and_eq_true, List.all_eq_true, Bool.or_eq_true]

theorem takes_iff {o : ι} : K.takes s validI readyI o = true ↔
    validI = true ∧ K.done s o = false ∧ readyI o = true := by
  simp only [takes, K.valid_eq, Bool.and_eq_true, Bool.not_eq_true', and_assoc]

theorem takes_of_done {o : ι} (h : K.done s o = true) : K.takes s validI readyI o = false := by
  rw [takes, K.valid_eq, h, Bool.not_true, Bool.and_false, Bool.false_and]

theorem done_next_of_ready {o : ι} (h : K.ready s validI readyI = true) :
    K.done (K.next s validI readyI) o = false := by
  rw [K.done_next]
  exact if_pos h

theorem done_next_of_not {o : ι} (h : K.ready s validI readyI = false) :
    K.done (K.next s validI readyI) o = (K.done s o || K.takes s validI readyI o) := by
  rw [K.done_next, h]
  exact if_neg Bool.false_ne_true

/-- When the fork lets go, every output has the item. -/
theorem has {o : ι} (ho : o ∈ outs) (h : K.ready s validI readyI = true) :
    (K.done s o || K.takes s validI readyI o) = true := by
  obtain ⟨hv, hall⟩ := ready_iff.1 h
  cases hd : K.done s o with
  | true => rfl
  | false =>
      have hr := (hall o ho).resolve_left (by rw [hd]; exact Bool.false_ne_true)
      rw [takes, K.valid_eq, hv, hd, hr]
      rfl

/-- The number of items an output has taken. -/
theorem count {o : ι} (ho : o ∈ outs) (n : Nat) :
    n + (K.done s o).toNat + (K.takes s validI readyI o).toNat =
      n + (K.ready s validI readyI).toNat + (K.done (K.next s validI readyI) o).toNat := by
  cases hr : K.ready s validI readyI with
  | true =>
      rw [done_next_of_ready hr]
      have hhas := has ho hr
      cases hd : K.done s o with
      | true =>
          rw [takes_of_done hd]
      | false =>
          rw [hd, Bool.false_or] at hhas
          rw [hhas]
          rfl
  | false =>
      rw [done_next_of_not hr]
      cases hd : K.done s o with
      | true =>
          rw [takes_of_done hd]
          rfl
      | false =>
          rw [Bool.false_or]

/-- What an output still has to take of the current item and of those to come. -/
theorem load {o : ι} :
    (!K.done (K.next s validI readyI) o).toNat + (K.takes s validI readyI o).toNat ≤
      (!K.done s o).toNat + (K.ready s validI readyI).toNat := by
  cases hr : K.ready s validI readyI with
  | true =>
      rw [done_next_of_ready hr]
      cases hd : K.done s o with
      | true => rw [takes_of_done hd]; exact Nat.le_refl _
      | false => cases K.takes s validI readyI o <;> decide
  | false =>
      rw [done_next_of_not hr]
      cases hd : K.done s o with
      | true => rw [takes_of_done hd]; exact Nat.le_refl _
      | false => cases K.takes s validI readyI o <;> exact Nat.le_refl _

/-- What an output has taken: the current item `cur` stays the current one while the fork holds
it. -/
theorem taken {α : Type} {o : ι} (ho : o ∈ outs) {granted log cur cur' : List α}
    (hlog : log = granted ++ if K.done s o then cur else [])
    (hstays : K.ready s validI readyI = false →
      K.done (K.next s validI readyI) o = true → cur' = cur) :
    log ++ (if K.takes s validI readyI o then cur else []) =
      (granted ++ if K.ready s validI readyI then cur else []) ++
        if K.done (K.next s validI readyI) o then cur' else [] := by
  rw [hlog]
  cases hr : K.ready s validI readyI with
  | true =>
      have hhas := has ho hr
      rw [done_next_of_ready hr, if_neg Bool.false_ne_true, if_pos rfl, List.append_nil]
      cases hd : K.done s o with
      | true =>
          rw [takes_of_done hd, if_pos rfl, if_neg Bool.false_ne_true, List.append_nil]
      | false =>
          rw [hd, Bool.false_or] at hhas
          rw [hhas, if_neg Bool.false_ne_true, if_pos rfl, List.append_nil]
  | false =>
      have hstays := hstays hr
      rw [done_next_of_not hr] at hstays ⊢
      rw [if_neg Bool.false_ne_true, List.append_nil]
      cases hd : K.done s o with
      | true =>
          rw [hd, takes_of_done hd] at hstays
          rw [takes_of_done hd, if_pos rfl, if_neg Bool.false_ne_true, Bool.true_or,
            if_pos rfl, List.append_nil, hstays rfl]
      | false =>
          rw [hd] at hstays
          rw [Bool.false_or, if_neg Bool.false_ne_true, List.append_nil]
          cases ht : K.takes s validI readyI o with
          | true =>
              rw [ht] at hstays
              rw [if_pos rfl, if_pos rfl, hstays rfl]
          | false => rfl

/-- Some output has not got the item. -/
theorem exists_open (hopen : ∃ o ∈ outs, K.done s o = false) :
    ∃ o ∈ outs, K.done (K.next s validI readyI) o = false := by
  cases hr : K.ready s validI readyI with
  | true =>
      obtain ⟨o, ho, -⟩ := hopen
      exact ⟨o, ho, done_next_of_ready hr⟩
  | false =>
      -- an output that is not ready keeps it open, if there is an item at all
      have hno : ∃ o ∈ outs, K.done s o = false ∧ (validI = true → readyI o = false) := by
        by_contra hall
        push Not at hall
        obtain ⟨o, ho, hd⟩ := hopen
        have hready : K.ready s validI readyI = true := by
          refine ready_iff.2 ⟨(hall o ho hd).1, fun o' ho' => ?_⟩
          cases hd' : K.done s o' with
          | true => exact .inl rfl
          | false => exact .inr (Bool.not_eq_false _ ▸ (hall o' ho' hd').2)
        rw [hready] at hr
        cases hr
      obtain ⟨o, ho, hd, hwaits⟩ := hno
      refine ⟨o, ho, ?_⟩
      rw [done_next_of_not hr, hd, Bool.false_or, Bool.eq_false_iff]
      intro htakes
      obtain ⟨hv, -, hready⟩ := takes_iff.1 htakes
      rw [hwaits hv] at hready
      cases hready

end StreamFork

end TeraNoC.Lib
