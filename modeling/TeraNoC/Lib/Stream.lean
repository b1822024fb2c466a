import TeraNoC.Lib.Bits

/-!
# Stream cells

The queues and forks that streaming hardware is put together from, as
interfaces: a state, the outputs it drives, the state after a clock edge, and
the laws that tie them to the list of items held. A design that instantiates a
cell takes it as a parameter and uses only the laws. At the end of the file
every interface is inhabited by the plainest cell there is.
-/

namespace TeraNoC.Lib

/-- A registered stream queue with room for `depth` items: items enter in a cycle
with `valid` and `ready`, leave in order, and are visible from the cycle after
they entered. -/
structure StreamFifo (α : Type) (depth : Nat) where
  State : Type
  reset : State
  contents : State → List α
  ready : State → Bool
  valid : State → Bool
  data : State → α
  next : State → Bool → α → Bool → State
  contents_reset : contents reset = []
  ready_eq : ∀ s, ready s = decide ((contents s).length < depth)
  valid_eq : ∀ s, valid s = !(contents s).isEmpty
  data_eq : ∀ s x, (contents s).head? = some x → data s = x
  contents_next : ∀ s validI dataI readyI, contents (next s validI dataI readyI) =
    (if valid s && readyI then (contents s).tail else contents s) ++
      (if validI && ready s then [dataI] else [])

/-- An item that is only offered when there is room enters. -/
theorem StreamFifo.contents_push {α : Type} {depth : Nat} (F : StreamFifo α depth) (s : F.State)
    (push : Bool) (d : α) (pop : Bool) (hready : push = true → F.ready s = true) :
    F.contents (F.next s push d pop) =
      (if F.valid s && pop then (F.contents s).tail else F.contents s) ++
        if push then [d] else [] := by
  rw [F.contents_next]
  cases push with
  | false => rfl
  | true => rw [hready rfl, Bool.and_self]

/-- What leaves is the front. -/
theorem StreamFifo.taken_append {α : Type} {depth : Nat} (F : StreamFifo α depth) (s : F.State)
    (pop : Bool) : ((if F.valid s && pop then [F.data s] else []) ++
      if F.valid s && pop then (F.contents s).tail else F.contents s) = F.contents s := by
  cases hpop : F.valid s && pop with
  | false => rfl
  | true =>
      have hvalid := (Bool.and_eq_true _ _ ▸ hpop).1
      rw [F.valid_eq, Bool.not_eq_true', List.isEmpty_eq_false_iff] at hvalid
      obtain ⟨d, l, hl⟩ := List.exists_cons_of_ne_nil hvalid
      rw [if_pos rfl, if_pos rfl, hl, F.data_eq s d (by rw [hl]; rfl)]
      rfl

theorem StreamFifo.length_push {α : Type} {depth : Nat} (F : StreamFifo α depth) (s : F.State)
    (push : Bool) (d : α) (pop : Bool) (hready : push = true → F.ready s = true) :
    (F.contents (F.next s push d pop)).length + (if F.valid s && pop then 1 else 0) =
      (F.contents s).length + if push then 1 else 0 := by
  rw [F.contents_push s push d pop hready, List.length_append]
  have hfront := congrArg List.length (F.taken_append s pop)
  rw [List.length_append] at hfront
  split_ifs at hfront ⊢ <;> simp only [List.length_singleton, List.length_nil] at hfront ⊢ <;> omega

/-- A fall-through queue: an item pushed into an empty queue is visible in the same
cycle, and can be popped in it. -/
structure FallThroughFifo (α : Type) (depth : Nat) where
  State : Type
  reset : State
  contents : State → List α
  full : State → Bool
  /-- The fill count, on the bits that number `depth` slots. -/
  usage : State → Nat
  empty : State → Bool → Bool
  data : State → Bool → α → α
  next : State → Bool → α → Bool → State
  contents_reset : contents reset = []
  full_eq : ∀ s, full s = decide ((contents s).length = depth)
  usage_eq : ∀ s, usage s = (contents s).length % 2 ^ clog2 depth
  empty_eq : ∀ s push, empty s push = ((contents s).isEmpty && !push)
  data_eq : ∀ s push dataI x,
    (contents s ++ if push then [dataI] else []).head? = some x → data s push dataI = x
  contents_next : ∀ s push dataI pop, (push = true → full s = false) →
    contents (next s push dataI pop) =
      if pop then (contents s ++ if push then [dataI] else []).tail
      else contents s ++ if push then [dataI] else []

/-- An arbiter between `n` streams. A stream that was chosen and has to wait stays
chosen as long as it has something to offer. -/
structure StreamArbiter (n : Nat) where
  State : Type
  reset : State
  sel : State → (Nat → Bool) → Nat
  /-- After a cycle with the given streams on offer, in which the output was ready or not. -/
  next : State → (Nat → Bool) → Bool → State
  sel_valid : ∀ s valid i, i < n → valid i = true → sel s valid < n ∧ valid (sel s valid) = true
  sel_lock : ∀ s valid valid', valid (sel s valid) = true → valid' (sel s valid) = true →
    sel s valid < n → sel (next s valid false) valid' = sel s valid

/-! ## Plain cells -/

def StreamFifo.list (α : Type) [Inhabited α] (depth : Nat) : StreamFifo α depth where
  State := List α
  reset := []
  contents := id
  ready s := decide (s.length < depth)
  valid s := !s.isEmpty
  data s := s.headD default
  next s validI dataI readyI :=
    (if !s.isEmpty && readyI then s.tail else s) ++
      (if validI && decide (s.length < depth) then [dataI] else [])
  contents_reset := rfl
  ready_eq _ := rfl
  valid_eq _ := rfl
  data_eq s x h := by
    cases s with
    | nil => cases h
    | cons y s => exact Option.some.inj h
  contents_next _ _ _ _ := rfl

def FallThroughFifo.list (α : Type) [Inhabited α] (depth : Nat) : FallThroughFifo α depth where
  State := List α
  reset := []
  contents := id
  full s := decide (s.length = depth)
  usage s := s.length % 2 ^ clog2 depth
  empty s push := s.isEmpty && !push
  data s push dataI := (s ++ if push then [dataI] else []).headD default
  next s push dataI pop :=
    if pop then (s ++ if push then [dataI] else []).tail
    else s ++ if push then [dataI] else []
  contents_reset := rfl
  full_eq _ := rfl
  usage_eq _ := rfl
  empty_eq _ _ := rfl
  data_eq s push dataI x h := by
    simp only [id_eq] at h
    cases hl : s ++ (if push then [dataI] else []) with
    | nil => rw [hl] at h; cases h
    | cons y l => rw [hl] at h; exact Option.some.inj h
  contents_next _ _ _ _ _ := rfl

/-- The stream that waits, or else the lowest one that has something to offer. -/
def lowestSel (n : Nat) (waiting : Option Nat) (valid : Nat → Bool) : Nat :=
  match waiting.filter fun i => i < n && valid i with
  | some i => i
  | none => ((List.range n).find? valid).getD 0

theorem lowestSel_valid {n i : Nat} (waiting : Option Nat) {valid : Nat → Bool} (hi : i < n)
    (hv : valid i = true) :
    lowestSel n waiting valid < n ∧ valid (lowestSel n waiting valid) = true := by
  rw [lowestSel]
  split
  case h_1 j hj =>
    have hsel := (Option.filter_eq_some_iff.mp hj).2
    rw [Bool.and_eq_true, decide_eq_true_eq] at hsel
    exact hsel
  case h_2 =>
    have hsome : ((List.range n).find? valid).isSome :=
      List.find?_isSome.mpr ⟨i, List.mem_range.mpr hi, hv⟩
    obtain ⟨j, hj⟩ := Option.isSome_iff_exists.mp hsome
    rw [hj, Option.getD_some]
    exact ⟨List.mem_range.mp (List.mem_of_find?_eq_some hj), List.find?_some hj⟩

def StreamArbiter.lowest (n : Nat) : StreamArbiter n where
  State := Option Nat
  reset := none
  sel := lowestSel n
  next s valid ready := if ready then none else some (lowestSel n s valid)
  sel_valid s _ _ hi hv := lowestSel_valid s hi hv
  sel_lock s valid valid' _ hv' hn := by
    rw [if_neg Bool.false_ne_true, lowestSel, Option.filter_some, if_pos]
    rw [hv', decide_eq_true hn]
    rfl

end TeraNoC.Lib
