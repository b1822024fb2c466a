import TeraNoC.Lib.Stream

/-!
# FIFOs that follow one queue

Items wait in a queue, and what has to be remembered of them is spread over several
FIFOs: each holds something of every item, or of some of them. If an item enters all
FIFOs that are concerned with it when it enters the queue, and leaves them when it
leaves the queue, then each FIFO holds what the queue says, and its head belongs to the
first item it is concerned with. None of them is ever pushed when full or popped when
empty, as long as it has room for what it has to hold.
-/

namespace TeraNoC.Lib

variable {α β : Type}

/-- A queue in a cycle: its first item may leave it, and an item may enter. -/
def queueNext (q : List β) (pop : Bool) (push : Option β) : List β :=
  (if pop then q.tail else q) ++ push.toList

theorem countP_queueNext (f : β → Bool) (q : List β) (pop : Bool) (push : Option β) :
    (queueNext q pop push).countP f + (if pop && q.head?.any f then 1 else 0) =
      q.countP f + push.toList.countP f := by
  rw [queueNext, List.countP_append]
  cases pop with
  | false => rw [if_neg Bool.false_ne_true, Bool.false_and, if_neg Bool.false_ne_true, Nat.add_zero]
  | true =>
      cases q with
      | nil => rfl
      | cons y rest =>
          rw [if_pos rfl, List.tail_cons, List.countP_cons, Bool.true_and, List.head?_cons,
            Option.any_some]
          omega

/-- What is left of a log when some of it is done. -/
theorem queueNext_drop {l : List β} {n : Nat} (hle : n ≤ l.length) {pop : Bool}
    (hpop : pop = true → n < l.length) (push : Option β) :
    (l ++ push.toList).drop (n + pop.toNat) = queueNext (l.drop n) pop push := by
  rw [queueNext]
  cases pop with
  | false => exact List.drop_append_of_le_length hle
  | true => rw [Bool.toNat_true, if_pos rfl, List.tail_drop,
      List.drop_append_of_le_length (hpop rfl)]

/-- The answers to the first items of a log stay when the log grows. -/
theorem zipWith_append_of_le {γ δ : Type} (f : β → γ → δ) (new : List β) :
    ∀ {l : List β} {r : List γ}, r.length ≤ l.length →
      List.zipWith f (l ++ new) r = List.zipWith f l r
  | l, [], _ => by rw [List.zipWith_nil_right, List.zipWith_nil_right]
  | [], _ :: _, hle => absurd hle (by rw [List.length_nil, List.length_cons]; omega)
  | x :: l, y :: r, hle => by
      rw [List.cons_append, List.zipWith_cons_cons, List.zipWith_cons_cons,
        zipWith_append_of_le f new (Nat.le_of_succ_le_succ hle)]

/-- One more item is answered. -/
theorem zipWith_concat {γ δ : Type} (f : β → γ → δ) {l : List β} {r : List γ} {x : β} {y : γ}
    (hx : (l.drop r.length).head? = some x) :
    List.zipWith f l (r ++ [y]) = List.zipWith f l r ++ [f x y] := by
  obtain ⟨rest, hrest⟩ : ∃ rest, l.drop r.length = x :: rest := by
    cases hdrop : l.drop r.length with
    | nil => rw [hdrop] at hx; cases hx
    | cons z rest =>
        rw [hdrop] at hx
        exact ⟨rest, congrArg (· :: rest) (Option.some.inj hx)⟩
  have hlen : (l.take r.length).length = r.length := by
    have hlt : 0 < (l.drop r.length).length := by rw [hrest]; exact Nat.succ_pos _
    rw [List.length_drop] at hlt
    exact List.length_take_of_le (by omega)
  rw [← List.take_append_drop r.length l, hrest, List.zipWith_append hlen,
    List.zipWith_cons_cons, List.zipWith_nil_right]
  rw [zipWith_append_of_le f (x :: rest) hlen.ge]

/-- The FIFO is neither pushed when full nor popped when empty. -/
def StreamFifo.InBounds {depth : Nat} (F : StreamFifo α depth) (f : F.State) (push pop : Bool) :
    Prop :=
  (push = true → F.ready f = true) ∧ (pop = true → F.valid f = true)

/-- The FIFO holds what `g` remembers of the items of the queue. -/
def StreamFifo.Views {depth : Nat} (F : StreamFifo α depth) (g : β → Option α) (f : F.State)
    (q : List β) : Prop :=
  F.contents f = q.filterMap g

namespace StreamFifo.Views

variable {depth : Nat} {F : StreamFifo α depth} {g : β → Option α} {f : F.State} {q : List β}

theorem reset : F.Views g F.reset [] := F.contents_reset

/-- The head of the FIFO belongs to the head of the queue, if it is concerned with it. -/
theorem head (h : F.Views g f q) {x : β} {v : α} (hx : q.head? = some x) (hv : g x = some v) :
    F.valid f = true ∧ F.data f = v := by
  obtain ⟨rest, rfl⟩ : ∃ rest, q = x :: rest := by
    cases q with
    | nil => cases hx
    | cons y rest => exact ⟨rest, congrArg (· :: rest) (Option.some.inj hx)⟩
  have hcontents : F.contents f = v :: rest.filterMap g := by
    rw [h, List.filterMap_cons_some hv]
  constructor
  · rw [F.valid_eq, hcontents]
    rfl
  · exact F.data_eq f v (by rw [hcontents]; rfl)

theorem ready (h : F.Views g f q) : F.ready f = decide ((q.filterMap g).length < depth) := by
  rw [F.ready_eq, h]

theorem inBounds (h : F.Views g f q) {push pop : Bool}
    (hroom : push = true → (q.filterMap g).length < depth)
    (hpop : pop = true → (q.head?.bind g).isSome) : F.InBounds f push pop := by
  constructor
  · intro hpush
    rw [h.ready, decide_eq_true (hroom hpush)]
  · intro hp
    obtain ⟨v, hv⟩ := Option.isSome_iff_exists.mp (hpop hp)
    obtain ⟨x, hx, hxv⟩ := Option.bind_eq_some_iff.mp hv
    exact (h.head hx hxv).1

/-- One cycle: the FIFO follows the queue. -/
theorem next (h : F.Views g f q) {pushF popF pop : Bool} {d : α} {push : Option β}
    (hpush : push.bind g = if pushF then some d else none)
    (hpop : popF = (pop && (q.head?.bind g).isSome))
    (hroom : pushF = true → (q.filterMap g).length < depth) :
    F.Views g (F.next f pushF d popF) (queueNext q pop push) := by
  have hpushed : (if pushF && F.ready f then [d] else []) = push.toList.filterMap g := by
    have hbind : push.toList.filterMap g = (push.bind g).toList := by
      cases push with
      | none => rfl
      | some x =>
          rw [Option.toList_some, Option.bind_some]
          cases hx : g x with
          | none => rw [List.filterMap_cons_none hx]; rfl
          | some v => rw [List.filterMap_cons_some hx]; rfl
    rw [hbind, hpush]
    cases hp : pushF with
    | false => rfl
    | true =>
        rw [h.ready, decide_eq_true (hroom hp)]
        rfl
  have hpopped : (if F.valid f && popF then (F.contents f).tail else F.contents f) =
      (if pop then q.tail else q).filterMap g := by
    cases pop with
    | false =>
        rw [hpop, Bool.false_and, Bool.and_false, if_neg Bool.false_ne_true,
          if_neg Bool.false_ne_true]
        exact h
    | true =>
        rw [hpop, Bool.true_and, if_pos rfl]
        cases q with
        | nil =>
            rw [List.head?_nil, Option.bind_none, Option.isSome_none, Bool.and_false,
              if_neg Bool.false_ne_true]
            exact h
        | cons x rest =>
            rw [List.head?_cons, Option.bind_some, List.tail_cons]
            cases hx : g x with
            | none =>
                rw [Option.isSome_none, Bool.and_false, if_neg Bool.false_ne_true]
                exact h.trans (List.filterMap_cons_none hx)
            | some v =>
                have hcontents : F.contents f = v :: rest.filterMap g := by
                  rw [h, List.filterMap_cons_some hx]
                rw [F.valid_eq, hcontents, Option.isSome_some]
                rfl
  rw [Views, F.contents_next, hpopped, hpushed, queueNext, List.filterMap_append]

end StreamFifo.Views

end TeraNoC.Lib
