import Mathlib.Data.List.Induction
import TeraNoC.Lib.Ring
import TeraNoC.Systolic.Queue

/-!
# The systolic queues are FIFO channels

Entry number `k`, counted from the creation of the queue, is in slot `k` modulo the
number of slots. So the numbers of entries pushed and popped say where the next push
writes and the next pop reads, and the ring holds the entries between the two. What
a core has loaded stays true of the queue until its call ends, since the other core can
only make more room, or more entries (`PushOk.mono`, `PopOk.mono`).
-/

namespace TeraNoC.Systolic

open TeraNoC.Runtime TeraNoC.Lib

/-! ## `queue.h` -/

namespace Queue

variable {α : Type} {size : Nat} {s : Queue α}

/-- A slot has one word. -/
def slotWord (x : α) (_ : Fin 1) : α := x

/-- What the producer knows where it is, after `stores` stores of its call. -/
def PushOk (size stores : Nat) (array : Nat → α) (pushed popped : Nat) : PushPc α → Prop
  | .idle => True
  | .loadTail _ _ => stores = 0
  | .loadHead _ _ currentTail nextTail =>
      stores = 0 ∧ currentTail = pushed % size ∧ nextTail = (pushed + 1) % size
  | .storeData _ currentTail nextTail =>
      currentTail = pushed % size ∧ nextTail = (pushed + 1) % size ∧ pushed + 1 < popped + size
  | .storeTail data nextTail =>
      nextTail = (pushed + 1) % size ∧ pushed + 1 < popped + size ∧ array (pushed % size) = data

/-- What the consumer knows. -/
def PopOk (size stores : Nat) (pushed : List α) (popped : Nat) : PopPc α → Prop
  | .idle => True
  | .loadHead _ => stores = 0
  | .loadTail _ currentHead => stores = 0 ∧ currentHead = popped % size
  | .loadData currentHead => currentHead = popped % size ∧ popped < pushed.length
  | .storeHead data currentHead => currentHead = popped % size ∧ pushed[popped]? = some data

structure Inv (size : Nat) (s : Queue α) : Prop where
  head : s.head = s.popped.length % size
  tail : s.tail = s.pushed.length % size
  room : s.pushed.length < s.popped.length + size
  fifo : s.popped <+: s.pushed
  holds : Ring.Holds size slotWord s.array s.pushed s.popped.length
  push : PushOk size s.pushStores s.array s.pushed.length s.popped.length s.producer
  pop : PopOk size s.popStores s.pushed s.popped.length s.consumer

theorem Inv.le (h : Inv size s) : s.popped.length ≤ s.pushed.length := h.fifo.length_le

theorem inv_create (hpos : 0 < size) (array : Nat → α) : Inv size (create array) where
  head := (Nat.zero_mod _).symm
  tail := (Nat.zero_mod _).symm
  room := by
    show 0 < 0 + size
    omega
  fifo := List.prefix_rfl
  holds := fun k _ h => absurd h (Nat.not_lt_zero _)
  push := trivial
  pop := trivial

theorem next_eq (hsize : size < 2 ^ 32) (hpos : 0 < size) (k : Nat) :
    u32 (k % size + 1) % size = (k + 1) % size := by
  have := Nat.mod_lt k hpos
  rw [u32_eq (by omega), Nat.mod_add_mod]

/-- A pop makes room. -/
theorem PushOk.mono {stores pushed popped : Nat} {array : Nat → α} {pc : PushPc α}
    (h : PushOk size stores array pushed popped pc) :
    PushOk size stores array pushed (popped + 1) pc := by
  cases pc with
  | idle => trivial
  | loadTail b x => exact h
  | loadHead b x ct nt => exact h
  | storeData x ct nt => exact ⟨h.1, h.2.1, by have := h.2.2; omega⟩
  | storeTail x nt => exact ⟨h.1, by have := h.2.1; omega, h.2.2⟩

/-- A push leaves the entries that are there. -/
theorem PopOk.mono {stores popped : Nat} {pushed : List α} {pc : PopPc α}
    (h : PopOk size stores pushed popped pc) (x : α) :
    PopOk size stores (pushed ++ [x]) popped pc := by
  cases pc with
  | idle => trivial
  | loadHead b => exact h
  | loadTail b ch => exact h
  | loadData ch =>
      refine ⟨h.1, ?_⟩
      rw [List.length_append]
      exact Nat.lt_add_right _ h.2
  | storeHead d ch =>
      refine ⟨h.1, ?_⟩
      rw [List.getElem?_append_left (List.getElem?_eq_some_iff.mp h.2).1]
      exact h.2

theorem Inv.stepPush (h : Inv size s) (hsize : size < 2 ^ 32) (hpos : 0 < size) (blocking : Bool)
    (data : α) : Inv size (s.stepPush size blocking data) := by
  have hpush := h.push
  rw [Queue.stepPush]
  cases hp : s.producer with
  | idle => exact ⟨h.head, h.tail, h.room, h.fifo, h.holds, rfl, h.pop⟩
  | loadTail b x =>
      rw [hp] at hpush
      refine ⟨h.head, h.tail, h.room, h.fifo, h.holds, ⟨hpush, h.tail, ?_⟩, h.pop⟩
      rw [h.tail, next_eq hsize hpos]
  | loadHead b x currentTail nextTail =>
      rw [hp] at hpush
      obtain ⟨hstores, hct, hnt⟩ := hpush
      by_cases hfull : nextTail = s.head
      · simp only [if_pos hfull]
        refine ⟨h.head, h.tail, h.room, h.fifo, h.holds, ?_, h.pop⟩
        cases b with
        | true => exact hstores
        | false => trivial
      · simp only [if_neg hfull]
        refine ⟨h.head, h.tail, h.room, h.fifo, h.holds, ⟨hct, hnt, ?_⟩, h.pop⟩
        rw [hnt, h.head, Ring.slot_wrap h.le h.room] at hfull
        exact Nat.lt_of_le_of_ne h.room hfull
  | storeData x currentTail nextTail =>
      rw [hp] at hpush
      obtain ⟨hct, hnt, hroom⟩ := hpush
      have hslot : currentTail = 1 * (s.pushed.length % size) + 0 := by
        rw [Nat.one_mul, Nat.add_zero, hct]
      refine ⟨h.head, h.tail, h.room, h.fifo, ?_, ⟨hnt, hroom, ?_⟩, h.pop⟩
      · rw [hslot]
        exact h.holds.write h.room Nat.one_pos x
      · rw [← hct]
        exact Function.update_self _ _ _
  | storeTail x nextTail =>
      rw [hp] at hpush
      obtain ⟨hnt, hroom, hx⟩ := hpush
      have hlen : (s.pushed ++ [x]).length = s.pushed.length + 1 := List.length_append
      refine ⟨h.head, ?_, ?_, h.fifo.trans (List.prefix_append _ _), ?_, trivial, h.pop.mono x⟩
      · rw [hlen]
        exact hnt
      · rw [hlen]
        exact hroom
      · refine h.holds.push fun i => ?_
        obtain rfl : i = 0 := Subsingleton.elim _ _
        rw [Nat.one_mul]
        exact hx

/-- The entry after those that were popped makes them one more. -/
theorem prefix_concat {ε : Type} {popped pushed : List ε} (h : popped <+: pushed) {x : ε}
    (hx : pushed[popped.length]? = some x) : popped ++ [x] <+: pushed := by
  obtain ⟨rest, rfl⟩ := h
  rw [List.getElem?_append_right (Nat.le_refl _), Nat.sub_self] at hx
  cases rest with
  | nil => cases hx
  | cons y rest =>
      obtain rfl : y = x := by simpa using hx
      exact ⟨rest, by simp⟩

theorem Inv.stepPop (h : Inv size s) (hsize : size < 2 ^ 32) (hpos : 0 < size) (blocking : Bool) :
    Inv size (s.stepPop size blocking) := by
  have hpop := h.pop
  rw [Queue.stepPop]
  cases hp : s.consumer with
  | idle => exact ⟨h.head, h.tail, h.room, h.fifo, h.holds, h.push, rfl⟩
  | loadHead b =>
      rw [hp] at hpop
      exact ⟨h.head, h.tail, h.room, h.fifo, h.holds, h.push, hpop, h.head⟩
  | loadTail b currentHead =>
      rw [hp] at hpop
      obtain ⟨hstores, hch⟩ := hpop
      by_cases hempty : currentHead = s.tail
      · simp only [if_pos hempty]
        refine ⟨h.head, h.tail, h.room, h.fifo, h.holds, h.push, ?_⟩
        cases b with
        | true => exact hstores
        | false => trivial
      · simp only [if_neg hempty]
        refine ⟨h.head, h.tail, h.room, h.fifo, h.holds, h.push, hch, ?_⟩
        refine Nat.lt_of_le_of_ne h.le fun heq => hempty ?_
        rw [hch, h.tail, heq]
  | loadData currentHead =>
      rw [hp] at hpop
      obtain ⟨hch, hlt⟩ := hpop
      refine ⟨h.head, h.tail, h.room, h.fifo, h.holds, h.push, hch, ?_⟩
      have hread := h.holds s.popped.length (Nat.le_refl _) hlt 0
      rw [Nat.one_mul] at hread
      rw [hch, List.getElem?_eq_getElem hlt]
      exact congrArg some hread.symm
  | storeHead x currentHead =>
      rw [hp] at hpop
      obtain ⟨hch, hx⟩ := hpop
      have hlen : (s.popped ++ [x]).length = s.popped.length + 1 := List.length_append
      refine ⟨?_, h.tail, ?_, prefix_concat h.fifo hx, ?_, ?_, trivial⟩
      · show u32 (currentHead + 1) % size = _
        rw [hlen, hch, next_eq hsize hpos]
      · have := h.room
        rw [hlen]
        show s.pushed.length < _
        omega
      · rw [hlen]
        exact h.holds.pop
      · rw [hlen]
        exact h.push.mono

theorem Inv.run (h : Inv size s) (hsize : size < 2 ^ 32) (hpos : 0 < size)
    (moves : List (Move α)) : Inv size (moves.foldl (Queue.step size) s) := by
  induction moves generalizing s with
  | nil => exact h
  | cons m moves ih =>
      refine ih ?_
      cases m with
      | producer blocking data => exact h.stepPush hsize hpos blocking data
      | consumer blocking => exact h.stepPop hsize hpos blocking

/-- The tail is as many slots ahead of the head as there are entries. -/
theorem Inv.distance (h : Inv size s) (hpos : 0 < size) :
    (s.tail + size - s.head) % size = s.pushed.length - s.popped.length := by
  have hle := h.le
  have hroom := h.room
  have hlt := Nat.mod_lt s.popped.length hpos
  have hq := Nat.div_add_mod s.popped.length size
  -- both numbers counted from the round of the head
  have hmod : (s.pushed.length + size - s.popped.length % size) % size
      = (s.pushed.length - s.popped.length) % size := by
    have heq : s.pushed.length + size - s.popped.length % size
        = s.pushed.length - s.popped.length + size * (s.popped.length / size + 1) := by
      rw [Nat.mul_succ]
      omega
    rw [heq, Nat.add_mul_mod_self_left]
  rw [h.head, h.tail, Nat.add_sub_assoc (Nat.le_of_lt hlt), Nat.mod_add_mod,
    ← Nat.add_sub_assoc (Nat.le_of_lt hlt), hmod, Nat.mod_eq_of_lt (by omega)]

theorem Inv.length_contents (h : Inv size s) (hpos : 0 < size) :
    (s.contents size).length = s.pushed.length - s.popped.length := by
  rw [contents, List.length_map, List.length_range, h.distance hpos]

theorem Inv.pushed_eq (h : Inv size s) (hpos : 0 < size) :
    s.pushed = s.popped ++ s.contents size := by
  have hle := h.le
  have hlen := h.length_contents hpos
  obtain ⟨rest, hrest⟩ := h.fifo
  rw [← hrest, List.append_cancel_left_eq]
  have hlenr : rest.length = s.pushed.length - s.popped.length := by
    rw [← hrest, List.length_append]
    omega
  refine List.ext_getElem (by omega) fun k hk hk' => ?_
  have hread := h.holds (s.popped.length + k) (Nat.le_add_right _ _) (by omega) 0
  simp only [contents, List.getElem_map, List.getElem_range]
  rw [Nat.one_mul] at hread
  rw [h.head, Nat.mod_add_mod]
  refine Eq.trans ?_ hread.symm
  show rest[k] = s.pushed[s.popped.length + k]
  simp only [← hrest, List.getElem_append_right (Nat.le_add_right _ _), Nat.add_sub_cancel_left]

end Queue

/-! ## `queue_multi.h` -/

namespace MultiQueue

variable {α : Type} {size : Nat} {s : MultiQueue α}

/-- A slot has the words of an entry. -/
def slotWord (x : Entry α) (i : Fin dataSize) : α := x i

/-- The words below `i` of the slot of entry number `k` are those of `data`. -/
def Copied (size : Nat) (buffer : Nat → α) (k : Nat) (data : Entry α) (i : Nat) : Prop :=
  ∀ j : Fin dataSize, j.val < i → buffer (dataSize * (k % size) + j) = data j

/-- What the producer knows. -/
def PushOk (size stores tail : Nat) (buffer : Nat → α) (pushed popped : Nat) :
    MultiPushPc α → Prop
  | .idle => tail = dataSize * (pushed % size)
  | .loadTail _ _ => tail = dataSize * (pushed % size) ∧ stores = 0
  | .loadCounter _ _ currentTail =>
      tail = dataSize * (pushed % size) ∧ stores = 0 ∧ currentTail = dataSize * (pushed % size)
  | .storeData data currentTail i =>
      tail = dataSize * (pushed % size) ∧ currentTail = dataSize * (pushed % size) ∧
        pushed < popped + size ∧ Copied size buffer pushed data i
  | .storeTail data currentTail =>
      currentTail = dataSize * (pushed % size) ∧ pushed < popped + size ∧
        Copied size buffer pushed data dataSize
  | .fetchAdd data =>
      tail = dataSize * ((pushed + 1) % size) ∧ pushed < popped + size ∧
        Copied size buffer pushed data dataSize

/-- What the consumer knows. -/
def PopOk (size stores head : Nat) (pushed : List (Entry α)) (popped : Nat) :
    MultiPopPc α → Prop
  | .idle => head = dataSize * (popped % size)
  | .loadHead _ => head = dataSize * (popped % size) ∧ stores = 0
  | .loadCounter _ currentHead =>
      head = dataSize * (popped % size) ∧ stores = 0 ∧ currentHead = dataSize * (popped % size)
  | .loadData data currentHead i =>
      head = dataSize * (popped % size) ∧ currentHead = dataSize * (popped % size) ∧
        ∃ x, pushed[popped]? = some x ∧ ∀ j : Fin dataSize, j < i → data j = x j
  | .storeHead data currentHead =>
      currentHead = dataSize * (popped % size) ∧ pushed[popped]? = some data
  | .fetchSub data => head = dataSize * ((popped + 1) % size) ∧ pushed[popped]? = some data

structure Inv (size : Nat) (s : MultiQueue α) : Prop where
  counter : s.counter = s.pushed.length - s.popped.length
  room : s.pushed.length ≤ s.popped.length + size
  fifo : s.popped <+: s.pushed
  holds : Ring.Holds size slotWord s.buffer s.pushed s.popped.length
  push : PushOk size s.pushStores s.tail s.buffer s.pushed.length s.popped.length s.producer
  pop : PopOk size s.popStores s.head s.pushed s.popped.length s.consumer

theorem Inv.le (h : Inv size s) : s.popped.length ≤ s.pushed.length := h.fifo.length_le

theorem inv_create (buffer : Nat → α) (data : Entry α) : Inv size (create buffer data) where
  counter := rfl
  room := Nat.zero_le _
  fifo := List.prefix_rfl
  holds := fun k _ h => absurd h (Nat.not_lt_zero _)
  push := by
    show 0 = dataSize * (0 % size)
    rw [Nat.zero_mod, Nat.mul_zero]
  pop := by
    show 0 = dataSize * (0 % size)
    rw [Nat.zero_mod, Nat.mul_zero]

theorem next_eq (hsize : size * dataSize < 2 ^ 32) (hpos : 0 < size) (k : Nat) :
    u32 (dataSize * (k % size) + dataSize) % (size * dataSize) = dataSize * ((k + 1) % size) := by
  have hlt := Nat.mod_lt k hpos
  have hle := Nat.mul_le_mul_left dataSize (Nat.succ_le_of_lt hlt)
  rw [Nat.mul_succ, Nat.mul_comm dataSize size] at hle
  rw [u32_eq (by omega), ← Nat.mul_succ, Nat.mul_comm size, Nat.mul_mod_mul_left,
    Nat.succ_eq_add_one, Nat.mod_add_mod]

theorem PushOk.mono {stores tail pushed popped : Nat} {buffer : Nat → α} {pc : MultiPushPc α}
    (h : PushOk size stores tail buffer pushed popped pc) :
    PushOk size stores tail buffer pushed (popped + 1) pc := by
  cases pc with
  | idle => exact h
  | loadTail b x => exact h
  | loadCounter b x ct => exact h
  | storeData x ct i => exact ⟨h.1, h.2.1, by have := h.2.2.1; omega, h.2.2.2⟩
  | storeTail x ct => exact ⟨h.1, by have := h.2.1; omega, h.2.2⟩
  | fetchAdd x => exact ⟨h.1, by have := h.2.1; omega, h.2.2⟩

theorem PopOk.mono {stores head popped : Nat} {pushed : List (Entry α)} {pc : MultiPopPc α}
    (h : PopOk size stores head pushed popped pc) (x : Entry α) :
    PopOk size stores head (pushed ++ [x]) popped pc := by
  have hkeep : ∀ {y}, pushed[popped]? = some y → (pushed ++ [x])[popped]? = some y := by
    intro y hy
    rw [List.getElem?_append_left (List.getElem?_eq_some_iff.mp hy).1]
    exact hy
  cases pc with
  | idle => exact h
  | loadHead b => exact h
  | loadCounter b ch => exact h
  | loadData d ch i =>
      obtain ⟨hhead, hch, y, hy, hd⟩ := h
      exact ⟨hhead, hch, y, hkeep hy, hd⟩
  | storeHead d ch => exact ⟨h.1, hkeep h.2⟩
  | fetchSub d => exact ⟨h.1, hkeep h.2⟩

/-- The copying loop, at its head. -/
theorem pushOk_pushLoop {stores tail pushed popped i : Nat} {buffer : Nat → α} {data : Entry α}
    (htail : tail = dataSize * (pushed % size)) (hroom : pushed < popped + size)
    (hcopied : Copied size buffer pushed data i) :
    PushOk size stores tail buffer pushed popped
      (pushLoop data (dataSize * (pushed % size)) i) := by
  rw [pushLoop]
  split
  · exact ⟨htail, rfl, hroom, hcopied⟩
  · exact ⟨rfl, hroom, fun j _ => hcopied j (by have := j.isLt; omega)⟩

theorem popOk_popLoop {stores head popped i : Nat} {pushed : List (Entry α)} {data x : Entry α}
    (hhead : head = dataSize * (popped % size)) (hx : pushed[popped]? = some x)
    (hcopied : ∀ j : Fin dataSize, j.val < i → data j = x j) :
    PopOk size stores head pushed popped (popLoop data (dataSize * (popped % size)) i) := by
  rw [popLoop]
  split
  · exact ⟨hhead, rfl, x, hx, hcopied⟩
  · have hall : data = x := funext fun j => hcopied j (by have := j.isLt; omega)
    rw [hall]
    exact ⟨rfl, hx⟩

theorem Inv.stepPush (h : Inv size s) (hsize : size * dataSize < 2 ^ 32) (hpos : 0 < size)
    (blocking : Bool) (data : Entry α) : Inv size (s.stepPush size blocking data) := by
  have hpush := h.push
  rw [MultiQueue.stepPush]
  cases hp : s.producer with
  | idle =>
      rw [hp] at hpush
      exact ⟨h.counter, h.room, h.fifo, h.holds, ⟨hpush, rfl⟩, h.pop⟩
  | loadTail b x =>
      rw [hp] at hpush
      exact ⟨h.counter, h.room, h.fifo, h.holds, ⟨hpush.1, hpush.2, hpush.1⟩, h.pop⟩
  | loadCounter b x currentTail =>
      rw [hp] at hpush
      obtain ⟨htail, hstores, rfl⟩ := hpush
      by_cases hfull : s.counter = size
      · simp only [if_pos hfull]
        refine ⟨h.counter, h.room, h.fifo, h.holds, ?_, h.pop⟩
        cases b with
        | true => exact ⟨htail, hstores, rfl⟩
        | false => exact htail
      · simp only [if_neg hfull]
        have hroom : s.pushed.length < s.popped.length + size := by
          have := h.room
          have := h.counter
          omega
        refine ⟨h.counter, h.room, h.fifo, h.holds, ?_, h.pop⟩
        exact pushOk_pushLoop htail hroom fun j hj => absurd hj (Nat.not_lt_zero _)
  | storeData x currentTail i =>
      rw [hp] at hpush
      obtain ⟨htail, rfl, hroom, hcopied⟩ := hpush
      refine ⟨h.counter, h.room, h.fifo, h.holds.write hroom i.isLt _, ?_, h.pop⟩
      refine pushOk_pushLoop htail hroom fun j hj => ?_
      by_cases hji : j = i
      · subst hji
        exact Function.update_self _ _ _
      · have hne : dataSize * (s.pushed.length % size) + j.val
            ≠ dataSize * (s.pushed.length % size) + i.val := fun he =>
          hji (Fin.ext (Nat.add_left_cancel he))
        refine (Function.update_of_ne hne _ _).trans (hcopied j ?_)
        have := Fin.val_ne_of_ne hji
        omega
  | storeTail x currentTail =>
      rw [hp] at hpush
      obtain ⟨rfl, hroom, hcopied⟩ := hpush
      exact ⟨h.counter, h.room, h.fifo, h.holds, ⟨next_eq hsize hpos _, hroom, hcopied⟩, h.pop⟩
  | fetchAdd x =>
      rw [hp] at hpush
      obtain ⟨htail, hroom, hcopied⟩ := hpush
      have hle := h.le
      have hlen : (s.pushed ++ [x]).length = s.pushed.length + 1 := List.length_append
      have hsize' : size ≤ size * dataSize := Nat.le_mul_of_pos_right _ (by decide)
      refine ⟨?_, ?_, h.fifo.trans (List.prefix_append _ _), ?_, ?_, h.pop.mono x⟩
      · show u32 (s.counter + 1) = (s.pushed ++ [x]).length - s.popped.length
        rw [h.counter, hlen, u32_eq (by omega)]
        omega
      · rw [hlen]
        exact hroom
      · exact h.holds.push fun i => hcopied i i.isLt
      · rw [hlen]
        exact htail

theorem Inv.stepPop (h : Inv size s) (hsize : size * dataSize < 2 ^ 32) (hpos : 0 < size)
    (blocking : Bool) : Inv size (s.stepPop size blocking) := by
  have hpop := h.pop
  rw [MultiQueue.stepPop]
  cases hp : s.consumer with
  | idle =>
      rw [hp] at hpop
      exact ⟨h.counter, h.room, h.fifo, h.holds, h.push, ⟨hpop, rfl⟩⟩
  | loadHead b =>
      rw [hp] at hpop
      exact ⟨h.counter, h.room, h.fifo, h.holds, h.push, ⟨hpop.1, hpop.2, hpop.1⟩⟩
  | loadCounter b currentHead =>
      rw [hp] at hpop
      obtain ⟨hhead, hstores, rfl⟩ := hpop
      by_cases hempty : s.counter = 0
      · simp only [if_pos hempty]
        refine ⟨h.counter, h.room, h.fifo, h.holds, h.push, ?_⟩
        cases b with
        | true => exact ⟨hhead, hstores, rfl⟩
        | false => exact hhead
      · simp only [if_neg hempty]
        have hlt : s.popped.length < s.pushed.length := by
          have := h.counter
          omega
        refine ⟨h.counter, h.room, h.fifo, h.holds, h.push, ?_⟩
        exact popOk_popLoop hhead (List.getElem?_eq_getElem hlt)
          fun j hj => absurd hj (Nat.not_lt_zero _)
  | loadData data currentHead i =>
      rw [hp] at hpop
      obtain ⟨hhead, rfl, x, hx, hcopied⟩ := hpop
      refine ⟨h.counter, h.room, h.fifo, h.holds, h.push, ?_⟩
      refine popOk_popLoop hhead hx fun j hj => ?_
      by_cases hji : j = i
      · subst hji
        obtain ⟨hlt, rfl⟩ := List.getElem?_eq_some_iff.mp hx
        rw [Function.update_self]
        exact h.holds s.popped.length (Nat.le_refl _) hlt j
      · rw [Function.update_of_ne hji]
        refine hcopied j ?_
        have := Fin.val_ne_of_ne hji
        show j.val < i.val
        omega
  | storeHead data currentHead =>
      rw [hp] at hpop
      obtain ⟨rfl, hx⟩ := hpop
      exact ⟨h.counter, h.room, h.fifo, h.holds, h.push, ⟨next_eq hsize hpos _, hx⟩⟩
  | fetchSub data =>
      rw [hp] at hpop
      obtain ⟨hhead, hx⟩ := hpop
      have hlt := (List.getElem?_eq_some_iff.mp hx).1
      have hroom := h.room
      have hlen : (s.popped ++ [data]).length = s.popped.length + 1 := List.length_append
      have hsize' : size ≤ size * dataSize := Nat.le_mul_of_pos_right _ (by decide)
      show Inv size { s with
        counter := sub32 s.counter 1
        consumer := .idle
        data := data
        popped := s.popped ++ [data]
        popStores := s.popStores + 1 }
      refine ⟨?_, ?_, Queue.prefix_concat h.fifo hx, ?_, ?_, ?_⟩
      · show sub32 s.counter 1 = s.pushed.length - (s.popped ++ [data]).length
        rw [h.counter, hlen, sub32_eq (by omega) (by omega)]
        omega
      · rw [hlen]
        show s.pushed.length ≤ _
        omega
      · rw [hlen]
        exact h.holds.pop
      · rw [hlen]
        exact h.push.mono
      · rw [hlen]
        exact hhead

theorem Inv.run (h : Inv size s) (hsize : size * dataSize < 2 ^ 32) (hpos : 0 < size)
    (moves : List (Move (Entry α))) : Inv size (moves.foldl (MultiQueue.step size) s) := by
  induction moves generalizing s with
  | nil => exact h
  | cons m moves ih =>
      refine ih ?_
      cases m with
      | producer blocking data => exact h.stepPush hsize hpos blocking data
      | consumer blocking => exact h.stepPop hsize hpos blocking

theorem Inv.length_contents (h : Inv size s) :
    (s.contents size).length = s.pushed.length - s.popped.length := by
  rw [contents, List.length_map, List.length_range, h.counter]

theorem Inv.pushed_eq (h : Inv size s) : s.pushed = s.popped ++ s.contents size := by
  have hle := h.le
  have hlen := h.length_contents
  obtain ⟨rest, hrest⟩ := h.fifo
  rw [← hrest, List.append_cancel_left_eq]
  have hlenr : rest.length = s.pushed.length - s.popped.length := by
    rw [← hrest, List.length_append]
    omega
  refine List.ext_getElem (by omega) fun k hk hk' => ?_
  simp only [contents, List.getElem_map, List.getElem_range]
  funext i
  refine Eq.trans (congrFun ?_ i)
    (h.holds (s.popped.length + k) (Nat.le_add_right _ _) (by omega) i).symm
  simp only [← hrest, List.getElem_append_right (Nat.le_add_right _ _), Nat.add_sub_cancel_left]
  rfl

end MultiQueue

/-! ## FIFO channels -/

/-- A queue of `queue.h`, and one of `queue_multi.h` whose buffer has room in memory. -/
structure QueueSizes where
  size : Nat
  size_pos : 0 < size
  size_lt : size < 2 ^ 32
  xqueueSize : Nat
  xqueueSize_pos : 0 < xqueueSize
  fits : xqueueSize * dataSize < 2 ^ 32

/-- A state of a FIFO channel: the entries pushed are those popped, in their order, and
then those stored, of which there are no more than the capacity. A push that returns 1
finds the queue full and a pop that does finds it empty, and neither has stored anything
to the queue. A producer that is about to write a slot writes none of an entry that was
not popped. -/
structure Queue.Fifo {α : Type} (size : Nat) (s : Queue α) : Prop where
  order : s.pushed = s.popped ++ s.contents size
  capacity : (s.contents size).length ≤ size - 1
  full : s.pushFails = true → (s.contents size).length = size - 1 ∧ s.pushStores = 0
  empty : s.popFails = true → s.contents size = [] ∧ s.popStores = 0
  unread : ∀ x currentTail nextTail, s.producer = .storeData x currentTail nextTail →
    ∀ k, s.popped.length ≤ k → k < s.pushed.length → k % size ≠ currentTail

structure MultiQueue.Fifo {α : Type} (size : Nat) (s : MultiQueue α) : Prop where
  order : s.pushed = s.popped ++ s.contents size
  capacity : (s.contents size).length ≤ size
  full : s.pushFails size = true → (s.contents size).length = size ∧ s.pushStores = 0
  empty : s.popFails = true → s.contents size = [] ∧ s.popStores = 0
  unread : ∀ x currentTail i, s.producer = .storeData x currentTail i →
    ∀ k, s.popped.length ≤ k → k < s.pushed.length → ∀ j : Fin dataSize,
      dataSize * (k % size) + j ≠ currentTail + i

/-- Both queues are, after any steps of their producer and consumer. -/
theorem systolic_queues {α : Type} (q : QueueSizes) (array buffer : Nat → α) (data : Entry α)
    (moves : List (Move α)) (multiMoves : List (Move (Entry α))) :
    (moves.foldl (Queue.step q.size) (Queue.create array)).Fifo q.size ∧
    (multiMoves.foldl (MultiQueue.step q.xqueueSize) (MultiQueue.create buffer data)).Fifo
      q.xqueueSize := by
  constructor
  · generalize hs : moves.foldl (Queue.step q.size) (Queue.create array) = s
    have h : Queue.Inv q.size s := hs ▸
      (Queue.inv_create q.size_pos array).run q.size_lt q.size_pos moves
    have hlen := h.length_contents q.size_pos
    have hroom := h.room
    have hpos := q.size_pos
    have hpush := h.push
    have hpop := h.pop
    refine ⟨h.pushed_eq q.size_pos, by omega, fun hf => ?_, fun hf => ?_, ?_⟩
    · rw [Queue.pushFails] at hf
      split at hf
      · rename_i x ct nt hp
        rw [hp] at hpush
        obtain ⟨hstores, -, hnt⟩ := hpush
        have hfull : nt = s.head := by simpa using hf
        rw [hnt, h.head, Ring.slot_wrap h.le h.room] at hfull
        exact ⟨by omega, hstores⟩
      · cases hf
    · rw [Queue.popFails] at hf
      split at hf
      · rename_i ch hp
        rw [hp] at hpop
        obtain ⟨hstores, hch⟩ := hpop
        have hempty : ch = s.tail := by simpa using hf
        rw [hch, h.tail] at hempty
        have := Ring.slot_inj h.le h.room hempty
        exact ⟨List.length_eq_zero_iff.mp (by omega), hstores⟩
      · cases hf
    · intro x ct nt hp k hk hlt heq
      rw [hp] at hpush
      rw [hpush.1] at heq
      have := Ring.slot_inj (Nat.le_of_lt hlt) (by omega) heq
      omega
  · generalize hs : multiMoves.foldl (MultiQueue.step q.xqueueSize)
      (MultiQueue.create buffer data) = s
    have h : MultiQueue.Inv q.xqueueSize s := hs ▸
      (MultiQueue.inv_create buffer data).run q.fits q.xqueueSize_pos multiMoves
    have hlen := h.length_contents
    have hroom := h.room
    have hle := h.le
    have hcounter := h.counter
    have hpush := h.push
    have hpop := h.pop
    refine ⟨h.pushed_eq, by omega, fun hf => ?_, fun hf => ?_, ?_⟩
    · rw [MultiQueue.pushFails] at hf
      split at hf
      · rename_i x ct hp
        rw [hp] at hpush
        have hfull : s.counter = q.xqueueSize := by simpa using hf
        exact ⟨by omega, hpush.2.1⟩
      · cases hf
    · rw [MultiQueue.popFails] at hf
      split at hf
      · rename_i ch hp
        rw [hp] at hpop
        have hempty : s.counter = 0 := by simpa using hf
        exact ⟨List.length_eq_zero_iff.mp (by omega), hpop.2.1⟩
      · cases hf
    · intro x ct i hp k hk hlt j heq
      rw [hp] at hpush
      obtain ⟨-, hct, hroom', -⟩ := hpush
      rw [hct] at heq
      have := Ring.slot_inj (Nat.le_of_lt hlt) (by omega) (Ring.word_inj j.isLt i.isLt heq).1
      omega

/-- Room for one entry in each of the queues. -/
def oneEntry : QueueSizes where
  size := 2
  size_pos := by decide
  size_lt := by decide
  xqueueSize := 1
  xqueueSize_pos := by decide
  fits := by decide

/-- An entry is pushed and popped, another is pushed, and then the queue is asked for room. -/
def pushPopPush {ε : Type} (first second : ε) (steps last : Nat) : List (Move ε) :=
  List.replicate steps (.producer false first) ++ List.replicate steps (.consumer false) ++
    List.replicate steps (.producer false second) ++ List.replicate last (.producer false first)

theorem systolic_queues_oneEntry :
    let q := (pushPopPush 7 8 5 2).foldl (Queue.step oneEntry.size) (Queue.create fun _ => 0)
    let multi := (pushPopPush (fun _ => 7) (fun _ => 8) 9 2).foldl
      (MultiQueue.step oneEntry.xqueueSize) (MultiQueue.create (fun _ => 0) fun _ => 0)
    (q.pushed = [7, 8] ∧ q.popped = [7] ∧ q.pushFails = true ∧
      (q.contents oneEntry.size).length = 1) ∧
    multi.pushed.length = 2 ∧ multi.popped.length = 1 ∧
      multi.pushFails oneEntry.xqueueSize = true ∧
      (multi.contents oneEntry.xqueueSize).length = 1 := by
  intro q multi
  obtain ⟨hqueue, hmulti⟩ := systolic_queues oneEntry (fun _ => 0) (fun _ => 0) (fun _ => 0)
    (pushPopPush 7 8 5 2) (pushPopPush (fun _ => 7) (fun _ => 8) 9 2)
  have hfull : q.pushFails = true := by decide +kernel
  have hfull' : multi.pushFails oneEntry.xqueueSize = true := by decide +kernel
  exact ⟨⟨by decide +kernel, by decide +kernel, hfull, (hqueue.full hfull).1⟩,
    by decide +kernel, by decide +kernel, hfull', (hmulti.full hfull').1⟩

end TeraNoC.Systolic
