import Mathlib.Data.List.Basic
import Mathlib.Data.List.Nodup

/-!
# Registers whose results come back out of order

Operations are issued one after the other and numbered in that order. Some write their
register when they are issued; others reserve it, and their result comes back later, in
any order. The history lists all writes, the newest first, with the values as far as
they are known. A `Board` holds the registers and a busy bit for each of them. What is
kept is `Coherent`, for one register at a time: only its newest write can be awaited,
its bit is set while that is so, and its content is the newest value there is.
-/

namespace TeraNoC.Lib

/-- A write of operation `num`, and its value once it is there. -/
structure Write (ρ ν : Type) where
  num : Nat
  reg : ρ
  value : Option ν

namespace Write

variable {ρ ν : Type}

/-- The result of operation `n` has come back. -/
def deliver (n : Nat) (v : ν) (ws : List (Write ρ ν)) : List (Write ρ ν) :=
  ws.map fun w => if w.num = n ∧ w.value.isNone then { w with value := some v } else w

/-- The operations whose results are awaited, with the registers they are for. -/
def awaited (ws : List (Write ρ ν)) : List (Nat × ρ) :=
  (ws.filter fun w => w.value.isNone).map fun w => (w.num, w.reg)

/-- The value of the newest write, which may be awaited; `initial` if there is none. -/
def latest (initial : ν) (ws : List (Write ρ ν)) : Option ν :=
  ws.head?.elim (some initial) Write.value

theorem mem_awaited {ws : List (Write ρ ν)} {n : Nat} {r : ρ} :
    (n, r) ∈ awaited ws ↔ ⟨n, r, none⟩ ∈ ws := by
  constructor
  · intro h
    obtain ⟨⟨num, reg, value⟩, hw, heq⟩ := List.mem_map.mp h
    obtain ⟨hmem, hnone⟩ := List.mem_filter.mp hw
    cases heq
    cases value with
    | none => exact hmem
    | some v => cases hnone
  · intro h
    exact List.mem_map.mpr ⟨_, List.mem_filter.mpr ⟨h, rfl⟩, rfl⟩

theorem deliver_eq_self {ws : List (Write ρ ν)} {n : Nat} (v : ν)
    (h : ∀ r, (n, r) ∉ awaited ws) : deliver n v ws = ws := by
  rw [deliver]
  conv_rhs => rw [← List.map_id ws]
  apply List.map_congr_left
  rintro ⟨num, reg, value⟩ hw
  apply if_neg
  rintro ⟨rfl, hnone⟩
  cases value with
  | none => exact h reg (mem_awaited.mpr hw)
  | some u => cases hnone

theorem deliver_of_done {ws : List (Write ρ ν)} (n : Nat) (v : ν)
    (h : ∀ w ∈ ws, w.value.isSome = true) : deliver n v ws = ws := by
  apply deliver_eq_self
  intro r hr
  cases h _ (mem_awaited.mp hr)

theorem awaited_deliver (n : Nat) (v : ν) (ws : List (Write ρ ν)) :
    awaited (deliver n v ws) = (awaited ws).filter fun e => e.1 != n := by
  induction ws with
  | nil => rfl
  | cons w ws ih =>
      obtain ⟨num, reg, value⟩ := w
      cases value with
      | some u => simpa [awaited, deliver] using ih
      | none =>
          by_cases hn : num = n
          · simpa [awaited, deliver, hn] using ih
          · simpa [awaited, deliver, hn] using ih

variable [DecidableEq ρ]

/-- The writes of register `r`. -/
def of (r : ρ) (ws : List (Write ρ ν)) : List (Write ρ ν) := ws.filter fun w => w.reg = r

theorem of_deliver (r : ρ) (n : Nat) (v : ν) (ws : List (Write ρ ν)) :
    of r (deliver n v ws) = deliver n v (of r ws) := by
  rw [of, deliver, List.filter_map, deliver, of]
  congr 1
  apply List.filter_congr
  intro w _
  simp only [Function.comp_apply]
  split <;> rfl

theorem awaited_of (r : ρ) (ws : List (Write ρ ν)) :
    awaited (of r ws) = (awaited ws).filter fun e => e.2 = r := by
  rw [awaited, of, awaited, List.filter_map, List.filter_filter, List.filter_filter]
  congr 1
  apply List.filter_congr
  intro w _
  exact Bool.and_comm _ _

end Write

/-! ## One register -/

section Coherent

variable {ρ ν : Type} {initial v u : ν} {busy : Bool} {ws : List (Write ρ ν)} {n : Nat} {r : ρ}

/-- The bit and the content of a register fit its writes. -/
def Coherent (initial : ν) (busy : Bool) (content : ν) (ws : List (Write ρ ν)) : Prop :=
  ∃ done : List (Write ρ ν), (∀ w ∈ done, w.value.isSome = true) ∧
    Write.latest initial done = some content ∧
    if busy then ∃ n r, ws = ⟨n, r, none⟩ :: done else ws = done

namespace Coherent

theorem nil (initial : ν) : Coherent initial false initial ([] : List (Write ρ ν)) :=
  ⟨[], by simp, rfl, rfl⟩

theorem write (h : Coherent initial false v ws) :
    Coherent initial false u (⟨n, r, some u⟩ :: ws) := by
  obtain ⟨done, hdone, -, rfl⟩ := h
  refine ⟨_, ?_, rfl, rfl⟩
  intro w hw
  rcases List.mem_cons.mp hw with rfl | hw
  · rfl
  · exact hdone w hw

theorem reserve (h : Coherent initial false v ws) :
    Coherent initial true v (⟨n, r, none⟩ :: ws) := by
  obtain ⟨done, hdone, hlatest, rfl⟩ := h
  exact ⟨_, hdone, hlatest, n, r, rfl⟩

/-- Without an awaited write, the content is that of the newest write. -/
theorem latest_eq (h : Coherent initial false v ws) : Write.latest initial ws = some v := by
  obtain ⟨done, -, hlatest, rfl⟩ := h
  exact hlatest

/-- The content is that of the newest write that is not awaited. -/
theorem newest_eq (h : Coherent initial busy v ws) :
    Write.latest initial (ws.filter fun w => w.value.isSome) = some v := by
  obtain ⟨done, hdone, hlatest, hws⟩ := h
  have hsame : (done.filter fun w => w.value.isSome) = done := List.filter_eq_self.mpr hdone
  cases busy with
  | false =>
      rw [show ws = done from hws, hsame]
      exact hlatest
  | true =>
      obtain ⟨n, r, rfl⟩ := hws
      change Write.latest initial (done.filter fun w => w.value.isSome) = _
      rw [hsame]
      exact hlatest

theorem length_awaited (h : Coherent initial busy v ws) :
    (Write.awaited ws).length = if busy then 1 else 0 := by
  obtain ⟨done, hdone, -, hws⟩ := h
  have hnone : Write.awaited done = [] := by
    apply List.eq_nil_iff_forall_not_mem.mpr
    intro e he
    cases hdone _ (Write.mem_awaited.mp he)
  cases busy with
  | false =>
      rw [show ws = done from hws, hnone]
      rfl
  | true =>
      obtain ⟨n, r, rfl⟩ := hws
      change ((n, r) :: Write.awaited done).length = 1
      rw [hnone]
      rfl

/-- A register with an awaited write is busy. -/
theorem busy_of_awaited (h : Coherent initial busy v ws) (hn : (n, r) ∈ Write.awaited ws) :
    busy = true := by
  have hlen := h.length_awaited
  have hpos := List.length_pos_of_mem hn
  cases busy with
  | true => rfl
  | false =>
      rw [hlen] at hpos
      cases hpos

/-- The awaited result comes back. -/
theorem deliver (h : Coherent initial busy v ws) (hn : (n, r) ∈ Write.awaited ws) :
    Coherent initial false u (Write.deliver n u ws) := by
  have hbusy := h.busy_of_awaited hn
  subst hbusy
  obtain ⟨done, hdone, hlatest, m, q, rfl⟩ := h
  have hm : m = n := by
    rcases List.mem_cons.mp (Write.mem_awaited.mp hn) with heq | hmem
    · cases heq
      rfl
    · cases hdone _ hmem
  subst hm
  have hws : Write.deliver m u (⟨m, q, none⟩ :: done) = ⟨m, q, some u⟩ :: done := by
    rw [Write.deliver, List.map_cons, ← Write.deliver, Write.deliver_of_done m u hdone]
    simp
  rw [hws]
  exact write ⟨done, hdone, hlatest, rfl⟩

end Coherent

end Coherent

/-! ## All registers -/

/-- The registers with their busy bits, and all writes so far. -/
structure Board (ρ ν : Type) where
  busy : ρ → Bool
  regs : ρ → ν
  history : List (Write ρ ν)

namespace Board

variable {ρ ν : Type} [DecidableEq ρ]

/-- Operation `n` writes `r` as it is issued. -/
def write (n : Nat) (r : ρ) (v : ν) (b : Board ρ ν) : Board ρ ν where
  busy := b.busy
  regs q := if q = r then v else b.regs q
  history := ⟨n, r, some v⟩ :: b.history

/-- Operation `n` is issued, and its result for `r` comes later. -/
def reserve (n : Nat) (r : ρ) (b : Board ρ ν) : Board ρ ν where
  busy q := if q = r then true else b.busy q
  regs := b.regs
  history := ⟨n, r, none⟩ :: b.history

/-- The result of operation `n` for `r` comes back. -/
def deliver (n : Nat) (r : ρ) (v : ν) (b : Board ρ ν) : Board ρ ν where
  busy q := if q = r then false else b.busy q
  regs q := if q = r then v else b.regs q
  history := Write.deliver n v b.history

/-- Every register that counts is coherent. -/
def Ok (live : ρ → Prop) (initial : ν) (b : Board ρ ν) : Prop :=
  ∀ r, live r → Coherent initial (b.busy r) (b.regs r) (Write.of r b.history)

variable {live : ρ → Prop} {initial v : ν} {b c : Board ρ ν} {n : Nat} {r : ρ}

theorem Ok.congr (h : b.Ok live initial) (hhistory : c.history = b.history)
    (hbusy : ∀ r, live r → c.busy r = b.busy r) (hregs : ∀ r, live r → c.regs r = b.regs r) :
    c.Ok live initial := by
  intro r hr
  rw [hhistory, hbusy r hr, hregs r hr]
  exact h r hr

theorem of_cons_self (w : Write ρ ν) (ws : List (Write ρ ν)) :
    Write.of w.reg (w :: ws) = w :: Write.of w.reg ws := by
  simp [Write.of]

theorem of_cons_ne {w : Write ρ ν} (h : r ≠ w.reg) (ws : List (Write ρ ν)) :
    Write.of r (w :: ws) = Write.of r ws := by
  simp [Write.of, Ne.symm h]

theorem Ok.write (h : b.Ok live initial) (hfree : live r → b.busy r = false) :
    (b.write n r v).Ok live initial := by
  intro q hq
  by_cases heq : q = r
  · subst heq
    have hcoh := h q hq
    rw [hfree hq] at hcoh
    change Coherent initial (b.busy q) (if q = q then v else b.regs q) (Write.of q (_ :: _))
    rw [if_pos rfl, hfree hq, of_cons_self ⟨n, q, some v⟩]
    exact hcoh.write
  · change Coherent initial (b.busy q) (if q = r then v else b.regs q) (Write.of q (_ :: _))
    rw [if_neg heq, of_cons_ne heq]
    exact h q hq

theorem Ok.reserve (h : b.Ok live initial) (hfree : live r → b.busy r = false) :
    (b.reserve n r).Ok live initial := by
  intro q hq
  by_cases heq : q = r
  · subst heq
    have hcoh := h q hq
    rw [hfree hq] at hcoh
    change Coherent initial (if q = q then true else b.busy q) (b.regs q) (Write.of q (_ :: _))
    rw [if_pos rfl, of_cons_self ⟨n, q, none⟩]
    exact hcoh.reserve
  · change Coherent initial (if q = r then true else b.busy q) (b.regs q) (Write.of q (_ :: _))
    rw [if_neg heq, of_cons_ne heq]
    exact h q hq

/-- The result that comes back must be awaited, and for no other register. -/
theorem Ok.deliver (h : b.Ok live initial) (hn : (n, r) ∈ Write.awaited b.history)
    (honly : ∀ q, (n, q) ∈ Write.awaited b.history → q = r) :
    (b.deliver n r v).Ok live initial := by
  intro q hq
  change Coherent initial (if q = r then false else b.busy q) (if q = r then v else b.regs q)
    (Write.of q (Write.deliver n v b.history))
  rw [Write.of_deliver]
  by_cases heq : q = r
  · subst heq
    rw [if_pos rfl, if_pos rfl]
    apply (h q hq).deliver
    rw [Write.awaited_of]
    exact List.mem_filter.mpr ⟨hn, by simp⟩
  · rw [if_neg heq, if_neg heq, Write.deliver_eq_self]
    · exact h q hq
    · intro p hp
      rw [Write.awaited_of] at hp
      obtain ⟨hmem, hreg⟩ := List.mem_filter.mp hp
      rw [decide_eq_true_eq] at hreg
      exact heq (hreg ▸ honly p hmem)

/-- The busy bit says whether a result is awaited. -/
theorem Ok.length_awaited (h : b.Ok live initial) (hr : live r) :
    ((Write.awaited b.history).filter fun e => e.2 = r).length = if b.busy r then 1 else 0 := by
  rw [← Write.awaited_of]
  exact (h r hr).length_awaited

theorem Ok.busy_of_awaited (h : b.Ok live initial) (hr : live r)
    (hn : (n, r) ∈ Write.awaited b.history) : b.busy r = true := by
  apply (h r hr).busy_of_awaited (n := n) (r := r)
  rw [Write.awaited_of]
  exact List.mem_filter.mpr ⟨hn, by simp⟩

end Board

end TeraNoC.Lib
