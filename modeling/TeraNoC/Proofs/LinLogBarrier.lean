import TeraNoC.Proofs.LogBarrier

/-!
# The recursive log barriers are barriers

`mempool_log_barrier` climbs the tree of the powers of two, and
`mempool_linlog_barrier` one whose first level is a block of any power of two of
cores, which it counts one by one before it goes on as the former. Both use the
element `4 * step * b + step / 2 - 1` for block `b` of a step. One above it is a
power of two times an odd number, so the step and the block can be read off it.
-/

namespace TeraNoC.Runtime

open TeraNoC.Lib.CombiningTree

/-- A call of `mempool_linlog_barrier` with a power of two as its first step, or of
`mempool_log_barrier` from the leaves. -/
structure LogBarrierConfig extends LogBarrierParams where
  logCores : Nat
  logStep : Nat
  numCores_eq : numCores = 2 ^ logCores
  fits : 4 * numCores ≤ 2 ^ 32
  firstStep_eq : firstStep = 2 ^ logStep
  logStep_pos : 1 ≤ logStep
  logStep_le : logStep ≤ logCores
  leaves : linear = false → logStep = 1

namespace LogBarrierConfig

variable (c : LogBarrierConfig)

def width : Nat → Nat
  | 0 => 1
  | l + 1 => 2 ^ (c.logStep + l)

def shape : Shape where
  width := c.width
  depth := c.logCores - c.logStep + 1
  width_zero := rfl
  width_dvd l _ := by
    cases l with
    | zero => exact Nat.one_dvd _
    | succ l => exact Nat.pow_dvd_pow 2 (by omega)
  width_lt l _ := by
    have := c.logStep_pos
    cases l with
    | zero => exact Nat.one_lt_two_pow (by omega)
    | succ l => exact Nat.pow_lt_pow_right (by omega) (by omega)

theorem depth_pos : 0 < c.shape.depth := Nat.succ_pos _

theorem width_top : c.shape.width c.shape.depth = c.numCores := by
  have := c.logStep_le
  rw [c.numCores_eq]
  show 2 ^ (c.logStep + (c.logCores - c.logStep)) = 2 ^ c.logCores
  rw [Nat.add_sub_cancel' this]

theorem size_eq : c.shape.size = c.numCores := c.width_top

theorem width_one : c.shape.width 1 = c.firstStep := by
  rw [c.firstStep_eq]
  rfl

theorem width_le {l : Nat} (hl : l ≤ c.shape.depth) : c.shape.width l ≤ c.numCores := by
  rw [← c.size_eq]
  exact Nat.le_of_dvd (c.shape.width_pos _ (Nat.le_refl _))
    (c.shape.width_dvd_of_le hl (Nat.le_refl _))

theorem width_double (l : Nat) : c.shape.width (l + 1) <<< 1 = c.shape.width (l + 2) := by
  show 2 ^ (c.logStep + l) <<< 1 = 2 ^ (c.logStep + (l + 1))
  rw [Nat.shiftLeft_eq, ← Nat.pow_add, Nat.add_assoc]

theorem width_half (l : Nat) : c.shape.width (l + 1) >>> 1 = 2 ^ (c.logStep + l - 1) := by
  have := c.logStep_pos
  show 2 ^ (c.logStep + l) >>> 1 = _
  rw [Nat.shiftRight_eq_div_pow, Nat.pow_div (by omega) (by omega)]

/-! ## The layout of the counters -/

/-- The element of `log_barrier` that counts for block `b` of level `l + 1`. -/
def place (l b : Nat) : Nat := 4 * (c.shape.width (l + 1) * b) + c.shape.width (l + 1) >>> 1 - 1

theorem place_succ (l b : Nat) : c.place l b + 1 = 2 ^ (c.logStep + l - 1) * (8 * b + 1) := by
  have hpos := Nat.two_pow_pos (c.logStep + l - 1)
  have hstep := c.logStep_pos
  have hwidth : c.shape.width (l + 1) = 2 ^ (c.logStep + l - 1) * 2 := by
    rw [← Nat.pow_succ, Nat.succ_eq_add_one, Nat.sub_add_cancel (by omega)]
    rfl
  rw [place, width_half, hwidth, Nat.sub_add_cancel (by omega)]
  ring

theorem pow_mul_odd_inj {a a' b b' : Nat} (h : 2 ^ a * (8 * b + 1) = 2 ^ a' * (8 * b' + 1)) :
    a = a' ∧ b = b' := by
  have hle : ∀ {a a' b b' : Nat}, 2 ^ a * (8 * b + 1) = 2 ^ a' * (8 * b' + 1) → ¬ a < a' := by
    intro a a' b b' h hlt
    obtain ⟨d, rfl⟩ : ∃ d, a' = a + (d + 1) := ⟨a' - a - 1, by omega⟩
    rw [Nat.pow_add, Nat.mul_assoc, Nat.mul_right_inj (Nat.ne_of_gt (Nat.two_pow_pos a)),
      Nat.pow_succ, Nat.mul_comm (2 ^ d), Nat.mul_assoc] at h
    omega
  obtain rfl : a = a' := by
    have := hle h
    have := hle h.symm
    omega
  rw [Nat.mul_right_inj (Nat.ne_of_gt (Nat.two_pow_pos a))] at h
  exact ⟨rfl, by omega⟩

theorem place_inj {l m b b' : Nat} (h : c.place l b = c.place m b') : l = m ∧ b = b' := by
  have hsucc := congrArg (· + 1) h
  simp only [place_succ] at hsucc
  obtain ⟨hl, hb⟩ := pow_mul_odd_inj hsucc
  have := c.logStep_pos
  exact ⟨by omega, hb⟩

theorem place_lt {l b : Nat} (hl : l < c.shape.depth) (hb : c.shape.IsBlock (l + 1) b) :
    c.place l b + 1 < 4 * c.numCores := by
  have hend := c.shape.isBlock_end (show l + 1 ≤ c.shape.depth from hl) hb
  have hpos := c.shape.width_pos (l + 1) hl
  have hhalf : c.shape.width (l + 1) >>> 1 ≤ c.shape.width (l + 1) := Nat.shiftRight_le _ _
  rw [c.size_eq, Nat.add_mul, Nat.one_mul, Nat.mul_comm b] at hend
  rw [place]
  omega

variable {c} {i l b : Nat}

theorem counter_eq (hl : l < c.shape.depth) (hi : i < c.numCores) :
    LogBarrierParams.counter (c.shape.width (l + 1)) i
      = c.place l (i / c.shape.width (l + 1)) := by
  have hle := Nat.mul_div_le i (c.shape.width (l + 1))
  have hf := c.fits
  have hhalf : 0 < c.shape.width (l + 1) >>> 1 := by
    rw [width_half]
    exact Nat.two_pow_pos _
  have hlt := c.place_lt hl (c.shape.isBlock_core (by rw [c.size_eq]; exact hi))
  rw [place] at hlt
  have hidx : BarrierParams.idx (c.shape.width (l + 1)) i
      = 4 * (c.shape.width (l + 1) * (i / c.shape.width (l + 1))) := by
    rw [BarrierParams.idx, u32, u32, Nat.mod_eq_of_lt (by omega), Nat.mod_eq_of_lt (by omega),
      Nat.mul_comm]
  rw [LogBarrierParams.counter, BarrierParams.loopIdx, hidx, place, u32,
    Nat.mod_eq_of_lt (by omega), sub32_eq (by omega) (by omega)]

/-! ## The program is the tree -/

/-- Where the fetch-and-add and the store of level `l` are. -/
def addPc (c : LogBarrierConfig) (l : Nat) : LogPc :=
  if c.linear ∧ l = 0 then .linlogAdd (c.shape.width (l + 1)) else .logAdd (c.shape.width (l + 1))

def storePc (c : LogBarrierConfig) (l : Nat) : LogPc :=
  if c.linear ∧ l = 0 then .linlogStore (c.shape.width (l + 1))
  else .logStore (c.shape.width (l + 1))

theorem entry_eq : c.entry = c.addPc 0 := by
  rw [LogBarrierParams.entry, addPc, c.width_one]
  simp

/-- The recursion goes on exactly below the top. -/
theorem afterStore_eq (hl : l < c.shape.depth) :
    c.afterStore (c.shape.width (l + 1))
      = if l + 1 < c.shape.depth then c.addPc (l + 1) else .wakeUpAll := by
  have hf := c.fits
  rw [LogBarrierParams.afterStore]
  split
  · rename_i htop
    rw [if_neg]
    intro hlt
    have hw := c.shape.width_lt (l + 1) hlt
    have := c.width_le (l := l + 1 + 1) hlt
    omega
  · rename_i hne
    have hlt : l + 1 < c.shape.depth := by
      by_contra hge
      have htop : l + 1 = c.shape.depth := by omega
      rw [htop, width_top] at hne
      exact hne rfl
    have hle := c.width_le (l := l + 2) hlt
    rw [if_pos hlt, c.width_double, u32, Nat.mod_eq_of_lt (by omega), addPc,
      if_neg (by simp)]

inductive PcSim (c : LogBarrierConfig) : LogPc → Pos → Prop where
  | idle : PcSim c .idle .idle
  | add (l : Nat) (hl : l < c.shape.depth) : PcSim c (c.addPc l) (.climb l)
  | store (l : Nat) (hl : l < c.shape.depth) : PcSim c (c.storePc l) (.clear l)
  | wakeUpAll : PcSim c .wakeUpAll (.climb c.shape.depth)
  | wfi : PcSim c .wfi .wfi

structure Sim (c : LogBarrierConfig) (s : LogBarrierState) (a : State) : Prop where
  pc : ∀ i < c.numCores, PcSim c (s.pc i) (a.pos i)
  tokens : ∀ i < c.numCores, s.tokens i = a.tokens i
  entered : ∀ i < c.numCores, s.entered i = a.entered i
  wakes : s.wakes = a.wakes
  mem : InArray c.shape c.place (· < 4 * c.numCores) s.logBarrier a.count

/-- What the fetch-and-add of a level adds: its own first, half a step above. -/
theorem half_eq (hl : ¬ (c.linear ∧ l = 0)) : c.shape.width (l + 1) >>> 1 = c.shape.width l := by
  rw [width_half]
  cases l with
  | zero =>
      rw [c.leaves (by simpa using hl), c.shape.width_zero]
      rfl
  | succ l => rfl

theorem step_add {s : LogBarrierState} (hl : l < c.shape.depth) (hi : i < c.numCores)
    (hpc : s.pc i = c.addPc l) :
    c.step s i = { s with
      logBarrier := Function.update s.logBarrier (c.place l (i / c.shape.width (l + 1)))
        (u32 (s.logBarrier (c.place l (i / c.shape.width (l + 1))) + c.shape.width l))
      pc := Function.update s.pc i
        (if sub32 (c.shape.width (l + 1)) (c.shape.width l)
            = s.logBarrier (c.place l (i / c.shape.width (l + 1)))
            then c.storePc l else .wfi) } := by
  rw [addPc] at hpc
  rw [storePc]
  split at hpc
  · rename_i hlin
    rw [if_pos hlin, ← counter_eq hl hi]
    obtain ⟨-, rfl⟩ := hlin
    simp only [LogBarrierParams.step, hpc, c.shape.width_zero]
  · rename_i hlin
    rw [if_neg hlin, ← counter_eq hl hi]
    simp only [LogBarrierParams.step, hpc, half_eq hlin]

theorem step_store {s : LogBarrierState} (hl : l < c.shape.depth) (hi : i < c.numCores)
    (hpc : s.pc i = c.storePc l) :
    c.step s i = { s with
      logBarrier := Function.update s.logBarrier (c.place l (i / c.shape.width (l + 1))) 0
      pc := Function.update s.pc i (c.afterStore (c.shape.width (l + 1))) } := by
  rw [← counter_eq hl hi]
  rw [storePc] at hpc
  split at hpc <;> simp only [LogBarrierParams.step, hpc]

theorem Sim.step_add {s : LogBarrierState} {a : State} {st : Nat → Nat → Status} (h : Sim c s a)
    (ha : Agrees c.shape a st) (hi : i < c.numCores) (hl : l < c.shape.depth)
    (hpc : s.pc i = c.addPc l) (hpos : a.pos i = .climb l) :
    Sim c (c.step s i) (a.step c.shape i) := by
  have hsize : i < c.shape.size := by rw [c.size_eq]; exact hi
  have hb := c.shape.isBlock_core (l := l + 1) hsize
  have hroom := ha.count_room hsize hl hpos
  have hle := c.width_le (l := l + 1) hl
  have hlt := c.shape.width_lt l hl
  have hf := c.fits
  have hstep : a.step c.shape i = { a with
      count := set2 a.count l (i / c.shape.width (l + 1))
        (a.count l (i / c.shape.width (l + 1)) + c.shape.width l)
      pos := Function.update a.pos i
        (if a.count l (i / c.shape.width (l + 1)) = c.shape.width (l + 1) - c.shape.width l
          then .clear l else .wfi) } := by
    simp only [State.step, hpos, if_pos hl]
  have hread := h.mem.count l hl _ hb
  have hsum : u32 (a.count l (i / c.shape.width (l + 1)) + c.shape.width l)
      = a.count l (i / c.shape.width (l + 1)) + c.shape.width l := by
    rw [u32, Nat.mod_eq_of_lt (by omega)]
  rw [hstep, LogBarrierConfig.step_add hl hi hpc, hread, hsum,
    sub32_eq (by omega) (by omega)]
  refine ⟨forall_update h.pc ?_ i, h.tokens, h.entered, h.wakes,
    h.mem.update hl hb (fun _ _ _ _ => c.place_inj) _⟩
  by_cases htest : a.count l (i / c.shape.width (l + 1)) = c.shape.width (l + 1) - c.shape.width l
  · rw [if_pos htest.symm, if_pos htest]
    exact .store l hl
  · rw [if_neg (Ne.symm htest), if_neg htest]
    exact .wfi

theorem Sim.step_store {s : LogBarrierState} {a : State} (h : Sim c s a) (hi : i < c.numCores)
    (hl : l < c.shape.depth) (hpc : s.pc i = c.storePc l) (hpos : a.pos i = .clear l) :
    Sim c (c.step s i) (a.step c.shape i) := by
  have hsize : i < c.shape.size := by rw [c.size_eq]; exact hi
  have hstep : a.step c.shape i = { a with
      count := set2 a.count l (i / c.shape.width (l + 1)) 0
      pos := Function.update a.pos i (.climb (l + 1)) } := by
    simp only [State.step, hpos]
  rw [hstep, LogBarrierConfig.step_store hl hi hpc, afterStore_eq hl]
  refine ⟨forall_update h.pc ?_ i, h.tokens, h.entered, h.wakes,
    h.mem.update hl (c.shape.isBlock_core hsize) (fun _ _ _ _ => c.place_inj) 0⟩
  split
  · rename_i hlt
    exact .add (l + 1) hlt
  · have htop : l + 1 = c.shape.depth := by omega
    rw [htop]
    exact .wakeUpAll

theorem Sim.step {s : LogBarrierState} {a : State} {st : Nat → Nat → Status} (h : Sim c s a)
    (ha : Agrees c.shape a st) (hi : i < c.numCores) :
    Sim c (c.step s i) (a.step c.shape i) := by
  have hpc := h.pc i hi
  generalize hx : s.pc i = x at hpc
  generalize hy : a.pos i = y at hpc
  cases hpc with
  | idle =>
      simp only [LogBarrierParams.step, State.step, hx, hy, entry_eq]
      exact ⟨forall_update h.pc (.add 0 c.depth_pos) i, h.tokens,
        forall_update (R := Eq) h.entered (by rw [h.entered i hi]) i, h.wakes, h.mem⟩
  | add l hl => exact h.step_add ha hi hl hx hy
  | store l hl => exact h.step_store hi hl hx hy
  | wakeUpAll =>
      simp only [LogBarrierParams.step, State.step, hx, hy, Nat.lt_irrefl, if_false]
      refine ⟨forall_update h.pc .wfi i, ?_, h.entered, by rw [h.wakes], h.mem⟩
      intro j hj
      show (if j < c.numCores then _ else _) = if j < c.shape.size then _ else _
      rw [c.size_eq, if_pos hj, if_pos hj, h.tokens j hj]
  | wfi =>
      simp only [LogBarrierParams.step, State.step, hx, hy, h.tokens i hi]
      split
      · exact ⟨forall_update h.pc .idle i, forall_update (R := Eq) h.tokens rfl i, h.entered,
          h.wakes, h.mem⟩
      · exact h

theorem start_sim (mem : Nat → Nat) {order : List Nat} (horder : ∀ i < c.numCores, i ∈ order) :
    Sim c (c.start mem order) .start where
  pc _ _ := .idle
  tokens _ _ := rfl
  entered _ _ := rfl
  wakes := rfl
  mem :=
    { count := fun l hl b hb => by
        have hlt := c.place_lt hl hb
        exact BarrierConfig.init_zero _ mem horder (show _ < 4 * c.numCores by omega)
      rest := fun e he _ => BarrierConfig.init_zero _ mem horder he }

/-! ## The barriers -/

section Run

variable (mem : Nat → Nat) {order : List Nat} {sched : Nat → Nat}
  (horder : ∀ i < c.numCores, i ∈ order) (hsched : ∀ t, sched t < c.numCores)

include hsched in
theorem sched_size (t : Nat) : sched t < c.shape.size := by
  rw [c.size_eq]
  exact hsched t

include horder hsched in
theorem sim_after (t : Nat) :
    Sim c (c.after mem order sched t) (State.after c.shape sched t) ∧
    ∃ st, Agrees c.shape (State.after c.shape sched t) st := by
  have hagree := State.agrees_after (sched_size hsched)
  refine ⟨?_, hagree t⟩
  induction t with
  | zero => exact start_sim mem horder
  | succ t ih =>
      obtain ⟨st, ha⟩ := hagree t
      exact ih.step ha (hsched t)

theorem PcSim.wakes_iff {x : LogPc} {y : Pos} (h : PcSim c x y) :
    x = .wakeUpAll ↔ y = .climb c.shape.depth := by
  cases h with
  | idle => simp
  | add l hl =>
      have hne : l ≠ c.shape.depth := Nat.ne_of_lt hl
      rw [addPc]
      split <;> simp [hne]
  | store l hl =>
      rw [storePc]
      split <;> simp
  | wakeUpAll => simp
  | wfi => simp

theorem PcSim.wfi_iff {x : LogPc} {y : Pos} (h : PcSim c x y) : x = .wfi ↔ y = .wfi := by
  cases h with
  | idle => simp
  | add l hl =>
      rw [addPc]
      split <;> simp
  | store l hl =>
      rw [storePc]
      split <;> simp
  | wakeUpAll => simp
  | wfi => simp

theorem PcSim.idle_iff {x : LogPc} {y : Pos} (h : PcSim c x y) : x = .idle ↔ y = .idle := by
  cases h with
  | idle => simp
  | add l hl =>
      rw [addPc]
      split <;> simp
  | store l hl =>
      rw [storePc]
      split <;> simp
  | wakeUpAll => simp
  | wfi => simp

include horder hsched in
theorem wakes_iff (t : Nat) :
    (c.after mem order sched t).pc (sched t) = .wakeUpAll ↔
      State.Wakes c.shape (State.after c.shape sched t) (sched t) :=
  ((sim_after mem horder hsched t).1.pc (sched t) (hsched t)).wakes_iff

/-- Every access is to the counter above the core's block, of the level that the
step says. -/
theorem access_eq {s : LogBarrierState} {a : State} (h : Sim c s a) (hi : i < c.numCores)
    {step e : Nat} (hacc : LogBarrierParams.access s i = some (step, e)) :
    ∃ l < c.shape.depth, step = c.shape.width (l + 1) ∧
      e = c.place l (i / c.shape.width (l + 1)) := by
  have hpc := h.pc i hi
  rw [LogBarrierParams.access] at hacc
  generalize s.pc i = x at hpc hacc
  generalize a.pos i = y at hpc
  cases hpc with
  | idle => cases hacc
  | add l hl =>
      refine ⟨l, hl, ?_⟩
      rw [← counter_eq hl hi]
      rw [addPc] at hacc
      by_cases hlin : c.linear ∧ l = 0
      · rw [if_pos hlin] at hacc
        cases hacc
        exact ⟨rfl, rfl⟩
      · rw [if_neg hlin] at hacc
        cases hacc
        exact ⟨rfl, rfl⟩
  | store l hl =>
      refine ⟨l, hl, ?_⟩
      rw [← counter_eq hl hi]
      rw [storePc] at hacc
      by_cases hlin : c.linear ∧ l = 0
      · rw [if_pos hlin] at hacc
        cases hacc
        exact ⟨rfl, rfl⟩
      · rw [if_neg hlin] at hacc
        cases hacc
        exact ⟨rfl, rfl⟩
  | wakeUpAll => cases hacc
  | wfi => cases hacc

end Run

end LogBarrierConfig

/-- The recursive barriers, from initialization on and for any interleaving of the
cores. When `wake_up_all` is called, all cores have entered the episode and the
array is all zeros; no episode has two calls, and each has one if every core keeps
moving; a core that is outside has left exactly the episodes that were woken. A core
that keeps moving gets through the recursion to its WFI. The steps of the recursion
do not pass `NUM_CORES`, the elements accessed are in the array, and one element
serves one block of one step. -/
theorem linlog_barrier (c : LogBarrierConfig) (mem : Nat → Nat) (order : List Nat)
    (sched : Nat → Nat) (horder : ∀ i < c.numCores, i ∈ order)
    (hsched : ∀ t, sched t < c.numCores) :
    (∀ t, (c.after mem order sched t).pc (sched t) = .wakeUpAll →
      (∀ i < c.numCores, (c.after mem order sched t).entered i
        = (c.after mem order sched t).wakes + 1) ∧
      ∀ e < 4 * c.numCores, (c.after mem order sched t).logBarrier e = 0) ∧
    (∀ t u, (c.after mem order sched t).pc (sched t) = .wakeUpAll →
      (c.after mem order sched u).pc (sched u) = .wakeUpAll →
      (c.after mem order sched t).entered (sched t)
        = (c.after mem order sched u).entered (sched u) → t = u) ∧
    ((∀ i < c.numCores, ∀ t, ∃ u, t ≤ u ∧ sched u = i) →
      ∀ e, ∃ t, (c.after mem order sched t).pc (sched t) = .wakeUpAll ∧
        (c.after mem order sched t).entered (sched t) = e + 1) ∧
    (∀ t, ∀ i < c.numCores, (c.after mem order sched t).pc i = .idle →
      (c.after mem order sched t).entered i = (c.after mem order sched t).wakes) ∧
    (∀ i < c.numCores, (∀ t, ∃ u, t ≤ u ∧ sched u = i) →
      ∀ t, ∃ u, t ≤ u ∧ (c.after mem order sched u).pc i = .wfi) ∧
    (∀ t, ∀ i < c.numCores, ∀ step e,
      LogBarrierParams.access (c.after mem order sched t) i = some (step, e) →
      step ≤ c.numCores ∧ e < 4 * c.numCores) ∧
    (∀ t u, ∀ i < c.numCores, ∀ j < c.numCores, ∀ step step' e,
      LogBarrierParams.access (c.after mem order sched t) i = some (step, e) →
      LogBarrierParams.access (c.after mem order sched u) j = some (step', e) →
      step = step' ∧ i / step = j / step') := by
  have hsize := LogBarrierConfig.sched_size hsched
  have hsim := LogBarrierConfig.sim_after mem horder hsched
  have hiff := LogBarrierConfig.wakes_iff mem horder hsched
  have hlt : ∀ {i}, i < c.numCores → i < c.shape.size := fun hi => by rw [c.size_eq]; exact hi
  have hepisode : ∀ t, (c.after mem order sched t).pc (sched t) = .wakeUpAll →
      (∀ i < c.numCores, (c.after mem order sched t).entered i
        = (c.after mem order sched t).wakes + 1) ∧
      ∀ e < 4 * c.numCores, (c.after mem order sched t).logBarrier e = 0 := by
    intro t hw
    obtain ⟨h, hagree⟩ := hsim t
    obtain ⟨hent, hzero⟩ := State.Wakes.spec hagree (hsize t) ((hiff t).mp hw)
    refine ⟨fun i hi => ?_, fun e => h.mem.zero hzero⟩
    rw [h.entered i hi, h.wakes]
    exact hent i (hlt hi)
  refine ⟨hepisode, ?_, ?_, ?_, ?_, ?_, ?_⟩
  · intro t u ht hu htu
    rw [(hepisode t ht).1 _ (hsched t), (hepisode u hu).1 _ (hsched u), (hsim t).1.wakes,
      (hsim u).1.wakes] at htu
    exact State.wakes_unique hsize ((hiff t).mp ht) ((hiff u).mp hu) (by omega)
  · intro hfair e
    obtain ⟨t, hw, hwakes⟩ := State.episode_wakes hsize
      (fun i hi => hfair i (by rw [← c.size_eq]; exact hi)) e
    have hw' := (hiff t).mpr hw
    refine ⟨t, hw', ?_⟩
    rw [(hepisode t hw').1 _ (hsched t), (hsim t).1.wakes, hwakes]
  · intro t i hi hidle
    obtain ⟨h, st, hagree⟩ := hsim t
    have hpos := (h.pc i hi).idle_iff.mp hidle
    rw [h.entered i hi, h.wakes, hagree.entered i (hlt hi),
      if_pos ((hagree.out i (hlt hi)).mp (.inl hpos))]
  · intro i hi hmoves t
    obtain ⟨u, hu, hw⟩ := State.sleeps hsize (hlt hi) hmoves t
    exact ⟨u, hu, ((hsim u).1.pc i hi).wfi_iff.mpr hw⟩
  · intro t i hi step e hacc
    obtain ⟨l, hl, rfl, rfl⟩ := LogBarrierConfig.access_eq (hsim t).1 hi hacc
    have := c.place_lt hl (c.shape.isBlock_core (hlt hi))
    exact ⟨c.width_le hl, by omega⟩
  · intro t u i hi j hj step step' e hacc hacc'
    obtain ⟨l, hl, rfl, he⟩ := LogBarrierConfig.access_eq (hsim t).1 hi hacc
    obtain ⟨m, hm, rfl, he'⟩ := LogBarrierConfig.access_eq (hsim u).1 hj hacc'
    obtain ⟨rfl, hb⟩ := c.place_inj (he.symm.trans he')
    exact ⟨rfl, hb⟩

/-- Blocks of four counted one by one, then one step over all eight. -/
def linlogEight : LogBarrierConfig where
  numCores := 8
  linear := true
  firstStep := 4
  logCores := 3
  logStep := 2
  numCores_eq := eightCores.numCores_eq
  fits := eightCores.fits
  firstStep_eq := rfl
  logStep_pos := Nat.two_pos
  logStep_le := Nat.le_succ 2
  leaves h := by cases h

theorem linlog_barrier_takeTurns :
    (∀ i < linlogEight.numCores, ∀ t, ∃ u, t ≤ u ∧ takeTurns u = i) ∧
    ∀ e, ∃ t, (linlogEight.after (fun _ => 7) (List.range 8) takeTurns t).pc (takeTurns t)
      = .wakeUpAll ∧
      (linlogEight.after (fun _ => 7) (List.range 8) takeTurns t).entered
        (takeTurns t) = e + 1 := by
  have hfair : ∀ i < linlogEight.numCores, ∀ t, ∃ u, t ≤ u ∧ takeTurns u = i := by
    intro i hi t
    refine ⟨8 * t + i, by omega, ?_⟩
    rw [takeTurns, Nat.mul_add_mod]
    exact Nat.mod_eq_of_lt hi
  refine ⟨hfair, ?_⟩
  exact (linlog_barrier linlogEight (fun _ => 7) (List.range 8) takeTurns
    (fun i hi => List.mem_range.mpr hi) fun t => Nat.mod_lt t (by decide)).2.2.1 hfair

end TeraNoC.Runtime
