import TeraNoC.Lib.CombiningTree
import TeraNoC.Runtime.Synchronization

/-!
# The log barrier of any radix is a barrier

The barrier is a combining tree whose counters share one array: the counter above
block `b` of level `l` is `log_barrier[4 * width (l + 1) * b + width l - 1]`, at
the first level with a width of one below. The elements of different counters
differ because seen modulo `width (l + 1)` the counters of level `l` are at
`width l - 1` and those of all higher levels at `width (l + 1) - 1`.

Every step of the program is the step of the tree with the same core (`Sim.step`),
so what holds of the tree holds of the program.
-/

namespace TeraNoC.Runtime

open TeraNoC.Lib.CombiningTree

/-! ## The layout of the counters -/

section Layout

variable (T : Shape) {l m b b' : Nat}

/-- The element of `log_barrier` that counts for block `b` of level `l + 1`. -/
def counterIdx (l b : Nat) : Nat := 4 * (T.width (l + 1) * b) + T.width l - 1

theorem counterIdx_eq (hl : l < T.depth) (b : Nat) :
    counterIdx T l b = T.width (l + 1) * (4 * b) + (T.width l - 1) := by
  have := T.width_pos l (by omega)
  rw [counterIdx, Nat.add_sub_assoc this, Nat.mul_left_comm]

theorem counterIdx_lt (hl : l < T.depth) (hb : T.IsBlock (l + 1) b) :
    counterIdx T l b + 1 < 4 * T.size := by
  have hend := T.isBlock_end (show l + 1 ≤ T.depth from hl) hb
  have hlt := T.width_lt l hl
  have hpos := T.width_pos l (by omega)
  rw [Nat.add_mul, Nat.one_mul, Nat.mul_comm b] at hend
  rw [counterIdx]
  omega

/-- Where the counters of a level are within the blocks of level `k`. -/
theorem counterIdx_mod (hl : l < T.depth) :
    counterIdx T l b % T.width (l + 1) = T.width l - 1 := by
  have hlt := T.width_lt l hl
  rw [counterIdx_eq T hl, Nat.mul_add_mod, Nat.mod_eq_of_lt (by omega)]

theorem counterIdx_mod_above (hlm : l < m) (hm : m < T.depth) :
    counterIdx T m b % T.width (l + 1) = T.width (l + 1) - 1 := by
  obtain ⟨k, hk⟩ := T.width_dvd_of_le (show l + 1 ≤ m from hlm) (by omega)
  obtain ⟨k', hk'⟩ := T.width_dvd_of_le (show l + 1 ≤ m + 1 by omega) (by omega)
  have hpos := T.width_pos (l + 1) (by omega)
  have hk0 : 0 < k := by
    rcases Nat.eq_zero_or_pos k with rfl | h
    · have := T.width_pos m (by omega)
      omega
    · exact h
  obtain ⟨n, rfl⟩ : ∃ n, k = n + 1 := ⟨k - 1, by omega⟩
  have hlast : T.width m - 1 = T.width (l + 1) * n + (T.width (l + 1) - 1) := by
    rw [hk, Nat.mul_add, Nat.mul_one]
    omega
  rw [counterIdx_eq T hm, hk', hlast, Nat.mul_assoc, Nat.mul_add_mod, Nat.mul_add_mod,
    Nat.mod_eq_of_lt (by omega)]

theorem counterIdx_level (hl : l < T.depth) (hm : m < T.depth)
    (h : counterIdx T l b = counterIdx T m b') : ¬ l < m := by
  intro hlm
  have hlt := T.width_lt l hl
  have hpos := T.width_pos l (by omega)
  have h₁ := counterIdx_mod T (b := b) hl
  have h₂ := counterIdx_mod_above T (b := b') hlm hm
  rw [h, h₂] at h₁
  omega

theorem counterIdx_inj (hl : l < T.depth) (hm : m < T.depth)
    (h : counterIdx T l b = counterIdx T m b') : l = m ∧ b = b' := by
  have hlm := counterIdx_level T hl hm h
  have hml := counterIdx_level T hm hl h.symm
  obtain rfl : l = m := by omega
  refine ⟨rfl, ?_⟩
  have hpos := T.width_pos (l + 1) hl
  rw [counterIdx_eq T hl, counterIdx_eq T hl, Nat.add_right_cancel_iff,
    Nat.mul_right_inj (by omega)] at h
  omega

end Layout

/-! ## The tree of a radix -/

/-- A cluster with a power of two of cores. The elements of `log_barrier` are
numbered by a `uint32_t`. -/
structure BarrierConfig extends BarrierParams where
  logCores : Nat
  numCores_eq : numCores = 2 ^ logCores
  logCores_pos : 1 ≤ logCores
  fits : 4 * numCores ≤ 2 ^ 32
  radix_pos : 1 ≤ radix

namespace BarrierConfig

variable (c : BarrierConfig)

/-- The logarithm of the first step. -/
def remainder : Nat := if c.logCores % c.radix = 0 then c.radix else c.logCores % c.radix

/-- The number of steps after the first. -/
def steps : Nat := (c.logCores - c.remainder) / c.radix

theorem log2NumCores_eq : c.log2NumCores = c.logCores := by
  rw [BarrierParams.log2NumCores, c.numCores_eq, Nat.log2_two_pow]

theorem remainder_pos : 0 < c.remainder := by
  have := c.radix_pos
  rw [remainder]
  split <;> omega

theorem logCores_eq : c.logCores = c.remainder + c.radix * c.steps := by
  have hr := c.radix_pos
  have hl := c.logCores_pos
  have hdiv := Nat.div_add_mod c.logCores c.radix
  rw [steps, remainder]
  split
  · rename_i h0
    obtain ⟨n, hn⟩ : ∃ n, c.logCores / c.radix = n + 1 := by
      refine ⟨c.logCores / c.radix - 1, ?_⟩
      rcases Nat.eq_zero_or_pos (c.logCores / c.radix) with hz | hz
      · rw [hz, h0] at hdiv
        omega
      · omega
    rw [hn, h0, Nat.mul_add, Nat.mul_one] at hdiv
    have hsub : c.logCores - c.radix = c.radix * n := by omega
    rw [hsub, Nat.mul_div_cancel_left _ hr]
    omega
  · have hsub : c.logCores - c.logCores % c.radix = c.radix * (c.logCores / c.radix) := by omega
    rw [hsub, Nat.mul_div_cancel_left _ hr]
    omega

theorem remainder_le : c.remainder ≤ c.logCores := by
  have := c.logCores_eq
  omega

theorem logCores_lt : c.logCores < 32 := by
  have hf := c.fits
  rw [c.numCores_eq] at hf
  by_contra hge
  have := Nat.pow_le_pow_right (show 0 < 2 by omega) (show 32 ≤ c.logCores by omega)
  omega

theorem firstStep_eq : c.firstStep = 2 ^ c.remainder := by
  have hlt := c.logCores_lt
  have hle := c.remainder_le
  have hpow : ∀ k ≤ c.logCores, u32 (1 <<< k) = 2 ^ k := by
    intro k hk
    rw [u32, Nat.shiftLeft_eq, Nat.one_mul, Nat.mod_eq_of_lt]
    exact Nat.pow_lt_pow_right (by omega) (by omega)
  rw [BarrierParams.firstStep, c.log2NumCores_eq, remainder]
  rw [remainder] at hle
  split
  · rename_i h0
    rw [if_pos h0] at hle
    exact hpow _ hle
  · rename_i h0
    rw [if_neg h0] at hle
    exact hpow _ hle

def width : Nat → Nat
  | 0 => 1
  | l + 1 => 2 ^ (c.remainder + c.radix * l)

def shape : Shape where
  width := c.width
  depth := c.steps + 1
  width_zero := rfl
  width_dvd l _ := by
    cases l with
    | zero => exact Nat.one_dvd _
    | succ l => exact Nat.pow_dvd_pow 2 (by rw [Nat.mul_add]; omega)
  width_lt l _ := by
    have := c.remainder_pos
    have := c.radix_pos
    cases l with
    | zero => exact Nat.one_lt_two_pow (by omega)
    | succ l => exact Nat.pow_lt_pow_right (by omega) (by rw [Nat.mul_add]; omega)

theorem size_eq : c.shape.size = c.numCores := by
  rw [c.numCores_eq, c.logCores_eq]
  rfl

theorem width_one : c.shape.width 1 = c.firstStep := by
  rw [c.firstStep_eq]
  exact congrArg (2 ^ ·) (Nat.add_zero _)

theorem width_succ (l : Nat) : c.shape.width (l + 2) = c.shape.width (l + 1) * 2 ^ c.radix := by
  show 2 ^ (c.remainder + c.radix * (l + 1)) = 2 ^ (c.remainder + c.radix * l) * 2 ^ c.radix
  rw [← Nat.pow_add, Nat.mul_add, Nat.mul_one, Nat.add_assoc]

theorem width_le (l : Nat) (hl : l ≤ c.shape.depth) : c.shape.width l ≤ c.numCores := by
  rw [← c.size_eq]
  exact Nat.le_of_dvd (c.shape.width_pos _ (Nat.le_refl _))
    (c.shape.width_dvd_of_le hl (Nat.le_refl _))

/-! ## The program is the tree -/

variable {c} {i l b : Nat}

theorem idx_eq (l : Nat) (hi : i < c.numCores) :
    BarrierParams.idx (c.shape.width (l + 1)) i
      = 4 * (c.shape.width (l + 1) * (i / c.shape.width (l + 1))) := by
  have hle := Nat.mul_div_le i (c.shape.width (l + 1))
  have hf := c.fits
  rw [BarrierParams.idx, u32, u32, Nat.mod_eq_of_lt (by omega), Nat.mod_eq_of_lt (by omega),
    Nat.mul_comm]

theorem firstIdx_eq (hi : i < c.numCores) :
    BarrierParams.idx c.firstStep i = counterIdx c.shape 0 (i / c.shape.width 1) := by
  rw [← c.width_one, idx_eq 0 hi, counterIdx, c.shape.width_zero]
  rfl

theorem loopIdx_eq (hl : l < c.shape.depth) (hi : i < c.numCores) :
    BarrierParams.loopIdx (c.shape.width l) (c.shape.width (l + 1)) i
      = counterIdx c.shape l (i / c.shape.width (l + 1)) := by
  have hpos := c.shape.width_pos l (by omega)
  have hlt := counterIdx_lt c.shape hl (c.shape.isBlock_core (by rw [c.size_eq]; exact hi))
  have hf := c.fits
  rw [c.size_eq] at hlt
  rw [BarrierParams.loopIdx, idx_eq l hi, counterIdx] at *
  rw [u32, Nat.mod_eq_of_lt (by omega), sub32_eq (by omega) (by omega)]

inductive PcSim (c : BarrierConfig) : Pc → Pos → Prop where
  | idle : PcSim c .idle .idle
  | firstAdd : PcSim c .firstAdd (.climb 0)
  | firstStore : PcSim c .firstStore (.clear 0)
  | loopAdd (l : Nat) (hl : l + 1 < c.shape.depth) :
      PcSim c (.loopAdd (c.numCores / c.shape.width (l + 1)) (c.shape.width (l + 1))
        (c.shape.width (l + 2))) (.climb (l + 1))
  | loopStore (l : Nat) (hl : l + 1 < c.shape.depth) :
      PcSim c (.loopStore (c.numCores / c.shape.width (l + 1)) (c.shape.width (l + 1))
        (c.shape.width (l + 2))) (.clear (l + 1))
  | wakeUpAll : PcSim c .wakeUpAll (.climb c.shape.depth)
  | wfi : PcSim c .wfi .wfi

structure Sim (c : BarrierConfig) (s : BarrierState) (a : State) : Prop where
  pc : ∀ i < c.numCores, PcSim c (s.pc i) (a.pos i)
  tokens : ∀ i < c.numCores, s.tokens i = a.tokens i
  entered : ∀ i < c.numCores, s.entered i = a.entered i
  wakes : s.wakes = a.wakes
  mem : InArray c.shape (counterIdx c.shape) (· < 4 * c.numCores) s.logBarrier a.count

theorem many (hl : l + 1 < c.shape.depth) : c.numCores / c.shape.width (l + 1) > 1 := by
  have hpos := c.shape.width_pos (l + 1) (by omega)
  have hw : c.shape.width (l + 1) < c.shape.width (l + 2) := c.shape.width_lt (l + 1) hl
  have hle := c.width_le (l + 2) hl
  obtain ⟨k, hk⟩ := c.shape.width_dvd_of_le (show l + 1 ≤ c.shape.depth by omega) (Nat.le_refl _)
  have hsize : c.numCores = c.shape.width (l + 1) * k := by rw [← c.size_eq]; exact hk
  rw [hsize, Nat.mul_div_cancel_left _ hpos]
  by_contra hk1
  have : c.shape.width (l + 1) * k ≤ c.shape.width (l + 1) * 1 := Nat.mul_le_mul_left _ (by omega)
  omega

/-- The loop goes on exactly below the top. -/
theorem loopHead_sim (hl : l < c.shape.depth) :
    PcSim c (BarrierParams.loopHead (c.numCores / c.shape.width (l + 1)) (c.shape.width (l + 1))
      (u32 (c.shape.width (l + 1) <<< c.radix))) (.climb (l + 1)) := by
  rcases Nat.lt_or_ge (l + 1) c.shape.depth with hlt | hge
  · have hle := c.width_le (l + 2) hlt
    have hf := c.fits
    have hshift : u32 (c.shape.width (l + 1) <<< c.radix) = c.shape.width (l + 2) := by
      rw [u32, Nat.shiftLeft_eq, ← c.width_succ, Nat.mod_eq_of_lt (by omega)]
    rw [BarrierParams.loopHead, if_pos (many hlt), hshift]
    exact .loopAdd l hlt
  · have htop : l + 1 = c.shape.depth := by omega
    have hone : c.numCores / c.shape.width (l + 1) = 1 := by
      rw [htop, ← c.size_eq]
      exact Nat.div_self (c.shape.width_pos _ (Nat.le_refl _))
    rw [BarrierParams.loopHead, hone, if_neg (by omega), BarrierParams.afterLoop, if_pos rfl, htop]
    exact .wakeUpAll

/-- The fetch-and-add of level `l`, in the program and in the tree. -/
theorem add_sim {s : BarrierState} {a : State} {st : Nat → Nat → Status} (h : Sim c s a)
    (ha : Agrees c.shape a st) (hi : i < c.numCores) (hl : l < c.shape.depth)
    (hpos : a.pos i = .climb l) {pcLast pcElse : Pc} (hlast : PcSim c pcLast (.clear l))
    (helse : PcSim c pcElse .wfi) :
    Sim c
      { s with
        logBarrier := Function.update s.logBarrier
          (counterIdx c.shape l (i / c.shape.width (l + 1)))
          (u32 (s.logBarrier (counterIdx c.shape l (i / c.shape.width (l + 1)))
            + c.shape.width l))
        pc := Function.update s.pc i
          (if sub32 (c.shape.width (l + 1)) (c.shape.width l)
              = s.logBarrier (counterIdx c.shape l (i / c.shape.width (l + 1)))
            then pcLast else pcElse) }
      (a.step c.shape i) := by
  have hsize : i < c.shape.size := by rw [c.size_eq]; exact hi
  have hb := c.shape.isBlock_core (l := l + 1) hsize
  have hroom := ha.count_room hsize hl hpos
  have hle := c.width_le (l + 1) hl
  have hlt := c.shape.width_lt l hl
  have hf := c.fits
  have hstep : a.step c.shape i = { a with
      count := set2 a.count l (i / c.shape.width (l + 1))
        (a.count l (i / c.shape.width (l + 1)) + c.shape.width l)
      pos := Function.update a.pos i
        (if a.count l (i / c.shape.width (l + 1)) = c.shape.width (l + 1) - c.shape.width l
          then .clear l else .wfi) } := by
    simp only [State.step, hpos, if_pos hl]
  have hread := h.mem.count l hl _ hb
  have hsum : u32 (a.count l (i / c.shape.width (l + 1)) + c.shape.width l)
      = a.count l (i / c.shape.width (l + 1)) + c.shape.width l := by
    rw [u32, Nat.mod_eq_of_lt (by omega)]
  rw [hstep, hread, hsum, sub32_eq (by omega) (by omega)]
  refine ⟨forall_update h.pc ?_ i, h.tokens, h.entered, h.wakes,
    h.mem.update hl hb (fun _ hm _ _ => counterIdx_inj c.shape hm hl) _⟩
  by_cases htest : a.count l (i / c.shape.width (l + 1)) = c.shape.width (l + 1) - c.shape.width l
  · rw [if_pos htest.symm, if_pos htest]
    exact hlast
  · rw [if_neg (Ne.symm htest), if_neg htest]
    exact helse

/-- The store of level `l`. -/
theorem store_sim {s : BarrierState} {a : State} (h : Sim c s a) (hi : i < c.numCores)
    (hl : l < c.shape.depth) (hpos : a.pos i = .clear l) {pcNext : Pc}
    (hnext : PcSim c pcNext (.climb (l + 1))) :
    Sim c
      { s with
        logBarrier :=
          Function.update s.logBarrier (counterIdx c.shape l (i / c.shape.width (l + 1))) 0
        pc := Function.update s.pc i pcNext }
      (a.step c.shape i) := by
  have hsize : i < c.shape.size := by rw [c.size_eq]; exact hi
  have hstep : a.step c.shape i = { a with
      count := set2 a.count l (i / c.shape.width (l + 1)) 0
      pos := Function.update a.pos i (.climb (l + 1)) } := by
    simp only [State.step, hpos]
  rw [hstep]
  exact ⟨forall_update h.pc hnext i, h.tokens, h.entered, h.wakes,
    h.mem.update hl (c.shape.isBlock_core hsize)
      (fun _ hm _ _ => counterIdx_inj c.shape hm hl) 0⟩

theorem Sim.step {s : BarrierState} {a : State} {st : Nat → Nat → Status} (h : Sim c s a)
    (ha : Agrees c.shape a st) (hi : i < c.numCores) :
    Sim c (c.step s i) (a.step c.shape i) := by
  have h0 : 0 < c.shape.depth := Nat.succ_pos _
  have hpc := h.pc i hi
  generalize hx : s.pc i = x at hpc
  generalize hy : a.pos i = y at hpc
  cases hpc with
  | idle =>
      simp only [BarrierParams.step, State.step, hx, hy]
      exact ⟨forall_update h.pc .firstAdd i, h.tokens,
        forall_update (R := Eq) h.entered (by rw [h.entered i hi]) i, h.wakes, h.mem⟩
  | firstAdd =>
      have hsim := add_sim h ha hi h0 hy .firstStore .wfi
      rw [← firstIdx_eq hi, c.width_one, c.shape.width_zero] at hsim
      simp only [BarrierParams.step, hx]
      exact hsim
  | firstStore =>
      have hsim := store_sim h hi h0 hy (loopHead_sim h0)
      rw [← firstIdx_eq hi, c.width_one] at hsim
      simp only [BarrierParams.step, hx]
      exact hsim
  | loopAdd l hl =>
      have hmany : c.numCores / c.shape.width (l + 1) ≠ 1 := Nat.ne_of_gt (many hl)
      have hsim := add_sim h ha hi hl hy (.loopStore l hl) .wfi
      rw [← loopIdx_eq hl hi] at hsim
      simp only [BarrierParams.step, hx, BarrierParams.afterLoop, if_neg hmany]
      exact hsim
  | loopStore l hl =>
      have hsim := store_sim h hi hl hy (loopHead_sim hl)
      rw [← loopIdx_eq hl hi] at hsim
      have hshift : (c.numCores / c.shape.width (l + 1)) >>> c.radix
          = c.numCores / c.shape.width (l + 2) := by
        rw [Nat.shiftRight_eq_div_pow, Nat.div_div_eq_div_mul, c.width_succ]
      simp only [BarrierParams.step, hx, hshift]
      exact hsim
  | wakeUpAll =>
      simp only [BarrierParams.step, State.step, hx, hy, Nat.lt_irrefl, if_false]
      refine ⟨forall_update h.pc .wfi i, ?_, h.entered, by rw [h.wakes], h.mem⟩
      intro j hj
      show (if j < c.numCores then _ else _) = if j < c.shape.size then _ else _
      rw [c.size_eq, if_pos hj, if_pos hj, h.tokens j hj]
  | wfi =>
      simp only [BarrierParams.step, State.step, hx, hy, h.tokens i hi]
      split
      · exact ⟨forall_update h.pc .idle i, forall_update (R := Eq) h.tokens rfl i, h.entered,
          h.wakes, h.mem⟩
      · exact h

/-! ## Initialization -/

theorem initLogBarrier_keeps (p : BarrierParams) (mem : Nat → Nat) (i e : Nat) (h : mem e = 0) :
    p.initLogBarrier mem i e = 0 := by
  fun_induction BarrierParams.initLogBarrier p mem i with
  | case1 mem i _ ih =>
      refine ih ?_
      by_cases hei : e = i
      · rw [hei, Function.update_self]
      · rw [Function.update_of_ne hei, h]
  | case2 => exact h

theorem initLogBarrier_clears (p : BarrierParams) (hpos : 0 < p.numCores) (mem : Nat → Nat)
    (i : Nat) {e : Nat} (he : e < p.numCores * 4) (hie : i ≤ e)
    (hmod : e % p.numCores = i % p.numCores) : p.initLogBarrier mem i e = 0 := by
  fun_induction BarrierParams.initLogBarrier p mem i with
  | case1 mem i _ ih =>
      by_cases hei : e = i
      · rw [hei]
        exact initLogBarrier_keeps p _ _ _ (Function.update_self _ _ _)
      · -- the next element of the same core is at most `e`
        have hdiv : p.numCores ∣ e - i :=
          Nat.dvd_of_mod_eq_zero (Nat.sub_mod_eq_zero_of_mod_eq hmod)
        have := Nat.le_of_dvd (by omega) hdiv
        exact ih (by omega) (by rw [Nat.add_mod_right]; exact hmod)
  | case2 mem i hstop => exact absurd ⟨Nat.lt_of_le_of_lt hie he, hpos⟩ hstop

/-- In whatever order the cores clear their elements, all are cleared. -/
theorem init_zero (p : BarrierParams) (mem : Nat → Nat) {order : List Nat}
    (horder : ∀ i < p.numCores, i ∈ order) {e : Nat} (he : e < 4 * p.numCores) :
    order.foldl p.initLogBarrier mem e = 0 := by
  have hpos : 0 < p.numCores := by omega
  have hmem : e % p.numCores ∈ order := horder _ (Nat.mod_lt _ hpos)
  have hkeep : ∀ (l : List Nat) (mem : Nat → Nat), mem e = 0 →
      l.foldl p.initLogBarrier mem e = 0 := by
    intro l
    induction l with
    | nil => exact fun _ h => h
    | cons i l ih => exact fun mem h => ih _ (initLogBarrier_keeps p mem i e h)
  clear horder
  induction order generalizing mem with
  | nil => cases hmem
  | cons i l ih =>
      rcases List.mem_cons.mp hmem with hi | hl
      · refine hkeep l _ (initLogBarrier_clears p hpos mem i (by omega) ?_ ?_)
        · rw [← hi]
          exact Nat.mod_le _ _
        · rw [← hi, Nat.mod_mod]
      · exact ih _ hl

theorem start_sim (mem : Nat → Nat) {order : List Nat} (horder : ∀ i < c.numCores, i ∈ order) :
    Sim c (c.start mem order) .start where
  pc _ _ := .idle
  tokens _ _ := rfl
  entered _ _ := rfl
  wakes := rfl
  mem :=
    { count := fun l hl b hb => by
        have hlt := counterIdx_lt c.shape hl hb
        rw [c.size_eq] at hlt
        exact init_zero _ mem horder (by omega)
      rest := fun e he _ => init_zero _ mem horder he }

/-! ## The barrier -/

section Run

variable (mem : Nat → Nat) {order : List Nat} {sched : Nat → Nat}
  (horder : ∀ i < c.numCores, i ∈ order) (hsched : ∀ t, sched t < c.numCores)

include hsched in
theorem sched_size (t : Nat) : sched t < c.shape.size := by
  rw [c.size_eq]
  exact hsched t

include horder hsched in
theorem sim_after (t : Nat) :
    Sim c (c.after mem order sched t) (State.after c.shape sched t) ∧
    ∃ st, Agrees c.shape (State.after c.shape sched t) st := by
  have hagree := State.agrees_after (T := c.shape) (sched_size hsched)
  refine ⟨?_, hagree t⟩
  induction t with
  | zero => exact start_sim mem horder
  | succ t ih =>
      obtain ⟨st, ha⟩ := hagree t
      exact ih.step ha (hsched t)

include horder hsched in
theorem wakes_iff (t : Nat) :
    (c.after mem order sched t).pc (sched t) = .wakeUpAll ↔
      State.Wakes c.shape (State.after c.shape sched t) (sched t) := by
  obtain ⟨hsim, -⟩ := sim_after mem horder hsched t
  have hpc := hsim.pc (sched t) (hsched t)
  rw [State.Wakes]
  generalize (c.after mem order sched t).pc (sched t) = x at hpc ⊢
  generalize hy : (State.after c.shape sched t).pos (sched t) = y at hpc ⊢
  have hdepth : c.shape.depth = c.steps + 1 := rfl
  cases hpc with
  | firstAdd => simp [hdepth]
  | loopAdd l hl =>
      simp only [reduceCtorEq, Pos.climb.injEq, false_iff]
      omega
  | wakeUpAll => simp
  | idle => simp
  | firstStore => simp
  | loopStore l hl => simp
  | wfi => simp

/-- Every access is to the counter above the core's block, of the level that the
step says. -/
theorem access_eq {s : BarrierState} {a : State} (h : Sim c s a) (hi : i < c.numCores)
    {step e : Nat} (hacc : c.access s i = some (step, e)) :
    ∃ l < c.shape.depth, step = c.shape.width (l + 1) ∧
      e = counterIdx c.shape l (i / c.shape.width (l + 1)) := by
  have hpc := h.pc i hi
  rw [BarrierParams.access] at hacc
  generalize s.pc i = x at hpc hacc
  generalize a.pos i = y at hpc
  cases hpc with
  | idle => cases hacc
  | firstAdd =>
      cases hacc
      exact ⟨0, Nat.succ_pos _, c.width_one.symm, firstIdx_eq hi⟩
  | firstStore =>
      cases hacc
      exact ⟨0, Nat.succ_pos _, c.width_one.symm, firstIdx_eq hi⟩
  | loopAdd l hl =>
      cases hacc
      exact ⟨l + 1, hl, rfl, loopIdx_eq hl hi⟩
  | loopStore l hl =>
      cases hacc
      exact ⟨l + 1, hl, rfl, loopIdx_eq hl hi⟩
  | wakeUpAll => cases hacc
  | wfi => cases hacc

end Run

end BarrierConfig

/-- The barrier, from initialization on and for any interleaving of the cores.
When `wake_up_all` is called, all cores have entered the episode and the array is
all zeros; no episode has two calls, and each has one if every core keeps moving;
a core that is outside has left exactly the episodes that were woken. All elements
accessed are in the array, and one element serves one block of one step. -/
theorem anyradixlog_barrier (c : BarrierConfig) (mem : Nat → Nat) (order : List Nat)
    (sched : Nat → Nat) (horder : ∀ i < c.numCores, i ∈ order)
    (hsched : ∀ t, sched t < c.numCores) :
    (∀ t, (c.after mem order sched t).pc (sched t) = .wakeUpAll →
      (∀ i < c.numCores, (c.after mem order sched t).entered i
        = (c.after mem order sched t).wakes + 1) ∧
      ∀ e < 4 * c.numCores, (c.after mem order sched t).logBarrier e = 0) ∧
    (∀ t u, (c.after mem order sched t).pc (sched t) = .wakeUpAll →
      (c.after mem order sched u).pc (sched u) = .wakeUpAll →
      (c.after mem order sched t).entered (sched t)
        = (c.after mem order sched u).entered (sched u) → t = u) ∧
    ((∀ i < c.numCores, ∀ t, ∃ u, t ≤ u ∧ sched u = i) →
      ∀ e, ∃ t, (c.after mem order sched t).pc (sched t) = .wakeUpAll ∧
        (c.after mem order sched t).entered (sched t) = e + 1) ∧
    (∀ t, ∀ i < c.numCores, (c.after mem order sched t).pc i = .idle →
      (c.after mem order sched t).entered i = (c.after mem order sched t).wakes) ∧
    (∀ t, ∀ i < c.numCores, ∀ step e,
      c.access (c.after mem order sched t) i = some (step, e) → e < 4 * c.numCores) ∧
    (∀ t u, ∀ i < c.numCores, ∀ j < c.numCores, ∀ step step' e,
      c.access (c.after mem order sched t) i = some (step, e) →
      c.access (c.after mem order sched u) j = some (step', e) →
      step = step' ∧ i / step = j / step') := by
  have hsize := BarrierConfig.sched_size hsched
  have hsim := BarrierConfig.sim_after mem horder hsched
  have hiff := BarrierConfig.wakes_iff mem horder hsched
  have hlt : ∀ {i}, i < c.numCores → i < c.shape.size := fun hi => by rw [c.size_eq]; exact hi
  have hepisode : ∀ t, (c.after mem order sched t).pc (sched t) = .wakeUpAll →
      (∀ i < c.numCores, (c.after mem order sched t).entered i
        = (c.after mem order sched t).wakes + 1) ∧
      ∀ e < 4 * c.numCores, (c.after mem order sched t).logBarrier e = 0 := by
    intro t hw
    obtain ⟨h, hagree⟩ := hsim t
    obtain ⟨hent, hzero⟩ := State.Wakes.spec hagree (hsize t) ((hiff t).mp hw)
    refine ⟨fun i hi => ?_, fun e => h.mem.zero hzero⟩
    rw [h.entered i hi, h.wakes]
    exact hent i (hlt hi)
  refine ⟨hepisode, ?_, ?_, ?_, ?_, ?_⟩
  · intro t u ht hu htu
    rw [(hepisode t ht).1 _ (hsched t), (hepisode u hu).1 _ (hsched u), (hsim t).1.wakes,
      (hsim u).1.wakes] at htu
    exact State.wakes_unique hsize ((hiff t).mp ht) ((hiff u).mp hu) (by omega)
  · intro hfair e
    obtain ⟨t, hw, hwakes⟩ := State.episode_wakes hsize
      (fun i hi => hfair i (by rw [← c.size_eq]; exact hi)) e
    have hw' := (hiff t).mpr hw
    refine ⟨t, hw', ?_⟩
    rw [(hepisode t hw').1 _ (hsched t), (hsim t).1.wakes, hwakes]
  · intro t i hi hidle
    obtain ⟨h, st, hagree⟩ := hsim t
    have hpc := h.pc i hi
    rw [hidle] at hpc
    have hpos : (State.after c.shape sched t).pos i = .idle := by
      generalize (State.after c.shape sched t).pos i = y at hpc ⊢
      cases hpc
      rfl
    rw [h.entered i hi, h.wakes, hagree.entered i (hlt hi),
      if_pos ((hagree.out i (hlt hi)).mp (.inl hpos))]
  · intro t i hi step e hacc
    obtain ⟨l, hl, -, rfl⟩ := BarrierConfig.access_eq (hsim t).1 hi hacc
    have := counterIdx_lt c.shape hl (c.shape.isBlock_core (hlt hi))
    rw [c.size_eq] at this
    omega
  · intro t u i hi j hj step step' e hacc hacc'
    obtain ⟨l, hl, rfl, he⟩ := BarrierConfig.access_eq (hsim t).1 hi hacc
    obtain ⟨m, hm, rfl, he'⟩ := BarrierConfig.access_eq (hsim u).1 hj hacc'
    obtain ⟨rfl, hb⟩ := counterIdx_inj c.shape hl hm (he.symm.trans he')
    exact ⟨rfl, hb⟩

/-- A first step over two cores, then one over all eight. -/
def eightCores : BarrierConfig where
  numCores := 8
  radix := 2
  logCores := 3
  numCores_eq := by decide
  logCores_pos := by decide
  fits := by decide
  radix_pos := by decide

/-- The cores take turns. -/
def takeTurns (t : Nat) : Nat := t % 8

theorem anyradixlog_barrier_takeTurns :
    (∀ i < eightCores.numCores, i ∈ List.range 8) ∧
    (∀ i < eightCores.numCores, ∀ t, ∃ u, t ≤ u ∧ takeTurns u = i) ∧
    ∀ e, ∃ t, (eightCores.after (fun _ => 7) (List.range 8) takeTurns t).pc (takeTurns t)
      = .wakeUpAll ∧
      (eightCores.after (fun _ => 7) (List.range 8) takeTurns t).entered (takeTurns t) = e + 1 := by
  have horder : ∀ i < eightCores.numCores, i ∈ List.range 8 := fun i hi => List.mem_range.mpr hi
  have hfair : ∀ i < eightCores.numCores, ∀ t, ∃ u, t ≤ u ∧ takeTurns u = i := by
    intro i hi t
    refine ⟨8 * t + i, by omega, ?_⟩
    rw [takeTurns, Nat.mul_add_mod]
    exact Nat.mod_eq_of_lt hi
  refine ⟨horder, hfair, ?_⟩
  exact (anyradixlog_barrier eightCores (fun _ => 7) (List.range 8) takeTurns horder
    fun t => Nat.mod_lt t (by decide)).2.2.1 hfair

end TeraNoC.Runtime
