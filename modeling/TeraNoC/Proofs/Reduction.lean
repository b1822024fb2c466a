import Mathlib.Algebra.BigOperators.Group.List.Basic
import Mathlib.Algebra.Order.Ring.Nat
import Mathlib.Order.Monotone.Basic
import TeraNoC.Kernels.Reduction
import TeraNoC.Lib.CombiningTree

/-!
# The binary reduction is exact

The counters are those of a combining tree in which every block has two halves. Of the two
cores that add to a counter the second one adds up the sums of the halves, so that the
word of a block's first core holds the sum of the block as soon as somebody stands for it
(`Values`). A word belongs to one block at a time: the largest that has been gathered
around its core, or the left half of the one that is being added up.
-/

namespace TeraNoC.Kernels

open TeraNoC.Lib TeraNoC.Lib.CombiningTree TeraNoC.Runtime

/-- A power of two of cores. The arrays `sum` and `red_barrier` have a word for every bank
and are in the address space. -/
structure ReductionConfig extends ReductionParams where
  logCores : Nat
  numCores_eq : numCores = 2 ^ logCores
  bankingFactor_pos : 1 ≤ bankingFactor
  fits : numCores * bankingFactor ≤ 2 ^ 30

namespace ReductionConfig

variable (c : ReductionConfig)

/-- The tree of halves. -/
def shape : Shape where
  width l := 2 ^ l
  depth := c.logCores
  width_zero := rfl
  width_dvd l _ := Nat.pow_dvd_pow 2 (Nat.le_succ l)
  width_lt l _ := Nat.pow_lt_pow_right (by omega) (Nat.lt_succ_self l)

theorem size_eq : c.shape.size = c.numCores := c.numCores_eq.symm

theorem arity_eq (l : Nat) : c.shape.arity l = 2 := by
  have hpow : 2 ^ (l + 1) = 2 * 2 ^ l := by rw [Nat.pow_succ, Nat.mul_comm]
  exact (congrArg (· / 2 ^ l) hpow).trans (Nat.mul_div_cancel 2 (Nat.two_pow_pos l))

variable {c} {i l m b b' : Nat}

/-! ## The words -/

/-- The word of a block's first core. -/
def word (c : ReductionConfig) (l b : Nat) : Nat := b * 2 ^ l * c.bankingFactor

theorem word_lt (hb : c.shape.IsBlock l b) : c.word l b < 2 ^ 30 := by
  have hb : b * 2 ^ l < c.numCores := Nat.lt_of_lt_of_eq hb c.size_eq
  have hbf := c.bankingFactor_pos
  exact (Nat.mul_lt_mul_of_pos_right hb hbf).trans_le c.fits

/-- Blocks with the same word have the same first core. -/
theorem word_inj (h : c.word l b = c.word m b') : b * 2 ^ l = b' * 2 ^ m :=
  Nat.eq_of_mul_eq_mul_right c.bankingFactor_pos h

/-- Two blocks have a common word only if one is part of the other, and then it is the accumulator
of the smaller one. -/
theorem shared_word {l m k k' : Nat} (hlm : l ≤ m) (h : c.word l k = c.word m k') :
    k / 2 / 2 ^ (m - l) = k' / 2 ∧
      (l < m → c.word l k = k / 2 * 2 ^ (l + 1) * c.bankingFactor) := by
  obtain ⟨d, rfl⟩ := Nat.exists_eq_add_of_le hlm
  have hk : k = k' * 2 ^ d := by
    refine Nat.eq_of_mul_eq_mul_right (Nat.two_pow_pos l) ((word_inj h).trans ?_)
    rw [Nat.mul_assoc, ← Nat.pow_add, Nat.add_comm d]
  constructor
  · rw [Nat.add_sub_cancel_left, Nat.div_div_eq_div_mul, hk]
    exact Nat.mul_div_mul_right k' 2 (Nat.two_pow_pos d)
  · intro hlt
    obtain ⟨d', rfl⟩ : ∃ d', d = d' + 1 := ⟨d - 1, by omega⟩
    have hhalf : k = k' * 2 ^ d' * 2 := by rw [hk, Nat.pow_succ, Nat.mul_assoc]
    rw [word, Nat.pow_succ', ← Nat.mul_assoc]
    congr 2
    omega

theorem first_div (l b : Nat) : b * 2 ^ l / 2 ^ l = b := Nat.mul_div_cancel b (Nat.two_pow_pos l)

theorem word_left (l b : Nat) : c.word (l + 1) b = c.word l (2 * b) := by
  rw [word, word, Nat.pow_succ]
  congr 1
  ring

theorem numCores_le : c.numCores ≤ 2 ^ 30 :=
  (Nat.le_mul_of_pos_right _ c.bankingFactor_pos).trans c.fits

theorem idx_eq (hi : i < c.numCores) (l : Nat) :
    c.idx (2 ^ l) i = c.word l (i / 2 ^ l) := by
  have hlt := word_lt (c.shape.isBlock_core (l := l) (Nat.lt_of_lt_of_eq hi c.size_eq.symm))
  have hle : i / 2 ^ l * 2 ^ l ≤ i := Nat.div_mul_le_self i (2 ^ l)
  have hn := c.numCores_le
  rw [ReductionParams.idx, Nat.mul_comm (2 ^ l), u32_eq (show i / 2 ^ l * 2 ^ l < 2 ^ 32 by omega)]
  exact u32_eq (hlt.trans (by decide))

theorem isBlock_right (hl : l < c.logCores) (hb : c.shape.IsBlock (l + 1) b) :
    c.shape.IsBlock l (2 * b + 1) := by
  have hchild := c.shape.isBlock_child hl hb (j := 1) (by rw [c.arity_eq]; decide)
  rwa [c.arity_eq, Nat.mul_comm b] at hchild

theorem isBlock_left (hl : l < c.logCores) (hb : c.shape.IsBlock (l + 1) b) :
    c.shape.IsBlock l (2 * b) := by
  have hchild := c.shape.isBlock_child hl hb (j := 0) (by rw [c.arity_eq]; decide)
  rwa [c.arity_eq, Nat.mul_comm b] at hchild

theorem nextIdx_eq (hi : i < c.numCores) (hl : l < c.logCores) :
    c.nextIdx (2 ^ l) (2 ^ (l + 1)) i = c.word l (2 * (i / 2 ^ (l + 1)) + 1) := by
  have hblock := c.shape.isBlock_core (l := l + 1) (Nat.lt_of_lt_of_eq hi c.size_eq.symm)
  have hlt := word_lt (isBlock_right hl hblock)
  have hsum : c.word (l + 1) (i / 2 ^ (l + 1)) + 2 ^ l * c.bankingFactor =
      c.word l (2 * (i / 2 ^ (l + 1)) + 1) := by
    rw [word_left, word, word]
    ring
  change c.word l (2 * (i / 2 ^ (l + 1)) + 1) < _ at hlt
  rw [ReductionParams.nextIdx, idx_eq hi, u32_eq (show 2 ^ l * c.bankingFactor < 2 ^ 32 by omega),
    hsum, u32_eq (by omega)]

/-! ## The counters -/

/-- The element of `red_barrier` that counts the halves of block `b` of level `l + 1`. -/
def counterIdx (c : ReductionConfig) (l b : Nat) : Nat := c.word (l + 1) b + 2 ^ l - 1

theorem counterIdx_succ (l b : Nat) :
    c.counterIdx l b + 1 = 2 ^ l * (2 * (b * c.bankingFactor) + 1) := by
  have hpos := Nat.two_pow_pos l
  rw [counterIdx, Nat.sub_add_cancel (by omega), word, Nat.pow_succ]
  ring

theorem counterIdx_lt (hl : l < c.logCores) (hb : c.shape.IsBlock (l + 1) b) :
    c.counterIdx l b < c.numCores * c.bankingFactor := by
  have hend : (b + 1) * 2 ^ (l + 1) ≤ c.numCores :=
    (c.shape.isBlock_end (show l + 1 ≤ c.logCores from hl) hb).trans_eq c.size_eq
  have hmul := Nat.mul_le_mul_right c.bankingFactor hend
  have hhalf : 2 ^ l * 1 ≤ 2 ^ (l + 1) * c.bankingFactor :=
    Nat.mul_le_mul (Nat.pow_le_pow_right (by decide) (Nat.le_succ l)) c.bankingFactor_pos
  have hpos := Nat.two_pow_pos l
  rw [Nat.succ_mul, Nat.add_mul] at hmul
  rw [counterIdx, word]
  omega

theorem counterIdx_level (h : c.counterIdx l b = c.counterIdx m b') : ¬ l < m := by
  intro hlm
  obtain ⟨d, rfl⟩ : ∃ d, m = l + d + 1 := ⟨m - l - 1, by omega⟩
  -- an odd number is not the double of anything
  have heq := congrArg (· + 1) h
  rw [counterIdx_succ, counterIdx_succ, Nat.add_assoc, Nat.pow_add, Nat.mul_assoc] at heq
  have hodd := Nat.eq_of_mul_eq_mul_left (Nat.two_pow_pos l) heq
  rw [Nat.pow_succ, Nat.mul_comm (2 ^ d), Nat.mul_assoc] at hodd
  omega

theorem counterIdx_inj (h : c.counterIdx l b = c.counterIdx m b') : l = m ∧ b = b' := by
  have hlm := counterIdx_level h
  have hml := counterIdx_level h.symm
  obtain rfl : l = m := by omega
  have heq := congrArg (· + 1) h
  rw [counterIdx_succ, counterIdx_succ] at heq
  have hodd := Nat.eq_of_mul_eq_mul_left (Nat.two_pow_pos l) heq
  exact ⟨rfl, Nat.eq_of_mul_eq_mul_right c.bankingFactor_pos (by omega)⟩

theorem counter_eq (hi : i < c.numCores) (hl : l < c.logCores) :
    c.counter (2 ^ l) (2 ^ (l + 1)) i = c.counterIdx l (i / 2 ^ (l + 1)) := by
  have hblock := c.shape.isBlock_core (l := l + 1) (Nat.lt_of_lt_of_eq hi c.size_eq.symm)
  have hlt := counterIdx_lt hl hblock
  have hfits := c.fits
  have hpos := Nat.two_pow_pos l
  change c.counterIdx l (i / 2 ^ (l + 1)) < _ at hlt
  rw [counterIdx] at hlt
  rw [ReductionParams.counter, idx_eq hi, counterIdx, u32_eq (by omega),
    sub32_eq (by omega) (by omega)]

/-! ## The machine and the tree -/

/-- Where a core is in the tree. -/
inductive PcSim (c : ReductionConfig) : ReductionPc → Pos → Prop where
  | store : PcSim c .store .idle
  | add (l : Nat) (hl : l < c.logCores) :
      PcSim c (.add (2 ^ (c.logCores - l)) (2 ^ l) (2 ^ (l + 1))) (.climb l)
  | load (l : Nat) (hl : l < c.logCores) :
      PcSim c (.load (2 ^ (c.logCores - l)) (2 ^ l) (2 ^ (l + 1))) (.clear l)
  | loadNext (l : Nat) (hl : l < c.logCores) (value : Int32) :
      PcSim c (.loadNext (2 ^ (c.logCores - l)) (2 ^ l) (2 ^ (l + 1)) value) (.clear l)
  | write (l : Nat) (hl : l < c.logCores) (value : Int32) :
      PcSim c (.write (2 ^ (c.logCores - l)) (2 ^ l) (2 ^ (l + 1)) value) (.clear l)
  | clear (l : Nat) (hl : l < c.logCores) :
      PcSim c (.clear (2 ^ (c.logCores - l)) (2 ^ l) (2 ^ (l + 1))) (.clear l)
  | wakeUpAll : PcSim c .wakeUpAll (.climb c.logCores)
  | wfi : PcSim c .wfi .wfi
  | done : PcSim c .done .idle

theorem loopHead_sim (hl : l ≤ c.logCores) :
    PcSim c (ReductionParams.loopHead (2 ^ (c.logCores - l)) (2 ^ l) (u32 (2 ^ l * 2)))
      (.climb l) := by
  rcases Nat.lt_or_eq_of_le hl with hlt | rfl
  · have hmany : 1 < 2 ^ (c.logCores - l) := Nat.one_lt_two_pow (by omega)
    have hstep : 2 ^ (l + 1) ≤ c.numCores := by
      rw [c.numCores_eq]
      exact Nat.pow_le_pow_right (by decide) hlt
    have hn := c.numCores_le
    rw [ReductionParams.loopHead, if_pos hmany, ← Nat.pow_succ, u32_eq (by omega)]
    exact .add l hlt
  · rw [Nat.sub_self]
    exact .wakeUpAll

/-- The level can be read off the step. -/
theorem level_of_clear {n q : Nat} {y : Pos} (h : PcSim c (.clear n (2 ^ l) q) y) :
    y = .clear l := by
  generalize hp : 2 ^ l = p at h
  cases h with
  | clear k hk => rw [Nat.pow_right_injective (Nat.le_refl 2) hp]

theorem afterLoop_eq (hl : l < c.logCores) :
    ReductionParams.afterLoop (2 ^ (c.logCores - l)) = .wfi :=
  if_neg (Nat.one_lt_two_pow (by omega)).ne'

theorem half_pow (hl : l < c.logCores) :
    2 ^ (c.logCores - l) / 2 = 2 ^ (c.logCores - (l + 1)) := by
  obtain ⟨n, hn⟩ : ∃ n, c.logCores - l = n + 1 := ⟨c.logCores - l - 1, by omega⟩
  rw [hn, Nat.pow_succ, Nat.mul_div_cancel _ (by decide)]
  congr 1
  omega

/-- The sum of the partial sums of a block. -/
def blockSum (partials : Nat → Int32) (l b : Nat) : Int32 :=
  ((List.range' (b * 2 ^ l) (2 ^ l)).map partials).sum

theorem blockSum_zero (partials : Nat → Int32) (b : Nat) :
    blockSum partials 0 b = partials b := by
  rw [blockSum, Nat.pow_zero, Nat.mul_one]
  exact List.sum_singleton

theorem blockSum_succ (partials : Nat → Int32) (l b : Nat) :
    blockSum partials (l + 1) b =
      blockSum partials l (2 * b) + blockSum partials l (2 * b + 1) := by
  have hfirst : 2 * b * 2 ^ l = b * 2 ^ (l + 1) := by ring
  have hnext : (2 * b + 1) * 2 ^ l = b * 2 ^ (l + 1) + 2 ^ l := by ring
  have hwidth : 2 ^ (l + 1) = 2 ^ l + 2 ^ l := by ring
  rw [blockSum, blockSum, blockSum, hfirst, hnext, ← List.sum_append, ← List.map_append,
    List.range'_append_1, ← hwidth]

/-- A block that has been gathered while the block above has not. -/
def Live (c : ReductionConfig) (st : Nat → Nat → Status) (l b : Nat) : Prop :=
  l ≤ c.logCores ∧ c.shape.IsBlock l b ∧ st l b ≠ .gathering ∧
    (l < c.logCores → st (l + 1) (b / 2) = .gathering)

/-- A core has stored the sum of the block above, and has not cleared the counter yet. -/
def Stored (c : ReductionConfig) (s : ReductionState) (l b : Nat) : Prop :=
  ∃ i < c.numCores, ∃ n, s.pc i = .clear n (2 ^ l) (2 ^ (l + 1)) ∧ i / 2 ^ (l + 1) = b

structure Values (c : ReductionConfig) (partials : Nat → Int32) (s : ReductionState)
    (st : Nat → Nat → Status) : Prop where
  live : ∀ l b, c.Live st l b → ¬ c.Stored s l (b / 2) →
    s.sum (c.word l b) = blockSum partials l b
  loadNext : ∀ i < c.numCores, ∀ l n value,
    s.pc i = .loadNext n (2 ^ l) (2 ^ (l + 1)) value →
      value = blockSum partials l (2 * (i / 2 ^ (l + 1)))
  write : ∀ i < c.numCores, ∀ l n value, s.pc i = .write n (2 ^ l) (2 ^ (l + 1)) value →
    value = blockSum partials (l + 1) (i / 2 ^ (l + 1))
  stored : ∀ l b, c.Stored s l b → s.sum (c.word (l + 1) b) = blockSum partials (l + 1) b
  woken : 0 < s.wakes → s.sum 0 = blockSum partials c.logCores 0

/-- The state of the tree that the state of the program is in. -/
structure Sim (c : ReductionConfig) (s : ReductionState) (a : State) : Prop where
  pc : ∀ i < c.numCores, PcSim c (s.pc i) (a.pos i)
  tokens : ∀ i < c.numCores, s.tokens i = a.tokens i
  entered : ∀ i < c.numCores, a.entered i = if s.pc i = .store then 0 else 1
  wakes : s.wakes = a.wakes
  count : ∀ l < c.logCores, ∀ b, c.shape.IsBlock (l + 1) b →
    s.redBarrier (c.counterIdx l b) * 2 ^ l = a.count l b
  rest : ∀ e < c.numCores * c.bankingFactor,
    (∀ l < c.logCores, ∀ b, c.shape.IsBlock (l + 1) b → e ≠ c.counterIdx l b) →
      s.redBarrier e = 0

section Step

variable {s : ReductionState} {a : State} {st : Nat → Nat → Status} {partials : Nat → Int32}
  {x : ReductionPc} {y : Pos}

theorem store_update (hs : s.pc i ≠ .store) (hx : x ≠ .store) (j : Nat) :
    (if Function.update s.pc i x j = .store then 0 else 1) = if s.pc j = .store then 0 else 1 := by
  by_cases hji : j = i
  · rw [hji, Function.update_self, if_neg hs, if_neg hx]
  · rw [Function.update_of_ne hji]

theorem size_of_core (hi : i < c.numCores) : i < c.shape.size :=
    Nat.lt_of_lt_of_eq hi c.size_eq.symm

/-- The tree does not see what a core does between the counter and its clearing. -/
theorem Sim.stay (h : Sim c s a) (hx : PcSim c x (a.pos i)) (hs : s.pc i ≠ .store)
    (hne : x ≠ .store) (sum : Nat → Int32) :
    Sim c { s with pc := Function.update s.pc i x, sum := sum } a where
  pc := by
    have hpc := forall_update h.pc hx i
    rwa [Function.update_eq_self] at hpc
  tokens := h.tokens
  entered j hj := (h.entered j hj).trans (store_update hs hne j).symm
  wakes := h.wakes
  count := h.count
  rest := h.rest

theorem Sim.store (h : Sim c s a) (hi : i < c.numCores) (hpc : s.pc i = .store)
    (hpos : a.pos i = .idle) : Sim c (c.step partials s i) (a.step c.shape i) := by
  have hstep : a.step c.shape i = { a with
      pos := Function.update a.pos i (.climb 0)
      entered := Function.update a.entered i (a.entered i + 1) } := by
    simp only [State.step, hpos]
  have hnext := loopHead_sim (c := c) (Nat.zero_le c.logCores)
  rw [Nat.sub_zero, ← c.numCores_eq] at hnext
  have hne : ReductionParams.loopHead c.numCores 1 2 ≠ .store := by
    rw [ReductionParams.loopHead, ReductionParams.afterLoop]
    split
    · exact fun h => by cases h
    · split <;> exact fun h => by cases h
  simp only [ReductionParams.step, hpc, hstep]
  refine ⟨forall_update h.pc hnext i, h.tokens, fun j hj => ?_, h.wakes, h.count, h.rest⟩
  change Function.update a.entered i (a.entered i + 1) j =
    if Function.update s.pc i _ j = .store then 0 else 1
  by_cases hji : j = i
  · rw [hji, Function.update_self, Function.update_self, if_neg hne, h.entered i hi, if_pos hpc]
  · rw [Function.update_of_ne hji, Function.update_of_ne hji, h.entered j hj]

/-- The other counters are as before. -/
theorem Sim.counters (h : Sim c s a) (hl : l < c.logCores) (hb : c.shape.IsBlock (l + 1) b)
    {v w : Nat} (hvw : v * 2 ^ l = w) :
    (∀ k < c.logCores, ∀ d, c.shape.IsBlock (k + 1) d →
      Function.update s.redBarrier (c.counterIdx l b) v (c.counterIdx k d) * 2 ^ k =
        set2 a.count l b w k d) ∧
    ∀ e < c.numCores * c.bankingFactor,
      (∀ k < c.logCores, ∀ d, c.shape.IsBlock (k + 1) d → e ≠ c.counterIdx k d) →
        Function.update s.redBarrier (c.counterIdx l b) v e = 0 := by
  constructor
  · intro k hk d hd
    by_cases hkd : k = l ∧ d = b
    · rw [hkd.1, hkd.2, Function.update_self, set2_same, hvw]
    · have hne : c.counterIdx k d ≠ c.counterIdx l b := fun heq => hkd (counterIdx_inj heq)
      rw [Function.update_of_ne hne, set2_of_ne _ _ hkd, h.count k hk d hd]
  · intro e he hno
    rw [Function.update_of_ne (hno l hl b hb), h.rest e he hno]

theorem Sim.add (h : Sim c s a) (ha : Agrees c.shape a st) (hi : i < c.numCores)
    (hl : l < c.logCores) (hpos : a.pos i = .climb l)
    (hpc : s.pc i = .add (2 ^ (c.logCores - l)) (2 ^ l) (2 ^ (l + 1))) :
    Sim c (c.step partials s i) (a.step c.shape i) := by
  have hblock : c.shape.IsBlock (l + 1) (i / 2 ^ (l + 1)) := c.shape.isBlock_core (size_of_core hi)
  have hroom : a.count l (i / 2 ^ (l + 1)) + 2 ^ l ≤ 2 ^ (l + 1) :=
    ha.count_room (size_of_core hi) hl hpos
  have hcount := h.count l hl _ hblock
  have hpow : 2 ^ (l + 1) = 2 ^ l * 2 := Nat.pow_succ 2 l
  have hpos2 := Nat.two_pow_pos l
  have hstep : a.step c.shape i = { a with
      count := set2 a.count l (i / 2 ^ (l + 1)) (a.count l (i / 2 ^ (l + 1)) + 2 ^ l)
      pos := Function.update a.pos i
        (if a.count l (i / 2 ^ (l + 1)) = 2 ^ (l + 1) - 2 ^ l then .clear l else .wfi) } := by
    have hl' : l < c.shape.depth := hl
    simp only [State.step, hpos, if_pos hl']
    rfl
  simp only [ReductionParams.step, hpc, counter_eq hi hl, hstep, afterLoop_eq hl]
  generalize hold : s.redBarrier (c.counterIdx l (i / 2 ^ (l + 1))) = old at hcount
  rw [← hcount] at hroom ⊢
  have hle : old ≤ 1 := by
    by_contra hlt
    have := Nat.mul_le_mul_right (2 ^ l) (show 2 ≤ old by omega)
    omega
  have hadd : u32 (old + 1) * 2 ^ l = old * 2 ^ l + 2 ^ l := by
    rw [u32_eq (by omega), Nat.succ_mul]
  obtain ⟨hcounters, hrest⟩ := h.counters hl hblock hadd
  have hlast : old ≠ 0 ↔ old * 2 ^ l = 2 ^ (l + 1) - 2 ^ l := by
    rcases Nat.le_one_iff_eq_zero_or_eq_one.mp hle with rfl | rfl <;> omega
  refine ⟨forall_update h.pc ?_ i, h.tokens, fun j hj => ?_, h.wakes, hcounters, hrest⟩
  · by_cases hz : old ≠ 0
    · rw [if_pos hz, if_pos (hlast.mp hz)]
      exact .load l hl
    · rw [if_neg hz, if_neg fun heq => hz (hlast.mpr heq)]
      exact .wfi
  · refine (h.entered j hj).trans (store_update ?_ ?_ j).symm
    · rw [hpc]
      exact fun h => by cases h
    · split <;> exact fun h => by cases h

theorem Sim.clear (h : Sim c s a) (hi : i < c.numCores) (hl : l < c.logCores)
    (hpos : a.pos i = .clear l)
    (hpc : s.pc i = .clear (2 ^ (c.logCores - l)) (2 ^ l) (2 ^ (l + 1))) :
    Sim c (c.step partials s i) (a.step c.shape i) := by
  have hblock : c.shape.IsBlock (l + 1) (i / 2 ^ (l + 1)) := c.shape.isBlock_core (size_of_core hi)
  have hstep : a.step c.shape i = { a with
      count := set2 a.count l (i / 2 ^ (l + 1)) 0
      pos := Function.update a.pos i (.climb (l + 1)) } := by
    simp only [State.step, hpos]
    rfl
  have hhalf := half_pow hl
  obtain ⟨hcounters, hrest⟩ := h.counters hl hblock (Nat.zero_mul (2 ^ l))
  simp only [ReductionParams.step, hpc, counter_eq hi hl, hstep, hhalf]
  refine ⟨forall_update h.pc (loopHead_sim hl) i, h.tokens, fun j hj => ?_, h.wakes, hcounters,
    hrest⟩
  refine (h.entered j hj).trans (store_update ?_ ?_ j).symm
  · rw [hpc]
    exact fun h => by cases h
  · rw [ReductionParams.loopHead, ReductionParams.afterLoop]
    split
    · exact fun h => by cases h
    · split <;> exact fun h => by cases h

end Step

/-! ## The sums -/

section Sums

variable {s s' : ReductionState} {a : State} {st st' : Nat → Nat → Status}
  {partials : Nat → Int32} {x : ReductionPc}

structure Inv (c : ReductionConfig) (partials : Nat → Int32) (s : ReductionState) (a : State)
    (st : Nat → Nat → Status) : Prop where
  sim : c.Sim s a
  agrees : Agrees c.shape a st
  values : c.Values partials s st

theorem Live.above (h : c.Live st l b) (hl : l < c.logCores) : st (l + 1) (b / 2) = .gathering :=
  h.2.2.2 hl

/-- Blocks that are live have different words. -/
theorem Live.unique (h : c.Live st l b) (h' : c.Live st m b') (ha : Agrees c.shape a st)
    (hword : c.word l b = c.word m b') : l = m ∧ b = b' := by
  obtain ⟨hl, -, hst, habove⟩ := h
  obtain ⟨hm, -, hst', habove'⟩ := h'
  have hfirst := word_inj hword
  have hup : ∀ k d : Nat, d * 2 ^ k / 2 ^ (k + 1) = d / 2 := by
    intro k d
    rw [Nat.pow_succ, ← Nat.div_div_eq_div_mul, first_div]
  have hb : b * 2 ^ l / 2 ^ l = b := first_div l b
  have hb' : b * 2 ^ l / 2 ^ m = b' := by rw [hfirst, first_div]
  have hlm : l = m := ha.live_unique (c := b * 2 ^ l) hl hm
    (by change st l (b * 2 ^ l / 2 ^ l) ≠ _; rw [hb]; exact hst)
    (fun hlt => by
      change st (l + 1) (b * 2 ^ l / 2 ^ (l + 1)) = _
      rw [hup]
      exact habove hlt)
    (by change st m (b * 2 ^ l / 2 ^ m) ≠ _; rw [hb']; exact hst')
    (fun hlt => by
      change st (m + 1) (b * 2 ^ l / 2 ^ (m + 1)) = _
      rw [hfirst, hup]
      exact habove' hlt)
  refine ⟨hlm, ?_⟩
  rw [← hb, ← hb', hlm]

/-- A block is live around its core only. -/
theorem Live.core (h : c.Live st l b) (ha : Agrees c.shape a st) (hi : st 0 i = .gathering) :
    b * 2 ^ l ≠ i := by
  rintro rfl
  obtain ⟨hl, -, hst, -⟩ := h
  rcases Nat.eq_zero_or_pos l with rfl | hpos
  · rw [Nat.pow_zero, Nat.mul_one] at hi
    exact hst hi
  · have hdel := ha.delivered_within (c := b * 2 ^ l) hpos hl
      (by change st l (b * 2 ^ l / 2 ^ l) ≠ _; rw [first_div]; exact hst)
    change st 0 (b * 2 ^ l / 2 ^ 0) = _ at hdel
    rw [Nat.pow_zero, Nat.div_one, hi] at hdel
    cases hdel

/-- The halves of a block whose counter is full. -/
theorem halves_live (ha : Agrees c.shape a st) (hi : i < c.numCores) (hpos : a.pos i = .clear l) :
    l < c.logCores ∧ c.Live st l (2 * (i / 2 ^ (l + 1))) ∧
      c.Live st l (2 * (i / 2 ^ (l + 1)) + 1) := by
  obtain ⟨hl, hfull, hgat⟩ := ha.clear i (size_of_core hi) l hpos
  have hblock : c.shape.IsBlock (l + 1) (i / 2 ^ (l + 1)) := c.shape.isBlock_core (size_of_core hi)
  change st (l + 1) (i / 2 ^ (l + 1)) = _ at hgat
  change Full c.shape st l (i / 2 ^ (l + 1)) at hfull
  have hhalf : ∀ j < 2, st l (2 * (i / 2 ^ (l + 1)) + j) = .delivered := by
    intro j hj
    have hchild := hfull j (by rw [c.arity_eq]; exact hj)
    rwa [c.arity_eq, Nat.mul_comm (i / 2 ^ (l + 1))] at hchild
  have hne : ∀ j < 2, st l (2 * (i / 2 ^ (l + 1)) + j) ≠ .gathering := by
    intro j hj
    rw [hhalf j hj]
    exact fun h => by cases h
  refine ⟨hl, ⟨Nat.le_of_lt hl, isBlock_left hl hblock, hne 0 (by decide), fun _ => ?_⟩,
    ⟨Nat.le_of_lt hl, isBlock_right hl hblock, hne 1 (by decide), fun _ => ?_⟩⟩
  · rw [Nat.mul_div_cancel_left _ (by decide)]
    exact hgat
  · rw [show (2 * (i / 2 ^ (l + 1)) + 1) / 2 = i / 2 ^ (l + 1) by omega]
    exact hgat

/-- What a core is doing between the counter and its clearing. -/
def ReductionPc.Calm : ReductionPc → Prop
  | .loadNext .. | .write .. | .clear .. => False
  | _ => True

theorem Stored.of_update (hpc : s'.pc = Function.update s.pc i x)
    (hx : ∀ n p q, x ≠ .clear n p q) (h : c.Stored s' l b) : c.Stored s l b := by
  obtain ⟨j, hj, n, hclear, hb⟩ := h
  rw [hpc] at hclear
  by_cases hji : j = i
  · rw [hji, Function.update_self] at hclear
    exact absurd hclear (hx _ _ _)
  · rw [Function.update_of_ne hji] at hclear
    exact ⟨j, hj, n, hclear, hb⟩

theorem Stored.update (hpc : s'.pc = Function.update s.pc i x)
    (hs : ∀ n p q, s.pc i ≠ .clear n p q) (h : c.Stored s l b) : c.Stored s' l b := by
  obtain ⟨j, hj, n, hclear, hb⟩ := h
  refine ⟨j, hj, n, ?_, hb⟩
  have hji : j ≠ i := by
    rintro rfl
    exact hs _ _ _ hclear
  rw [hpc, Function.update_of_ne hji]
  exact hclear

/-- A step that changes no sum and gathers no block. -/
theorem Values.calm (h : c.Values partials s st) (hpc : s'.pc = Function.update s.pc i x)
    (hx : ReductionPc.Calm x) (hs : ∀ n p q, s.pc i ≠ .clear n p q) (hsum : s'.sum = s.sum)
    (hwakes : s'.wakes = s.wakes) (hlive : ∀ l b, c.Live st' l b → c.Live st l b) :
    c.Values partials s' st' := by
  have hother : ∀ j y, s'.pc j = y → ¬ ReductionPc.Calm y → s.pc j = y := by
    intro j y hj hy
    rw [hpc] at hj
    by_cases hji : j = i
    · rw [hji, Function.update_self] at hj
      exact absurd (hj ▸ hx) hy
    · rwa [Function.update_of_ne hji] at hj
  refine ⟨fun l b hl hno => ?_, fun j hj l n v hp => ?_, fun j hj l n v hp => ?_,
    fun l b hst => ?_, fun hw => ?_⟩
  · rw [hsum]
    exact h.live l b (hlive l b hl) fun hst => hno (hst.update hpc hs)
  · exact h.loadNext j hj l n v (hother j _ hp id)
  · exact h.write j hj l n v (hother j _ hp id)
  · rw [hsum]
    refine h.stored l b (hst.of_update hpc fun n p q heq => ?_)
    rw [heq] at hx
    exact hx
  · rw [hsum]
    exact h.woken (by rwa [hwakes] at hw)

/-- Nobody has been woken while a core is in the reduction. -/
theorem Inv.wakes_eq (h : c.Inv partials s a st) (hi : i < c.numCores)
    (hin : s.pc i = .store ∨ st 0 i ≠ .gathering) : s.wakes = 0 := by
  have hentered := h.agrees.entered i (size_of_core hi)
  rw [h.sim.entered i hi, ← h.sim.wakes] at hentered
  rcases hin with hstore | hst
  · have hpc := h.sim.pc i hi
    have hpos : a.pos i = .idle := by
      rw [hstore] at hpc
      generalize a.pos i = y at hpc ⊢
      cases hpc
      rfl
    rw [if_pos hstore, if_pos ((h.agrees.out i (size_of_core hi)).mp (.inl hpos))] at hentered
    exact hentered.symm
  · rw [if_neg hst] at hentered
    split at hentered <;> omega

theorem Inv.not_gathering (h : c.Inv partials s a st) (hi : i < c.numCores)
    (hidle : a.pos i ≠ .idle) (hwfi : a.pos i ≠ .wfi) : st 0 i ≠ .gathering :=
  h.agrees.not_out_gathering (size_of_core hi) hidle hwfi

theorem Inv.store (h : c.Inv partials s a st) (hi : i < c.numCores) (hpc : s.pc i = .store)
    (hpos : a.pos i = .idle) :
    c.Inv partials (c.step partials s i) (a.step c.shape i) (set2 st 0 i (.held i)) := by
  have hgat : st 0 i = .gathering := (h.agrees.out i (size_of_core hi)).mp (.inl hpos)
  have hagrees := h.agrees.step_idle (size_of_core hi) hpos
  change Agrees c.shape _ (set2 st 0 (i / 2 ^ 0) _) at hagrees
  rw [Nat.pow_zero, Nat.div_one] at hagrees
  refine ⟨h.sim.store hi hpc hpos, hagrees, ?_⟩
  have hword : u32 (i * c.bankingFactor) = c.word 0 i := by
    have hlt := word_lt (c.shape.isBlock_core (l := 0) (size_of_core hi))
    change c.word 0 (i / 2 ^ 0) < _ at hlt
    rw [Nat.pow_zero, Nat.div_one] at hlt
    rw [word, Nat.pow_zero, Nat.mul_one] at hlt ⊢
    exact u32_eq (by omega)
  have hnext : ReductionPc.Calm (ReductionParams.loopHead c.numCores 1 2) := by
    rw [ReductionParams.loopHead, ReductionParams.afterLoop]
    split
    · trivial
    · split <;> trivial
  simp only [ReductionParams.step, hpc, hword]
  have hne : ∀ n p q, s.pc i ≠ .clear n p q := fun n p q heq => by
    rw [hpc] at heq
    cases heq
  -- the word of the core is not one of a block or a half that has been gathered
  have hcalm : c.Values partials { s with
      pc := Function.update s.pc i (ReductionParams.loopHead c.numCores 1 2) } st :=
    h.values.calm rfl hnext hne rfl rfl fun l b hl => hl
  have hold : ∀ l b, c.Live st l b → c.word l b ≠ c.word 0 i := fun l b hl heq => by
    have hfirst := word_inj heq
    rw [Nat.pow_zero, Nat.mul_one] at hfirst
    exact hl.core h.agrees hgat hfirst
  refine ⟨fun l b hl hno => ?_, hcalm.loadNext, hcalm.write, fun l b hst => ?_, fun hw => ?_⟩
  · dsimp only
    by_cases hlb : l = 0 ∧ b = i
    · rw [hlb.1, hlb.2, Function.update_self, blockSum_zero]
    · obtain ⟨hle, hb, hst, habove⟩ := hl
      rw [set2_of_ne _ _ hlb] at hst
      have hlive : c.Live st l b := by
        refine ⟨hle, hb, hst, fun hlt => ?_⟩
        have := habove hlt
        rwa [set2_of_ne _ _ (by omega)] at this
      rw [Function.update_of_ne (hold l b hlive)]
      exact hcalm.live l b hlive hno
  · have hst' := hst.of_update (s := s) rfl fun n p q heq => by
      rw [heq] at hnext
      exact hnext
    obtain ⟨j, hj, n, hclear, rfl⟩ := hst'
    have hposj : a.pos j = .clear l := level_of_clear (hclear ▸ h.sim.pc j hj)
    have hleft := (halves_live h.agrees hj hposj).2.1
    have hword' : c.word (l + 1) (j / 2 ^ (l + 1)) ≠ c.word 0 i := by
      rw [word_left]
      exact hold _ _ hleft
    dsimp only
    rw [Function.update_of_ne hword']
    exact hcalm.stored _ _ hst
  · have hzero := h.wakes_eq hi (.inl hpc)
    rw [hzero] at hw
    exact absurd hw (Nat.lt_irrefl 0)

theorem Inv.add (h : c.Inv partials s a st) (hi : i < c.numCores) (hl : l < c.logCores)
    (hpos : a.pos i = .climb l)
    (hpc : s.pc i = .add (2 ^ (c.logCores - l)) (2 ^ l) (2 ^ (l + 1))) :
    c.Inv partials (c.step partials s i) (a.step c.shape i)
      (set2 st l (i / 2 ^ l) .delivered) := by
  have hheld : st l (i / 2 ^ l) = .held i := (h.agrees.held_of_climb (size_of_core hi) hpos).2
  have hiff : ∀ k b, set2 st l (i / 2 ^ l) .delivered k b = .gathering ↔ st k b = .gathering := by
    intro k b
    by_cases hkb : k = l ∧ b = i / 2 ^ l
    · rw [hkb.1, hkb.2, set2_same, hheld]
      simp
    · rw [set2_of_ne _ _ hkb]
  refine ⟨h.sim.add h.agrees hi hl hpos hpc, h.agrees.step_climb (size_of_core hi) hl hpos, ?_⟩
  simp only [ReductionParams.step, hpc, afterLoop_eq hl]
  refine h.values.calm rfl ?_ (fun n p q heq => ?_) rfl rfl fun k b hlive => ?_
  · split <;> trivial
  · rw [hpc] at heq
    cases heq
  · obtain ⟨hle, hb, hst, habove⟩ := hlive
    exact ⟨hle, hb, fun hg => hst ((hiff k b).mpr hg), fun hlt => (hiff _ _).mp (habove hlt)⟩

/-- A core that is adding up the halves of a block is the only one, and has not stored. -/
theorem Inv.not_stored (h : c.Inv partials s a st) (hi : i < c.numCores)
    (hpos : a.pos i = .clear l) (hpc : ∀ n p q, s.pc i ≠ .clear n p q) :
    ¬ c.Stored s l (i / 2 ^ (l + 1)) := by
  rintro ⟨j, hj, n, hclear, hb⟩
  have hposj : a.pos j = .clear l := level_of_clear (hclear ▸ h.sim.pc j hj)
  obtain rfl := h.agrees.clear_unique j (size_of_core hj) i (size_of_core hi) l hposj hpos hb
  exact hpc _ _ _ hclear

theorem Inv.half (h : c.Inv partials s a st) (hi : i < c.numCores) (hpos : a.pos i = .clear l)
    (hpc : ∀ n p q, s.pc i ≠ .clear n p q) :
    s.sum (c.word l (2 * (i / 2 ^ (l + 1)))) = blockSum partials l (2 * (i / 2 ^ (l + 1))) ∧
      s.sum (c.word l (2 * (i / 2 ^ (l + 1)) + 1)) =
        blockSum partials l (2 * (i / 2 ^ (l + 1)) + 1) := by
  obtain ⟨-, hleft, hright⟩ := halves_live h.agrees hi hpos
  have hno := h.not_stored hi hpos hpc
  constructor
  · refine h.values.live _ _ hleft ?_
    rwa [Nat.mul_div_cancel_left _ (by decide)]
  · refine h.values.live _ _ hright ?_
    rwa [show (2 * (i / 2 ^ (l + 1)) + 1) / 2 = i / 2 ^ (l + 1) by omega]

theorem Inv.load (h : c.Inv partials s a st) (hi : i < c.numCores) (hl : l < c.logCores)
    (hpos : a.pos i = .clear l)
    (hpc : s.pc i = .load (2 ^ (c.logCores - l)) (2 ^ l) (2 ^ (l + 1))) :
    c.Inv partials (c.step partials s i) a st := by
  have hne : ∀ n p q, s.pc i ≠ .clear n p q := fun n p q heq => by
    rw [hpc] at heq
    cases heq
  have hvalue : s.sum (c.idx (2 ^ (l + 1)) i) = blockSum partials l (2 * (i / 2 ^ (l + 1))) := by
    rw [idx_eq hi, word_left]
    exact (h.half hi hpos hne).1
  simp only [ReductionParams.step, hpc]
  refine ⟨h.sim.stay (hpos ▸ .loadNext l hl _) (by rw [hpc]; exact fun h => by cases h)
    (fun h => by cases h) s.sum, h.agrees, ?_⟩
  have hx : ∀ n p q, ReductionPc.loadNext (2 ^ (c.logCores - l)) (2 ^ l) (2 ^ (l + 1))
      (s.sum (c.idx (2 ^ (l + 1)) i)) ≠ .clear n p q := fun n p q heq => by cases heq
  refine ⟨fun k b hlive hno => ?_, fun j hj k n v hp => ?_, fun j hj k n v hp => ?_,
    fun k b hst => ?_, h.values.woken⟩
  · exact h.values.live k b hlive fun hst => hno (hst.update rfl hne)
  · dsimp only at hp
    by_cases hji : j = i
    · subst hji
      rw [Function.update_self, hvalue] at hp
      injection hp with _ hpow _ hv
      rw [← hv, ← Nat.pow_right_injective (Nat.le_refl 2) hpow]
    · rw [Function.update_of_ne hji] at hp
      exact h.values.loadNext j hj k n v hp
  · dsimp only at hp
    by_cases hji : j = i
    · rw [hji, Function.update_self] at hp
      cases hp
    · rw [Function.update_of_ne hji] at hp
      exact h.values.write j hj k n v hp
  · exact h.values.stored k b (hst.of_update rfl hx)

theorem Inv.loadNext (h : c.Inv partials s a st) (hi : i < c.numCores) (hl : l < c.logCores)
    (hpos : a.pos i = .clear l) {v : Int32}
    (hpc : s.pc i = .loadNext (2 ^ (c.logCores - l)) (2 ^ l) (2 ^ (l + 1)) v) :
    c.Inv partials (c.step partials s i) a st := by
  have hne : ∀ n p q, s.pc i ≠ .clear n p q := fun n p q heq => by
    rw [hpc] at heq
    cases heq
  have hvalue : v + s.sum (c.nextIdx (2 ^ l) (2 ^ (l + 1)) i) =
      blockSum partials (l + 1) (i / 2 ^ (l + 1)) := by
    rw [nextIdx_eq hi hl, (h.half hi hpos hne).2, h.values.loadNext i hi l _ v hpc, blockSum_succ]
  simp only [ReductionParams.step, hpc, hvalue]
  refine ⟨h.sim.stay (hpos ▸ .write l hl _) (by rw [hpc]; exact fun h => by cases h)
    (fun h => by cases h) s.sum, h.agrees, ?_⟩
  refine ⟨fun k b hlive hno => ?_, fun j hj k n w hp => ?_, fun j hj k n w hp => ?_,
    fun k b hst => ?_, h.values.woken⟩
  · exact h.values.live k b hlive fun hst => hno (hst.update rfl hne)
  · dsimp only at hp
    by_cases hji : j = i
    · rw [hji, Function.update_self] at hp
      cases hp
    · rw [Function.update_of_ne hji] at hp
      exact h.values.loadNext j hj k n w hp
  · dsimp only at hp
    by_cases hji : j = i
    · subst hji
      rw [Function.update_self] at hp
      injection hp with _ hpow _ hv
      rw [← hv, ← Nat.pow_right_injective (Nat.le_refl 2) hpow]
    · rw [Function.update_of_ne hji] at hp
      exact h.values.write j hj k n w hp
  · exact h.values.stored k b (hst.of_update rfl fun n p q heq => by cases heq)

theorem Inv.write (h : c.Inv partials s a st) (hi : i < c.numCores) (hl : l < c.logCores)
    (hpos : a.pos i = .clear l) {v : Int32}
    (hpc : s.pc i = .write (2 ^ (c.logCores - l)) (2 ^ l) (2 ^ (l + 1)) v) :
    c.Inv partials (c.step partials s i) a st := by
  have hne : ∀ n p q, s.pc i ≠ .clear n p q := fun n p q heq => by
    rw [hpc] at heq
    cases heq
  have hvalue := h.values.write i hi l _ v hpc
  obtain ⟨-, hleft, -⟩ := halves_live h.agrees hi hpos
  simp only [ReductionParams.step, hpc, idx_eq hi]
  refine ⟨h.sim.stay (hpos ▸ .clear l hl) (by rw [hpc]; exact fun h => by cases h)
    (fun h => by cases h) _, h.agrees, ?_⟩
  refine ⟨fun k b hlive hno => ?_, fun j hj k n w hp => ?_, fun j hj k n w hp => ?_,
    fun k b hst => ?_, fun hw => ?_⟩
  · -- only the word of the left half changes, and the sum of the block is in there now
    dsimp only
    have hword : c.word k b ≠ c.word (l + 1) (i / 2 ^ (l + 1)) := by
      rw [word_left]
      intro heq
      obtain ⟨rfl, rfl⟩ := hlive.unique hleft h.agrees heq
      refine hno ⟨i, hi, _, Function.update_self _ _ _, ?_⟩
      rw [Nat.mul_div_cancel_left _ (by decide)]
    rw [Function.update_of_ne hword]
    exact h.values.live k b hlive fun hst => hno (hst.update rfl hne)
  · dsimp only at hp
    by_cases hji : j = i
    · rw [hji, Function.update_self] at hp
      cases hp
    · rw [Function.update_of_ne hji] at hp
      exact h.values.loadNext j hj k n w hp
  · dsimp only at hp
    by_cases hji : j = i
    · rw [hji, Function.update_self] at hp
      cases hp
    · rw [Function.update_of_ne hji] at hp
      exact h.values.write j hj k n w hp
  · obtain ⟨j, hj, n, hclear, rfl⟩ := hst
    dsimp only at hclear ⊢
    by_cases hji : j = i
    · subst hji
      rw [Function.update_self] at hclear
      injection hclear with _ hpow
      obtain rfl := Nat.pow_right_injective (Nat.le_refl 2) hpow
      rw [Function.update_self, hvalue]
    · rw [Function.update_of_ne hji] at hclear
      have hposj : a.pos j = .clear k := level_of_clear (hclear ▸ h.sim.pc j hj)
      have hleft' := (halves_live h.agrees hj hposj).2.1
      have hword : c.word (k + 1) (j / 2 ^ (k + 1)) ≠ c.word (l + 1) (i / 2 ^ (l + 1)) := by
        rw [word_left, word_left]
        intro heq
        obtain ⟨rfl, hb⟩ := hleft'.unique hleft h.agrees heq
        exact hji (h.agrees.clear_unique j (size_of_core hj) i (size_of_core hi) k hposj hpos
          (Nat.eq_of_mul_eq_mul_left (by decide) hb))
      rw [Function.update_of_ne hword]
      exact h.values.stored k _ ⟨j, hj, n, hclear, rfl⟩
  · have hzero := h.wakes_eq hi (.inr (h.not_gathering hi (by simp [hpos]) (by simp [hpos])))
    rw [hzero] at hw
    exact absurd hw (Nat.lt_irrefl 0)

theorem calm_loopHead (n p q : Nat) : ReductionPc.Calm (ReductionParams.loopHead n p q) := by
  rw [ReductionParams.loopHead, ReductionParams.afterLoop]
  split
  · trivial
  · split <;> trivial

theorem Inv.clear (h : c.Inv partials s a st) (hi : i < c.numCores) (hl : l < c.logCores)
    (hpos : a.pos i = .clear l)
    (hpc : s.pc i = .clear (2 ^ (c.logCores - l)) (2 ^ l) (2 ^ (l + 1))) :
    c.Inv partials (c.step partials s i) (a.step c.shape i)
      (set2 st (l + 1) (i / 2 ^ (l + 1)) (.held i)) := by
  have hstored : c.Stored s l (i / 2 ^ (l + 1)) := ⟨i, hi, _, hpc, rfl⟩
  have hgat : st (l + 1) (i / 2 ^ (l + 1)) = .gathering :=
    (h.agrees.clear i (size_of_core hi) l hpos).2.2
  refine ⟨h.sim.clear hi hl hpos hpc, h.agrees.step_clear (size_of_core hi) hpos, ?_⟩
  simp only [ReductionParams.step, hpc]
  have hother : ∀ j y, Function.update s.pc i (ReductionParams.loopHead (2 ^ (c.logCores - l) / 2)
      (2 ^ (l + 1)) (u32 (2 ^ (l + 1) * 2))) j = y → ¬ ReductionPc.Calm y → j ≠ i ∧ s.pc j = y := by
    intro j y hj hy
    by_cases hji : j = i
    · rw [hji, Function.update_self] at hj
      exact absurd (hj ▸ calm_loopHead _ _ _) hy
    · rw [Function.update_of_ne hji] at hj
      exact ⟨hji, hj⟩
  refine ⟨fun k b hlive hno => ?_, fun j hj k n w hp => ?_, fun j hj k n w hp => ?_,
    fun k b hst => ?_, h.values.woken⟩
  · by_cases hkb : k = l + 1 ∧ b = i / 2 ^ (l + 1)
    · rw [hkb.1, hkb.2]
      exact h.values.stored l _ hstored
    · obtain ⟨hle, hb, hst, habove⟩ := hlive
      rw [set2_of_ne _ _ hkb] at hst
      have hparent : ∀ hlt : k < c.logCores, ¬ (k + 1 = l + 1 ∧ b / 2 = i / 2 ^ (l + 1)) := by
        rintro hlt ⟨hk, hb2⟩
        have := habove hlt
        rw [hk, hb2, set2_same] at this
        cases this
      refine h.values.live k b ⟨hle, hb, hst, fun hlt => ?_⟩ ?_
      · have := habove hlt
        rwa [set2_of_ne _ _ (hparent hlt)] at this
      · rintro ⟨j, hj, n, hclear, hb2⟩
        by_cases hji : j = i
        · subst hji
          rw [hpc] at hclear
          injection hclear with _ hpow
          obtain rfl := Nat.pow_right_injective (Nat.le_refl 2) hpow
          exact hparent hl ⟨rfl, hb2.symm⟩
        · exact hno ⟨j, hj, n, (Function.update_of_ne hji _ _).trans hclear, hb2⟩
  · exact h.values.loadNext j hj k n w (hother j _ hp id).2
  · exact h.values.write j hj k n w (hother j _ hp id).2
  · obtain ⟨j, hj, n, hclear, hb⟩ := hst
    exact h.values.stored k b ⟨j, hj, n, (hother j _ hclear id).2, hb⟩

/-- At the top everybody else sleeps, and the sum is there. -/
theorem Inv.at_top (h : c.Inv partials s a st) (hi : i < c.numCores)
    (hpos : a.pos i = .climb c.logCores) (hpc : s.pc i = .wakeUpAll) :
    s.sum 0 = blockSum partials c.logCores 0 ∧ ∀ j < c.numCores, j ≠ i → s.pc j = .wfi := by
  have htop : a.pos i = .climb c.shape.depth := hpos
  have hsleep : ∀ j < c.numCores, j ≠ i → s.pc j = .wfi := by
    intro j hj hji
    have hposj := (h.agrees.at_top (size_of_core hi) htop).2.2 j (size_of_core hj) hji
    have hsim := h.sim.pc j hj
    rw [hposj] at hsim
    generalize s.pc j = y at hsim ⊢
    cases hsim
    rfl
  refine ⟨?_, hsleep⟩
  have hheld := (h.agrees.held_of_climb (size_of_core hi) hpos).2
  change st c.logCores (i / 2 ^ c.logCores) = _ at hheld
  rw [Nat.div_eq_of_lt (c.numCores_eq ▸ hi)] at hheld
  have hlive : c.Live st c.logCores 0 := by
    refine ⟨Nat.le_refl _, ?_, ?_, fun hlt => absurd hlt (Nat.lt_irrefl _)⟩
    · rw [Shape.IsBlock, Nat.zero_mul]
      exact c.shape.width_pos _ (Nat.le_refl _)
    · rw [hheld]
      exact fun h => by cases h
  have hsum := h.values.live _ _ hlive ?_
  · rwa [word, Nat.zero_mul, Nat.zero_mul] at hsum
  · rintro ⟨j, hj, n, hclear, -⟩
    by_cases hji : j = i
    · rw [hji, hpc] at hclear
      cases hclear
    · rw [hsleep j hj hji] at hclear
      cases hclear

theorem Inv.wake (h : c.Inv partials s a st) (hi : i < c.numCores)
    (hpos : a.pos i = .climb c.logCores) (hpc : s.pc i = .wakeUpAll) :
    c.Inv partials (c.step partials s i) (a.step c.shape i) fun _ _ => .gathering := by
  obtain ⟨hsum, hsleep⟩ := h.at_top hi hpos hpc
  have hstep : a.step c.shape i = { a with
      tokens := fun j => if j < c.shape.size then a.tokens j + 1 else a.tokens j
      pos := Function.update a.pos i .wfi
      wakes := a.wakes + 1 } := by
    have hge : ¬ c.logCores < c.shape.depth := Nat.lt_irrefl _
    simp only [State.step, hpos, if_neg hge]
  refine ⟨?_, h.agrees.wake (size_of_core hi) hpos, ?_⟩
  · simp only [ReductionParams.step, hpc, hstep]
    refine ⟨forall_update h.sim.pc .wfi i, fun j hj => ?_, fun j hj => ?_, ?_, h.sim.count,
      h.sim.rest⟩
    · change (if j < c.numCores then _ else _) = if j < c.shape.size then _ else _
      rw [if_pos hj, if_pos (size_of_core hj), h.sim.tokens j hj]
    · refine (h.sim.entered j hj).trans (store_update ?_ (fun h => by cases h) j).symm
      rw [hpc]
      exact fun h => by cases h
    · rw [h.sim.wakes]
  · simp only [ReductionParams.step, hpc]
    have hwfi : ∀ j < c.numCores, Function.update s.pc i .wfi j = .wfi := by
      intro j hj
      by_cases hji : j = i
      · rw [hji, Function.update_self]
      · rw [Function.update_of_ne hji, hsleep j hj hji]
    refine ⟨fun k b hlive => absurd rfl hlive.2.2.1, fun j hj k n w hp => ?_,
      fun j hj k n w hp => ?_, fun k b hst => ?_, fun _ => hsum⟩
    · dsimp only at hp
      rw [hwfi j hj] at hp
      cases hp
    · dsimp only at hp
      rw [hwfi j hj] at hp
      cases hp
    · obtain ⟨j, hj, n, hclear, -⟩ := hst
      dsimp only at hclear
      rw [hwfi j hj] at hclear
      cases hclear

theorem Inv.leave (h : c.Inv partials s a st) (hi : i < c.numCores) (hpos : a.pos i = .wfi)
    (hpc : s.pc i = .wfi) (htok : 0 < s.tokens i) :
    c.Inv partials (c.step partials s i) (a.step c.shape i) st := by
  have htok' : 0 < a.tokens i := h.sim.tokens i hi ▸ htok
  have hstep : a.step c.shape i = { a with
      tokens := Function.update a.tokens i (a.tokens i - 1)
      pos := Function.update a.pos i .idle } := by
    simp only [State.step, hpos, if_pos htok']
  have hne : ∀ n p q, s.pc i ≠ .clear n p q := fun n p q heq => by
    rw [hpc] at heq
    cases heq
  refine ⟨?_, h.agrees.leave (size_of_core hi) hpos htok', ?_⟩
  · simp only [ReductionParams.step, hpc, if_pos htok, hstep]
    refine ⟨forall_update h.sim.pc .done i, fun j hj => ?_, fun j hj => ?_, h.sim.wakes,
      h.sim.count, h.sim.rest⟩
    · dsimp only
      by_cases hji : j = i
      · rw [hji, Function.update_self, Function.update_self, h.sim.tokens i hi]
      · rw [Function.update_of_ne hji, Function.update_of_ne hji, h.sim.tokens j hj]
    · refine (h.sim.entered j hj).trans (store_update ?_ (fun h => by cases h) j).symm
      rw [hpc]
      exact fun h => by cases h
  · simp only [ReductionParams.step, hpc, if_pos htok]
    exact h.values.calm rfl trivial hne rfl rfl fun l b hl => hl

theorem Inv.step (h : c.Inv partials s a st) (hi : i < c.numCores) :
    ∃ a' st', c.Inv partials (c.step partials s i) a' st' := by
  have hsim := h.sim.pc i hi
  generalize hpc : s.pc i = x at hsim
  generalize hpos : a.pos i = y at hsim
  cases hsim with
  | store => exact ⟨_, _, h.store hi hpc hpos⟩
  | add l hl => exact ⟨_, _, h.add hi hl hpos hpc⟩
  | load l hl => exact ⟨_, _, h.load hi hl hpos hpc⟩
  | loadNext l hl v => exact ⟨_, _, h.loadNext hi hl hpos hpc⟩
  | write l hl v => exact ⟨_, _, h.write hi hl hpos hpc⟩
  | clear l hl => exact ⟨_, _, h.clear hi hl hpos hpc⟩
  | wakeUpAll => exact ⟨_, _, h.wake hi hpos hpc⟩
  | wfi =>
      by_cases htok : 0 < s.tokens i
      · exact ⟨_, _, h.leave hi hpos hpc htok⟩
      · refine ⟨a, st, ?_⟩
        simp only [ReductionParams.step, hpc, if_neg htok]
        exact h
  | done =>
      refine ⟨a, st, ?_⟩
      simp only [ReductionParams.step, hpc]
      exact h

end Sums

/-! ## Runs -/

section Run

variable {partials : Nat → Int32} {redBarrier : Nat → Nat} {sum : Nat → Int32}
  {sched : Nat → Nat}

theorem inv_start (hzero : ∀ e < c.numCores * c.bankingFactor, redBarrier e = 0) :
    c.Inv partials (ReductionParams.start redBarrier sum) .start fun _ _ => .gathering where
  sim :=
    { pc := fun _ _ => .store
      tokens := fun _ _ => rfl
      entered := fun _ _ => rfl
      wakes := rfl
      count := fun l hl b hb => by
        have hstart : redBarrier (c.counterIdx l b) = 0 := hzero _ (counterIdx_lt hl hb)
        change redBarrier (c.counterIdx l b) * 2 ^ l = 0
        rw [hstart, Nat.zero_mul]
      rest := fun e he _ => hzero e he }
  agrees := Agrees.agrees_start c.shape
  values :=
    { live := fun l b hlive => absurd rfl hlive.2.2.1
      loadNext := fun i _ l n v hp => by cases hp
      write := fun i _ l n v hp => by cases hp
      stored := fun l b hst => by
        obtain ⟨j, -, n, hclear, -⟩ := hst
        cases hclear
      woken := fun hw => absurd hw (Nat.lt_irrefl 0) }

theorem inv_after (partials : Nat → Int32) (sum : Nat → Int32)
    (hzero : ∀ e < c.numCores * c.bankingFactor, redBarrier e = 0)
    (hsched : ∀ t, sched t < c.numCores) (t : Nat) :
    ∃ a st, c.Inv partials (c.after partials redBarrier sum sched t) a st := by
  induction t with
  | zero => exact ⟨_, _, inv_start hzero⟩
  | succ t ih =>
      obtain ⟨a, st, h⟩ := ih
      exact h.step (hsched t)

end Run

section Facts

variable {s : ReductionState} {a : State} {st : Nat → Nat → Status} {partials : Nat → Int32}
  {j : Nat}

/-- At the wake-up all counters are back at zero. -/
theorem Inv.counters_zero (h : c.Inv partials s a st) (hi : i < c.numCores)
    (hpos : a.pos i = .climb c.logCores) :
    ∀ e < c.numCores * c.bankingFactor, s.redBarrier e = 0 := by
  intro e he
  have hzero := (h.agrees.at_top (size_of_core hi) hpos).2.1
  by_cases hex : ∃ l < c.logCores, ∃ b, c.shape.IsBlock (l + 1) b ∧ e = c.counterIdx l b
  · obtain ⟨l, hl, b, hb, rfl⟩ := hex
    have hcount := h.sim.count l hl b hb
    rw [hzero l hl b hb] at hcount
    exact (Nat.mul_eq_zero.mp hcount).resolve_right (Nat.two_pow_pos l).ne'
  · exact h.sim.rest e he fun l hl b hb heq => hex ⟨l, hl, b, hb, heq⟩

theorem Inv.climb_of_wakeUpAll (h : c.Inv partials s a st) (hi : i < c.numCores)
    (hpc : s.pc i = .wakeUpAll) : a.pos i = .climb c.logCores := by
  have hsim := h.sim.pc i hi
  rw [hpc] at hsim
  generalize a.pos i = y at hsim ⊢
  cases hsim
  rfl

/-- The step that a core is adding for is that of the block whose counter it has filled, and
the words are those of the halves. -/
theorem Inv.adding_eq (h : c.Inv partials s a st) (hi : i < c.numCores) {step : Nat}
    {words : List Nat} (hadd : c.adding s i = some (step, words)) :
    ∃ l < c.logCores, step = 2 ^ (l + 1) ∧ a.pos i = .clear l ∧ (∀ n p q, s.pc i ≠ .clear n p q) ∧
      words = [c.word l (2 * (i / 2 ^ (l + 1))), c.word l (2 * (i / 2 ^ (l + 1)) + 1)] := by
  have hsim := h.sim.pc i hi
  rw [ReductionParams.adding] at hadd
  generalize s.pc i = x at hsim hadd ⊢
  generalize a.pos i = y at hsim ⊢
  cases hsim with
  | load l hl =>
      cases hadd
      refine ⟨l, hl, rfl, rfl, (fun n p q heq => by cases heq), ?_⟩
      rw [idx_eq hi, nextIdx_eq hi hl, word_left]
  | loadNext l hl v =>
      cases hadd
      refine ⟨l, hl, rfl, rfl, (fun n p q heq => by cases heq), ?_⟩
      rw [idx_eq hi, nextIdx_eq hi hl, word_left]
  | write l hl v =>
      cases hadd
      refine ⟨l, hl, rfl, rfl, (fun n p q heq => by cases heq), ?_⟩
      rw [idx_eq hi, nextIdx_eq hi hl, word_left]
  | store | add | clear | wakeUpAll | wfi | done => cases hadd

/-- A word that is read is one of the two, and holds the sum of its half, whose cores have all
stored their partial sums. -/
theorem Inv.read_eq (h : c.Inv partials s a st) (hi : i < c.numCores) {e : Nat}
    (hread : c.read s i = some e) :
    ∃ l b, e = b * 2 ^ l * c.bankingFactor ∧ s.sum e = blockSum partials l b ∧
      ∀ j < c.numCores, j / 2 ^ l = b → s.pc j ≠ .store := by
  have hboth : ∀ {step : Nat} {words : List Nat}, c.adding s i = some (step, words) →
      ∀ e ∈ words, ∃ l b, e = b * 2 ^ l * c.bankingFactor ∧ s.sum e = blockSum partials l b ∧
        ∀ j < c.numCores, j / 2 ^ l = b → s.pc j ≠ .store := by
    intro step words hadd e he
    obtain ⟨l, hl, -, hpos, hne, rfl⟩ := h.adding_eq hi hadd
    obtain ⟨-, hleft, hright⟩ := halves_live h.agrees hi hpos
    obtain ⟨hsumL, hsumR⟩ := h.half hi hpos hne
    have hstored : ∀ b, c.Live st l b → ∀ j < c.numCores, j / 2 ^ l = b → s.pc j ≠ .store := by
      rintro b hlive j hj rfl hstore
      have hsim := h.sim.pc j hj
      have hposj : a.pos j = .idle := by
        rw [hstore] at hsim
        generalize a.pos j = y at hsim ⊢
        cases hsim
        rfl
      have hgat := (h.agrees.out j (size_of_core hj)).mp (.inl hposj)
      obtain ⟨hle, -, hst, -⟩ := hlive
      rcases Nat.eq_zero_or_pos l with rfl | hpos
      · rw [Nat.pow_zero, Nat.div_one] at hst
        exact hst hgat
      · have hdel := h.agrees.delivered_within (c := j) hpos hle hst
        change st 0 (j / 2 ^ 0) = _ at hdel
        rw [Nat.pow_zero, Nat.div_one, hgat] at hdel
        cases hdel
    rcases List.mem_pair.mp he with rfl | rfl
    · exact ⟨l, _, rfl, hsumL, hstored _ hleft⟩
    · exact ⟨l, _, rfl, hsumR, hstored _ hright⟩
  rw [ReductionParams.read] at hread
  cases hpc : s.pc i with
  | load n p q =>
      rw [hpc] at hread
      cases hread
      have hadd : c.adding s i = some (q, [c.idx q i, c.nextIdx p q i]) := by
        rw [ReductionParams.adding, hpc]
      exact hboth hadd _ List.mem_cons_self
  | loadNext n p q v =>
      rw [hpc] at hread
      cases hread
      have hadd : c.adding s i = some (q, [c.idx q i, c.nextIdx p q i]) := by
        rw [ReductionParams.adding, hpc]
      exact hboth hadd _ (List.mem_cons_of_mem _ List.mem_cons_self)
  | store | add | write | clear | wakeUpAll | wfi | done =>
      rw [hpc] at hread
      cases hread

/-- Two cores that add at the same time use different words. -/
theorem Inv.adding_disjoint (h : c.Inv partials s a st) (hi : i < c.numCores)
    (hj : j < c.numCores) (hij : i ≠ j) {step step' : Nat} {words words' : List Nat}
    (hadd : c.adding s i = some (step, words)) (hadd' : c.adding s j = some (step', words')) :
    ∀ e ∈ words, e ∉ words' := by
  intro e he he'
  obtain ⟨l, hl, -, hpos, -, rfl⟩ := h.adding_eq hi hadd
  obtain ⟨m, hm, -, hpos', -, rfl⟩ := h.adding_eq hj hadd'
  obtain ⟨-, hleft, hright⟩ := halves_live h.agrees hi hpos
  obtain ⟨-, hleft', hright'⟩ := halves_live h.agrees hj hpos'
  -- the words are of live blocks, whose parents are the same
  obtain ⟨b, hb, hlive, heq⟩ : ∃ b, b / 2 = i / 2 ^ (l + 1) ∧ c.Live st l b ∧ e = c.word l b := by
    rcases List.mem_pair.mp he with rfl | rfl
    · exact ⟨_, by omega, hleft, rfl⟩
    · exact ⟨_, by omega, hright, rfl⟩
  obtain ⟨b', hb', hlive', heq'⟩ :
      ∃ b, b / 2 = j / 2 ^ (m + 1) ∧ c.Live st m b ∧ e = c.word m b := by
    rcases List.mem_pair.mp he' with rfl | rfl
    · exact ⟨_, by omega, hleft', rfl⟩
    · exact ⟨_, by omega, hright', rfl⟩
  obtain ⟨rfl, rfl⟩ := hlive.unique hlive' h.agrees (heq.symm.trans heq')
  exact hij (h.agrees.clear_unique i (size_of_core hi) j (size_of_core hj) l hpos hpos'
    (hb.symm.trans hb'))

/-- Every counter access is to the counter of the core's block, of the level that the step
says. -/
theorem Inv.counterAccess_eq (h : c.Inv partials s a st) (hi : i < c.numCores) {step e : Nat}
    (hacc : c.counterAccess s i = some (step, e)) :
    ∃ l < c.logCores, step = 2 ^ (l + 1) ∧ e = c.counterIdx l (i / 2 ^ (l + 1)) := by
  have hsim := h.sim.pc i hi
  rw [ReductionParams.counterAccess] at hacc
  generalize s.pc i = x at hsim hacc
  generalize a.pos i = y at hsim
  cases hsim with
  | add l hl =>
      cases hacc
      exact ⟨l, hl, rfl, counter_eq hi hl⟩
  | clear l hl =>
      cases hacc
      exact ⟨l, hl, rfl, counter_eq hi hl⟩
  | store | load | loadNext | write | wakeUpAll | wfi | done => cases hacc

end Facts

/-! ## Termination -/

/-- Steps a core can take before it is done. -/
def rank (c : ReductionConfig) : ReductionPc → Nat
  | .store => 5 * Nat.log2 c.numCores + 3
  | .add n _ _ => 5 * Nat.log2 n + 2
  | .load n _ _ => 5 * Nat.log2 n + 1
  | .loadNext n _ _ _ => 5 * Nat.log2 n
  | .write n _ _ _ => 5 * Nat.log2 n - 1
  | .clear n _ _ => 5 * Nat.log2 n - 2
  | .wakeUpAll => 2
  | .wfi => 1
  | .done => 0

section Termination

variable {s : ReductionState} {a : State} {st : Nat → Nat → Status} {partials : Nat → Int32}
  {j : Nat}

theorem rank_loopHead (n p q : Nat) :
    c.rank (ReductionParams.loopHead n p q) ≤ 5 * Nat.log2 n + 2 := by
  rw [ReductionParams.loopHead, ReductionParams.afterLoop]
  split
  · exact Nat.le_refl _
  · split
    · exact Nat.le_add_left _ _
    · exact (Nat.le_succ 1).trans (Nat.le_add_left _ _)

theorem pc_step_other (hij : j ≠ i) : (c.step partials s i).pc j = s.pc j := by
  rw [ReductionParams.step]
  split
  all_goals first | exact Function.update_of_ne hij _ _ | rfl | skip
  split
  · exact Function.update_of_ne hij _ _
  · rfl

theorem rank_step (h : c.Inv partials s a st) (hi : i < c.numCores)
    (hmove : s.pc i = .wfi → 0 < s.tokens i) (hdone : s.pc i ≠ .done) :
    c.rank ((c.step partials s i).pc i) < c.rank (s.pc i) := by
  have hsim := h.sim.pc i hi
  generalize hpc : s.pc i = x at hsim hmove hdone ⊢
  generalize a.pos i = y at hsim
  cases hsim with
  | store =>
      simp only [ReductionParams.step, hpc, Function.update_self]
      exact Nat.lt_succ_of_le (rank_loopHead _ _ _)
  | add l hl =>
      simp only [ReductionParams.step, hpc, Function.update_self, afterLoop_eq hl]
      split <;> simp [rank]
  | load l hl =>
      simp only [ReductionParams.step, hpc, Function.update_self]
      exact Nat.lt_succ_self _
  | loadNext l hl v =>
      simp only [ReductionParams.step, hpc, Function.update_self, rank, Nat.log2_two_pow]
      omega
  | write l hl v =>
      simp only [ReductionParams.step, hpc, Function.update_self, rank, Nat.log2_two_pow]
      omega
  | clear l hl =>
      have hle := rank_loopHead (c := c) (2 ^ (c.logCores - l) / 2) (2 ^ (l + 1))
        (u32 (2 ^ (l + 1) * 2))
      have hhalf := half_pow hl
      simp only [ReductionParams.step, hpc, Function.update_self]
      rw [hhalf, Nat.log2_two_pow] at hle
      have hrank : c.rank (.clear (2 ^ (c.logCores - l)) (2 ^ l) (2 ^ (l + 1))) =
          5 * (c.logCores - l) - 2 := by rw [rank, Nat.log2_two_pow]
      rw [hhalf, hrank]
      omega
  | wakeUpAll =>
      simp only [ReductionParams.step, hpc, Function.update_self]
      exact Nat.lt_succ_self 1
  | wfi =>
      simp only [ReductionParams.step, hpc, if_pos (hmove rfl), Function.update_self]
      exact Nat.zero_lt_one
  | done => exact absurd rfl hdone

theorem wakes_step_other (hpc : s.pc i ≠ .wakeUpAll) :
    (c.step partials s i).wakes = s.wakes := by
  rw [ReductionParams.step]
  split
  all_goals first | rfl | skip
  · exact absurd ‹_› hpc
  · split <;> rfl

theorem wakes_step_wake (hpc : s.pc i = .wakeUpAll) :
    (c.step partials s i).wakes = s.wakes + 1 := by
  simp only [ReductionParams.step, hpc]

/-- Where cores wait for a wake-up, or have had it. -/
def Past (s : ReductionState) (i : Nat) : Prop := s.pc i = .wfi ∨ s.pc i = .done

theorem Past.step (h : Past s j) (i : Nat) : Past (c.step partials s i) j := by
  by_cases hji : j = i
  · subst hji
    rcases h with hpc | hpc
    · simp only [Past, ReductionParams.step, hpc]
      split
      · exact .inr (Function.update_self _ _ _)
      · exact .inl hpc
    · simp only [Past, ReductionParams.step, hpc]
      exact .inr trivial
  · rwa [Past, pc_step_other hji, ← Past]

/-- All cores are at their WFI or past it: then they have been woken, those that still sleep
will find it, and the sum is there. -/
theorem Inv.all_past (h : c.Inv partials s a st) (hall : ∀ i < c.numCores, Past s i) :
    s.wakes = 1 ∧ s.sum 0 = blockSum partials c.logCores 0 ∧
      ∀ i < c.numCores, s.pc i = .wfi → 0 < s.tokens i := by
  have hnot : ∀ i < c.numCores, s.pc i ≠ .store := by
    intro i hi hpc
    rcases hall i hi with hp | hp <;> rw [hpc] at hp <;> cases hp
  have hone : ∀ i < c.numCores, a.entered i = 1 := fun i hi =>
    (h.sim.entered i hi).trans (if_neg (hnot i hi))
  have hpos : ∀ i < c.numCores, s.pc i = .wfi → a.pos i = .wfi := by
    intro i hi hpc
    have hsim := h.sim.pc i hi
    rw [hpc] at hsim
    generalize a.pos i = y at hsim ⊢
    cases hsim
    rfl
  have hidle : ∀ i < c.numCores, s.pc i = .done → a.pos i = .idle := by
    intro i hi hpc
    have hsim := h.sim.pc i hi
    rw [hpc] at hsim
    generalize a.pos i = y at hsim ⊢
    cases hsim
    rfl
  have hwakes : 0 < s.wakes := by
    by_contra hzero
    -- then nobody is done, and everybody sleeps with no wake-up to come
    have hgat : ∀ i < c.numCores, st 0 i ≠ .gathering := by
      intro i hi hg
      have hentered := h.agrees.entered i (size_of_core hi)
      rw [hone i hi, if_pos hg, ← h.sim.wakes] at hentered
      omega
    have hN : 0 < c.shape.size := c.shape.width_pos _ (Nat.le_refl _)
    refine h.agrees.awake hN fun i hi => ?_
    have hi : i < c.numCores := Nat.lt_of_lt_of_eq hi c.size_eq
    have hp : a.pos i = .wfi := by
      rcases hall i hi with hp | hp
      · exact hpos i hi hp
      · exact absurd ((h.agrees.out i (size_of_core hi)).mp (.inl (hidle i hi hp))) (hgat i hi)
    refine ⟨hp, ?_⟩
    rw [h.agrees.tokens i (size_of_core hi), if_neg fun hand => hgat i hi hand.2]
  have hgat : ∀ i < c.numCores, st 0 i = .gathering := by
    intro i hi
    by_contra hne
    exact absurd (h.wakes_eq hi (.inr hne)) (Nat.ne_of_gt hwakes)
  have hN : 0 < c.numCores := by
    rw [c.numCores_eq]
    exact Nat.two_pow_pos _
  refine ⟨?_, h.values.woken hwakes, fun i hi hpc => ?_⟩
  · have hentered := h.agrees.entered 0 (size_of_core hN)
    rw [hone 0 hN, if_pos (hgat 0 hN), ← h.sim.wakes] at hentered
    exact hentered.symm
  · rw [h.sim.tokens i hi, h.agrees.tokens i (size_of_core hi), if_pos ⟨hpos i hi hpc, hgat i hi⟩]
    exact Nat.one_pos

end Termination

section Run

variable {partials : Nat → Int32} {redBarrier : Nat → Nat} {sum : Nat → Int32}
  {sched : Nat → Nat}
  (hzero : ∀ e < c.numCores * c.bankingFactor, redBarrier e = 0)
  (hsched : ∀ t, sched t < c.numCores)

theorem past_mono {t u : Nat} (htu : t ≤ u)
    (h : Past (c.after partials redBarrier sum sched t) i) :
    Past (c.after partials redBarrier sum sched u) i := by
  induction htu with
  | refl => exact h
  | step _ ih => exact ih.step _

theorem wakes_mono {t u : Nat} (htu : t ≤ u) :
    (c.after partials redBarrier sum sched t).wakes ≤
      (c.after partials redBarrier sum sched u).wakes := by
  induction htu with
  | refl => exact Nat.le_refl _
  | @step u _ ih =>
      refine ih.trans ?_
      by_cases hpc : (c.after partials redBarrier sum sched u).pc (sched u) = .wakeUpAll
      · exact (Nat.le_succ _).trans_eq (wakes_step_wake hpc).symm
      · exact (wakes_step_other hpc).symm.le

include hzero hsched in
theorem wake_unique {t u : Nat}
    (ht : (c.after partials redBarrier sum sched t).pc (sched t) = .wakeUpAll)
    (hu : (c.after partials redBarrier sum sched u).pc (sched u) = .wakeUpAll) : t = u := by
  have hno : ∀ {t u : Nat}, (c.after partials redBarrier sum sched t).pc (sched t) = .wakeUpAll →
      (c.after partials redBarrier sum sched u).pc (sched u) = .wakeUpAll → ¬ t < u := by
    intro t u ht hu hlt
    obtain ⟨a, st, h⟩ := inv_after partials sum hzero hsched u
    have hpos := h.climb_of_wakeUpAll (hsched u) hu
    have hnone := h.wakes_eq (hsched u)
      (.inr (h.not_gathering (hsched u) (by simp [hpos]) (by simp [hpos])))
    have hmono : (c.after partials redBarrier sum sched (t + 1)).wakes ≤
        (c.after partials redBarrier sum sched u).wakes := wakes_mono hlt
    have hone : (c.after partials redBarrier sum sched (t + 1)).wakes = _ := wakes_step_wake ht
    omega
  have := hno ht hu
  have := hno hu ht
  omega

/-- A core that keeps moving comes to where its steps no longer lower its rank. -/
theorem eventually_of_rank (partials : Nat → Int32) (redBarrier : Nat → Nat)
    (sum : Nat → Int32) (hfair : ∀ t, ∃ u, t ≤ u ∧ sched u = i) (T : Nat) (P : Nat → Prop)
    (hlt : ∀ t, T ≤ t → sched t = i → ¬ P t →
      c.rank ((c.after partials redBarrier sum sched (t + 1)).pc i) <
        c.rank ((c.after partials redBarrier sum sched t).pc i)) : ∃ t, T ≤ t ∧ P t := by
  by_contra hno
  have hnot : ∀ t, T ≤ t → ¬ P t := fun t ht h => hno ⟨t, ht, h⟩
  have hle : ∀ d, c.rank ((c.after partials redBarrier sum sched (T + (d + 1))).pc i) ≤
      c.rank ((c.after partials redBarrier sum sched (T + d)).pc i) := by
    intro d
    by_cases hmove : sched (T + d) = i
    · exact (hlt _ (Nat.le_add_right T d) hmove (hnot _ (Nat.le_add_right T d))).le
    · exact (congrArg c.rank (pc_step_other (Ne.symm hmove))).le
  have hfair' : ∀ d, ∃ e, d ≤ e ∧ sched (T + e) = i := by
    intro d
    obtain ⟨u, hu, hmove⟩ := hfair (T + d)
    exact ⟨u - T, by omega, by rw [Nat.add_sub_cancel' (by omega), hmove]⟩
  obtain ⟨d, hrank⟩ := @eventually_zero
    (fun d => c.rank ((c.after partials redBarrier sum sched (T + d)).pc i))
    (fun d => sched (T + d) = i) hle
    (fun d hmove _ => hlt _ (Nat.le_add_right T d) hmove (hnot _ (Nat.le_add_right T d))) hfair'
  obtain ⟨e, hde, hmove⟩ := hfair' d
  have hfall := hlt _ (Nat.le_add_right T e) hmove (hnot _ (Nat.le_add_right T e))
  have hanti : Antitone fun d => c.rank ((c.after partials redBarrier sum sched (T + d)).pc i) :=
    antitone_nat_of_succ_le hle
  have hzero := hanti hde
  dsimp only at hzero
  omega

include hzero hsched in
theorem eventually_past (partials : Nat → Int32) (sum : Nat → Int32)
    (hfair : ∀ i < c.numCores, ∀ t, ∃ u, t ≤ u ∧ sched u = i) :
    ∃ t, ∀ i < c.numCores, Past (c.after partials redBarrier sum sched t) i := by
  have hall : ∀ n ≤ c.numCores,
      ∃ t, ∀ i < n, Past (c.after partials redBarrier sum sched t) i := by
    intro n
    induction n with
    | zero => exact fun _ => ⟨0, fun i hi => absurd hi (Nat.not_lt_zero i)⟩
    | succ n ih =>
        intro hn
        obtain ⟨t, ht⟩ := ih (Nat.le_of_succ_le hn)
        obtain ⟨u, htu, hu⟩ := eventually_of_rank (c := c) partials redBarrier sum (hfair n hn) t
          (fun u => Past (c.after partials redBarrier sum sched u) n) fun u _ hmove hnot => by
            obtain ⟨a, st, h⟩ := inv_after partials sum hzero hsched u
            change c.rank ((c.step partials _ (sched u)).pc n) < _
            rw [hmove]
            exact rank_step h hn (fun hpc => absurd (.inl hpc) hnot) fun hpc => hnot (.inr hpc)
        refine ⟨u, fun i hi => ?_⟩
        rcases Nat.lt_succ_iff_lt_or_eq.mp hi with hlt | rfl
        · exact past_mono htu (ht i hlt)
        · exact hu
  exact hall c.numCores (Nat.le_refl _)

theorem done_mono {t u : Nat} (htu : t ≤ u)
    (h : (c.after partials redBarrier sum sched t).pc i = .done) :
    (c.after partials redBarrier sum sched u).pc i = .done := by
  induction htu with
  | refl => exact h
  | @step u _ ih =>
      change (c.step partials _ (sched u)).pc i = .done
      by_cases hmove : i = sched u
      · rw [← hmove]
        simp only [ReductionParams.step, ih]
      · rw [pc_step_other hmove, ih]

include hzero hsched in
/-- If every core keeps moving, all come to the end. -/
theorem eventually_done (partials : Nat → Int32) (sum : Nat → Int32)
    (hfair : ∀ i < c.numCores, ∀ t, ∃ u, t ≤ u ∧ sched u = i) :
    ∃ t, ∀ u, t ≤ u → (c.after partials redBarrier sum sched u).wakes = 1 ∧
      (c.after partials redBarrier sum sched u).sum 0 = blockSum partials c.logCores 0 ∧
      ∀ i < c.numCores, (c.after partials redBarrier sum sched u).pc i = .done := by
  obtain ⟨T, hT⟩ := eventually_past hzero hsched partials sum hfair
  have hpast : ∀ t, T ≤ t → ∀ i < c.numCores,
      Past (c.after partials redBarrier sum sched t) i :=
    fun t ht i hi => past_mono ht (hT i hi)
  have hall : ∀ n ≤ c.numCores, ∃ t, T ≤ t ∧
      ∀ i < n, (c.after partials redBarrier sum sched t).pc i = .done := by
    intro n
    induction n with
    | zero => exact fun _ => ⟨T, Nat.le_refl T, fun i hi => absurd hi (Nat.not_lt_zero i)⟩
    | succ n ih =>
        intro hn
        obtain ⟨t, hTt, ht⟩ := ih (Nat.le_of_succ_le hn)
        obtain ⟨u, htu, hu⟩ := eventually_of_rank (c := c) partials redBarrier sum (hfair n hn) t
          (fun u => (c.after partials redBarrier sum sched u).pc n = .done)
          fun u htu hmove hnot => by
            obtain ⟨a, st, h⟩ := inv_after partials sum hzero hsched u
            change c.rank ((c.step partials _ (sched u)).pc n) < _
            rw [hmove]
            exact rank_step h hn ((h.all_past (hpast u (by omega))).2.2 n hn) hnot
        refine ⟨u, by omega, fun i hi => ?_⟩
        rcases Nat.lt_succ_iff_lt_or_eq.mp hi with hlt | rfl
        · exact done_mono htu (ht i hlt)
        · exact hu
  obtain ⟨t, hTt, ht⟩ := hall c.numCores (Nat.le_refl _)
  refine ⟨t, fun u htu => ?_⟩
  obtain ⟨a, st, h⟩ := inv_after partials sum hzero hsched u
  obtain ⟨hwakes, hsum, -⟩ := h.all_past (hpast u (by omega))
  exact ⟨hwakes, hsum, fun i hi => done_mono htu (ht i hi)⟩

end Run

end ReductionConfig

/-- The sum of all partial sums. -/
def totalSum (partials : Nat → Int32) (numCores : Nat) : Int32 :=
  ((List.range numCores).map partials).sum

open ReductionConfig in
/-- The reduction, for any interleaving of the cores. When `wake_up_all` is called, which
happens once, the sum is there, the counters are all zeros and everybody else is at the WFI;
if every core keeps moving all cores return. A partial sum that is read is that of a whole
block, whose cores have all stored theirs. All counters are in the array and one counter
serves one block of one step. Two blocks add up a common word only if one is part of the other,
and then the word is the accumulator of the smaller one; two cores never do at the same time. -/
theorem binary_reduction (c : ReductionConfig) (partials : Nat → Int32) (redBarrier : Nat → Nat)
    (sum : Nat → Int32) (sched : Nat → Nat)
    (hzero : ∀ e < c.numCores * c.bankingFactor, redBarrier e = 0)
    (hsched : ∀ t, sched t < c.numCores) :
    (∀ t, (c.after partials redBarrier sum sched t).pc (sched t) = .wakeUpAll →
      (c.after partials redBarrier sum sched t).sum 0 = totalSum partials c.numCores ∧
      (∀ e < c.numCores * c.bankingFactor,
        (c.after partials redBarrier sum sched t).redBarrier e = 0) ∧
      ∀ i < c.numCores, i ≠ sched t → (c.after partials redBarrier sum sched t).pc i = .wfi) ∧
    (∀ t u, (c.after partials redBarrier sum sched t).pc (sched t) = .wakeUpAll →
      (c.after partials redBarrier sum sched u).pc (sched u) = .wakeUpAll → t = u) ∧
    ((∀ i < c.numCores, ∀ t, ∃ u, t ≤ u ∧ sched u = i) →
      ∃ t, ∀ u, t ≤ u → (c.after partials redBarrier sum sched u).wakes = 1 ∧
        (c.after partials redBarrier sum sched u).sum 0 = totalSum partials c.numCores ∧
        ∀ i < c.numCores, (c.after partials redBarrier sum sched u).pc i = .done) ∧
    (∀ t, ∀ i < c.numCores, ∀ e, c.read (c.after partials redBarrier sum sched t) i = some e →
      ∃ l b, e = b * 2 ^ l * c.bankingFactor ∧
        (c.after partials redBarrier sum sched t).sum e = blockSum partials l b ∧
        ∀ j < c.numCores, j / 2 ^ l = b →
          (c.after partials redBarrier sum sched t).pc j ≠ .store) ∧
    (∀ t, ∀ i < c.numCores, ∀ step e,
      c.counterAccess (c.after partials redBarrier sum sched t) i = some (step, e) →
        e < c.numCores * c.bankingFactor) ∧
    (∀ t u, ∀ i < c.numCores, ∀ j < c.numCores, ∀ step step' e,
      c.counterAccess (c.after partials redBarrier sum sched t) i = some (step, e) →
      c.counterAccess (c.after partials redBarrier sum sched u) j = some (step', e) →
        step = step' ∧ i / step = j / step') ∧
    (∀ t u, ∀ i < c.numCores, ∀ j < c.numCores, ∀ step step' words words',
      c.adding (c.after partials redBarrier sum sched t) i = some (step, words) →
      c.adding (c.after partials redBarrier sum sched u) j = some (step', words') →
        ∀ e ∈ words, e ∈ words' → step ≤ step' → i / step' = j / step' ∧
          (step < step' → e = i / step * step * c.bankingFactor)) ∧
    (∀ t, ∀ i < c.numCores, ∀ j < c.numCores, i ≠ j → ∀ step step' words words',
      c.adding (c.after partials redBarrier sum sched t) i = some (step, words) →
      c.adding (c.after partials redBarrier sum sched t) j = some (step', words') →
        ∀ e ∈ words, e ∉ words') := by
  have htotal : blockSum partials c.logCores 0 = totalSum partials c.numCores := by
    rw [blockSum, totalSum, Nat.zero_mul, ← c.numCores_eq, List.range_eq_range']
  have hinv := inv_after partials sum hzero hsched
  refine ⟨?_, fun t u ht hu => wake_unique hzero hsched ht hu, ?_, ?_, ?_, ?_, ?_, ?_⟩
  · intro t hpc
    obtain ⟨a, st, h⟩ := hinv t
    have hpos := h.climb_of_wakeUpAll (hsched t) hpc
    obtain ⟨hsum, hsleep⟩ := h.at_top (hsched t) hpos hpc
    exact ⟨hsum.trans htotal, h.counters_zero (hsched t) hpos, hsleep⟩
  · intro hfair
    obtain ⟨t, ht⟩ := eventually_done hzero hsched partials sum hfair
    rw [htotal] at ht
    exact ⟨t, ht⟩
  · intro t i hi e hread
    obtain ⟨a, st, h⟩ := hinv t
    exact h.read_eq hi hread
  · intro t i hi step e hacc
    obtain ⟨a, st, h⟩ := hinv t
    obtain ⟨l, hl, -, rfl⟩ := h.counterAccess_eq hi hacc
    exact counterIdx_lt hl (c.shape.isBlock_core (size_of_core hi))
  · intro t u i hi j hj step step' e hacc hacc'
    obtain ⟨a, st, h⟩ := hinv t
    obtain ⟨a', st', h'⟩ := hinv u
    obtain ⟨l, hl, rfl, he⟩ := h.counterAccess_eq hi hacc
    obtain ⟨m, hm, rfl, he'⟩ := h'.counterAccess_eq hj hacc'
    obtain ⟨rfl, hb⟩ := counterIdx_inj (he.symm.trans he')
    exact ⟨rfl, hb⟩
  · intro t u i hi j hj step step' words words' hadd hadd' e he he' hle
    obtain ⟨a, st, h⟩ := hinv t
    obtain ⟨a', st', h'⟩ := hinv u
    obtain ⟨l, hl, rfl, -, -, rfl⟩ := h.adding_eq hi hadd
    obtain ⟨m, hm, rfl, -, -, rfl⟩ := h'.adding_eq hj hadd'
    have hlm : l ≤ m := by
      have := (Nat.pow_le_pow_iff_right Nat.one_lt_two).mp hle
      omega
    obtain ⟨k, hk, rfl⟩ : ∃ k, k / 2 = i / 2 ^ (l + 1) ∧ e = c.word l k := by
      rcases List.mem_pair.mp he with rfl | rfl
      · exact ⟨_, by omega, rfl⟩
      · exact ⟨_, by omega, rfl⟩
    obtain ⟨k', hk', heq⟩ : ∃ k', k' / 2 = j / 2 ^ (m + 1) ∧ c.word l k = c.word m k' := by
      rcases List.mem_pair.mp he' with h | h
      · exact ⟨_, by omega, h⟩
      · exact ⟨_, by omega, h⟩
    obtain ⟨hblock, hacc⟩ := shared_word hlm heq
    refine ⟨?_, fun hlt => ?_⟩
    · have hsize : 2 ^ (m + 1) = 2 ^ (l + 1) * 2 ^ (m - l) := by
        rw [← Nat.pow_add]
        congr 1
        omega
      rw [← hk', ← hblock, hk, Nat.div_div_eq_div_mul, ← hsize]
    · have := (Nat.pow_lt_pow_iff_right Nat.one_lt_two).mp hlt
      rw [hacc (by omega), hk]
  · intro t i hi j hj hij step step' words words' hadd hadd'
    obtain ⟨a, st, h⟩ := hinv t
    exact h.adding_disjoint hi hj hij hadd hadd'

def fourCores : ReductionConfig where
  numCores := 4
  bankingFactor := 4
  logCores := 2
  numCores_eq := by decide
  bankingFactor_pos := by decide
  fits := by decide

/-- The cores take turns. -/
theorem binary_reduction_turns :
    ∃ t, ∀ u, t ≤ u →
      (fourCores.after (fun i => BitVec.ofNat 32 (i + 1)) (fun _ => 0) (fun _ => 7)
        (fun t => t % 4) u).sum 0 = 10 := by
  have hfair : ∀ i < fourCores.numCores, ∀ t, ∃ u, t ≤ u ∧ u % 4 = i := by
    intro i hi t
    refine ⟨4 * t + i, by omega, ?_⟩
    rw [Nat.mul_add_mod]
    exact Nat.mod_eq_of_lt hi
  obtain ⟨t, ht⟩ := (binary_reduction fourCores (fun i => BitVec.ofNat 32 (i + 1)) (fun _ => 0)
    (fun _ => 7) (fun t => t % 4) (fun _ _ => rfl) fun t => Nat.mod_lt t (by decide)).2.2.1 hfair
  exact ⟨t, fun u hu => (ht u hu).2.1⟩

/-- The turns of a run in which cores 1 and 3 come first. -/
def oddCoresFirst (t : Nat) : Nat := [1, 1, 0, 0, 0, 0, 0, 0, 0, 3, 3, 2, 2, 2, 2, 2, 2, 2].getD t 0

/-- The first block of two cores and the block of all cores add into the same word. -/
theorem binary_reduction_shares_word :
    ¬ ∀ t u, ∀ i < 4, ∀ j < 4, ∀ step step' words words',
      fourCores.adding (fourCores.after (fun _ => 1) (fun _ => 0) (fun _ => 0) oddCoresFirst t) i =
        some (step, words) →
      fourCores.adding (fourCores.after (fun _ => 1) (fun _ => 0) (fun _ => 0) oddCoresFirst u) j =
        some (step', words') →
      ∀ e ∈ words, e ∈ words' → step = step' ∧ i / step = j / step' := by
  intro h
  have hfirst : fourCores.adding
      (fourCores.after (fun _ => 1) (fun _ => 0) (fun _ => 0) oddCoresFirst 4) 0 =
        some (2, [0, 4]) := by rfl
  have hall : fourCores.adding
      (fourCores.after (fun _ => 1) (fun _ => 0) (fun _ => 0) oddCoresFirst 18) 2 =
        some (4, [0, 8]) := by rfl
  have hstep := (h 4 18 0 (by decide) 2 (by decide) _ _ _ _ hfirst hall 0 (by decide)
    (by decide)).1
  exact absurd hstep (by decide)

end TeraNoC.Kernels
