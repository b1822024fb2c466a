import TeraNoC.Lib.Ring
import TeraNoC.Proofs.LinLogBarrier
import TeraNoC.Proofs.PartialBarrier

/-!
# The log partial barriers of disjoint blocks

Every aligned block of cores that calls `mempool_log_partial_barrier` climbs its
own part of the tree of `mempool_log_barrier`. So each block is a combining tree of
its own, with the elements of `log_barrier` between four times its first and four
times its last core, and a step of a core is a step in the tree of its block, or
none, and leaves the other trees as they are (`Sim.step`, `Sim.frame`).

The wake-up of a block is one write to a control register, or one for each core. In
the tree everybody is woken at the first of them; the core that is still writing
counts as asleep there, with a wake-up to be found (`PcSim.loop`).

The blocks are woken as they should be if `BlockOk` holds of them. What it excludes
are blocks of tiles in a group beyond the eighth, which `wake_up_tile` does not
know, and masks that the register has no room for.
-/

namespace TeraNoC.Runtime

open TeraNoC.Hw TeraNoC.Lib.CombiningTree

/-- A cluster whose sizes are powers of two, and the size of the blocks. -/
structure LogPartialConfig extends Cluster where
  logCoresPerTile : Nat
  logTilesPerGroup : Nat
  logGroups : Nat
  logBlock : Nat
  numCoresPerTile_eq : numCoresPerTile = 2 ^ logCoresPerTile
  numTilesPerGroup_eq : numTilesPerGroup = 2 ^ logTilesPerGroup
  numGroups_eq : numGroups = 2 ^ logGroups
  logGroups_le : logGroups ≤ 4
  logBlock_pos : 1 ≤ logBlock
  logBlock_le : logBlock ≤ logCoresPerTile + logTilesPerGroup + logGroups

/-- The blocks that are woken as they should be. -/
def BlockOk (w : WakeParams) (block first : Nat) : Prop :=
  block < w.numCoresPerTile ∨ w.numCoresPerGroup ≤ block ∨
  (first / w.numCoresPerGroup < 8 ∧ block / w.numCoresPerTile < 32 ∧
    first / w.numCoresPerTile % w.numTilesPerGroup + block / w.numCoresPerTile ≤ 32)

namespace LogPartialConfig

variable (c : LogPartialConfig)

def logCores : Nat := c.logCoresPerTile + c.logTilesPerGroup + c.logGroups

def block : Nat := 2 ^ c.logBlock

theorem numCores_eq : c.numCores = 2 ^ c.logCores := by
  rw [WakeParams.numCores, WakeParams.numCoresPerGroup, c.numCoresPerTile_eq,
    c.numTilesPerGroup_eq, c.numGroups_eq, ← Nat.pow_add, ← Nat.pow_add]
  rfl

/-- The log barrier of all cores. -/
def whole : LogBarrierConfig where
  numCores := c.numCores
  linear := false
  firstStep := 2
  logCores := c.logCores
  logStep := 1
  numCores_eq := c.numCores_eq
  fits := by
    have := c.fits
    omega
  firstStep_eq := rfl
  logStep_pos := Nat.le_refl _
  logStep_le := Nat.le_trans c.logBlock_pos c.logBlock_le
  leaves _ := rfl

theorem block_pos : 0 < c.block := Nat.two_pow_pos _

theorem block_dvd : c.block ∣ c.numCores := by
  rw [c.numCores_eq]
  exact Nat.pow_dvd_pow 2 c.logBlock_le

/-- The tree of one block. -/
def shape : Shape where
  width := c.whole.width
  depth := c.logBlock
  width_zero := rfl
  width_dvd l hl := c.whole.shape.width_dvd l (by
    have := c.logBlock_le
    show l < c.logCores - 1 + 1
    rw [logCores]
    omega)
  width_lt l hl := c.whole.shape.width_lt l (by
    have := c.logBlock_le
    show l < c.logCores - 1 + 1
    rw [logCores]
    omega)

theorem depth_le : c.shape.depth ≤ c.whole.shape.depth := by
  have hle := c.logBlock_le
  show c.logBlock ≤ c.logCores - 1 + 1
  rw [logCores]
  omega

theorem depth_pos : 0 < c.shape.depth := c.logBlock_pos

theorem size_eq : c.shape.size = c.block := by
  obtain ⟨m, hm⟩ : ∃ m, c.logBlock = m + 1 := ⟨c.logBlock - 1, by have := c.logBlock_pos; omega⟩
  show c.whole.width c.logBlock = 2 ^ c.logBlock
  rw [hm]
  show 2 ^ (1 + m) = 2 ^ (m + 1)
  rw [Nat.add_comm]

theorem width_dvd_block {l : Nat} (hl : l ≤ c.shape.depth) : c.shape.width l ∣ c.block := by
  rw [← c.size_eq]
  exact c.shape.width_dvd_of_le hl (Nat.le_refl _)

/-! ## The cores and counters of a block -/

/-- Core `j` of block `B`. -/
def core (B j : Nat) : Nat := c.block * B + j

variable {c} {B B' i j l m x y : Nat}

theorem core_div (hj : j < c.block) : c.core B j / c.block = B := by
  rw [core, Nat.mul_add_div c.block_pos, Nat.div_eq_of_lt hj, Nat.add_zero]

theorem core_inj (hj : j < c.block) (hi : i < c.block) (h : c.core B j = c.core B' i) :
    B = B' ∧ j = i :=
  Lib.Ring.word_inj hj hi h

/-- Every core is one of its block. -/
theorem core_eq (c : LogPartialConfig) (i : Nat) : c.core (i / c.block) (i % c.block) = i :=
  Nat.div_add_mod i c.block

/-- A block that has one core of the cluster has all its cores there. -/
theorem block_end (hB : c.core B 0 < c.numCores) : c.block * B + c.block ≤ c.numCores := by
  obtain ⟨k, hk⟩ := c.block_dvd
  rw [core, Nat.add_zero, hk] at hB
  have := Nat.mul_le_mul_left c.block (Nat.lt_of_mul_lt_mul_left hB)
  rw [Nat.mul_succ] at this
  omega

theorem core_lt (hB : c.core B 0 < c.numCores) (hj : j < c.block) : c.core B j < c.numCores := by
  have := block_end hB
  rw [core]
  omega

theorem coreInit_eq (hB : c.core B 0 < c.numCores) (hj : j < c.block) :
    LogPartialState.coreInit c.block (c.core B j) = c.block * B := by
  have := c.fits
  have := block_end hB
  rw [LogPartialState.coreInit, core_div hj, u32_eq (by omega)]

theorem coreEnd_eq (hB : c.core B 0 < c.numCores) (hj : j < c.block) :
    LogPartialState.coreEnd c.block (c.core B j) = c.block * B + c.block := by
  have := c.fits
  have := block_end hB
  rw [LogPartialState.coreEnd, coreInit_eq hB hj, u32_eq (by omega)]

theorem call_eq (hB : c.core B 0 < c.numCores) (hj : j < c.block) (step : Nat) :
    LogPartialState.call c.block (c.core B j) step = .add step := by
  rw [LogPartialState.call, coreInit_eq hB hj, coreEnd_eq hB hj, core, if_pos (by omega)]

/-- A block of the whole tree within the block. -/
theorem core_div_width (hl : l ≤ c.shape.depth) (j : Nat) :
    c.core B j / c.shape.width l = c.block / c.shape.width l * B + j / c.shape.width l := by
  obtain ⟨k, hk⟩ := c.width_dvd_block hl
  have hpos := c.shape.width_pos l hl
  rw [core, hk, Nat.mul_div_cancel_left _ hpos, Nat.mul_assoc, Nat.mul_add_div hpos]

variable (c) in
/-- The element of `log_barrier` for block `x` of level `l + 1` of the tree of `B`. -/
def slot (l B x : Nat) : Nat := c.whole.place l (c.block / c.shape.width (l + 1) * B + x)

theorem counter_eq (hB : c.core B 0 < c.numCores) (hj : j < c.block) (hl : l < c.shape.depth) :
    LogBarrierParams.counter (c.shape.width (l + 1)) (c.core B j)
      = c.slot l B (j / c.shape.width (l + 1)) := by
  have hdepth := c.depth_le
  rw [slot, ← core_div_width hl]
  exact LogBarrierConfig.counter_eq (by omega) (core_lt hB hj)

theorem isBlock_lt (hl : l < c.shape.depth) (hx : c.shape.IsBlock (l + 1) x) :
    x < c.block / c.shape.width (l + 1) := by
  rw [Shape.IsBlock, c.size_eq] at hx
  obtain ⟨k, hk⟩ := c.width_dvd_block hl
  have hpos := c.shape.width_pos (l + 1) hl
  rw [hk, Nat.mul_div_cancel_left _ hpos]
  rw [hk, Nat.mul_comm] at hx
  exact Nat.lt_of_mul_lt_mul_left hx

theorem slot_inj (hl : l < c.shape.depth) (hx : c.shape.IsBlock (l + 1) x)
    (hm : m < c.shape.depth) (hy : c.shape.IsBlock (m + 1) y) (h : c.slot l B x = c.slot m B' y) :
    l = m ∧ B = B' ∧ x = y := by
  obtain ⟨rfl, hpos⟩ := c.whole.place_inj h
  have hx' := isBlock_lt hl hx
  have hy' := isBlock_lt hm hy
  exact ⟨rfl, Lib.Ring.word_inj hx' hy' hpos⟩

/-- The counters of a block are among its own elements. -/
theorem slot_range (hl : l < c.shape.depth) (hx : c.shape.IsBlock (l + 1) x) :
    4 * (c.block * B) ≤ c.slot l B x ∧ c.slot l B x < 4 * (c.block * B + c.block) := by
  obtain ⟨k, hk⟩ := c.width_dvd_block (show l + 1 ≤ c.shape.depth from hl)
  have hpos := c.shape.width_pos (l + 1) hl
  have hx' := isBlock_lt hl hx
  have hhalf : 0 < c.shape.width (l + 1) >>> 1 := by
    rw [show c.shape.width (l + 1) >>> 1 = _ from c.whole.width_half l]
    exact Nat.two_pow_pos _
  have hend := c.shape.isBlock_end (show l + 1 ≤ c.shape.depth from hl) hx
  rw [c.size_eq, Nat.add_mul, Nat.one_mul, Nat.mul_comm] at hend
  have hbase : c.shape.width (l + 1) * (c.block / c.shape.width (l + 1) * B + x)
      = c.block * B + c.shape.width (l + 1) * x := by
    rw [Nat.mul_add, ← Nat.mul_assoc, Nat.mul_div_cancel' (Dvd.intro k hk.symm)]
  have hslot : c.slot l B x
      = 4 * (c.block * B + c.shape.width (l + 1) * x) + c.shape.width (l + 1) >>> 1 - 1 := by
    rw [← hbase]
    rfl
  omega

/-! ## Whom the writes wake -/

/-- A write that wakes the cores of one block and no others. -/
def Exactly (c : LogPartialConfig) (B : Nat) (x : CtrlWrite) : Prop :=
  ∀ k < c.numCores, c.wakes x k = decide (k / c.block = B)

theorem exactly_all (h : c.numCores ≤ c.block) (hB : c.core B 0 < c.numCores) :
    c.Exactly B (.wakeUp allCores) := by
  intro k hk
  have hend := block_end hB
  have hB0 : B = 0 := by
    by_contra hne
    have := Nat.le_mul_of_pos_right c.block (Nat.pos_of_ne_zero hne)
    omega
  rw [PlainState.allCores_wakes, hB0, Nat.div_eq_of_lt (by omega)]
  rfl

theorem exactly_group (h : c.numCoresPerGroup ≤ c.block) (hB : c.core B 0 < c.numCores)
    (hj : j < c.block) :
    c.Exactly B (LogPartialState.groupWrite c.toWakeParams c.block (c.core B j)) := by
  intro k hk
  have hend := block_end hB
  have hG : c.numGroups ≤ 16 := by
    rw [c.numGroups_eq]
    exact Nat.pow_le_pow_right (by decide) c.logGroups_le
  have hpos : 0 < c.numCoresPerGroup :=
    Nat.mul_pos c.numCoresPerTile_pos c.numTilesPerGroup_pos
  obtain ⟨q, hq⟩ : c.numCoresPerGroup ∣ c.block := by
    have heq : c.numCoresPerGroup = 2 ^ (c.logCoresPerTile + c.logTilesPerGroup) := by
      rw [WakeParams.numCoresPerGroup, c.numCoresPerTile_eq, c.numTilesPerGroup_eq, ← Nat.pow_add]
    rw [heq, block] at h
    rw [heq, block]
    exact Nat.pow_dvd_pow 2 ((Nat.pow_le_pow_iff_right (by decide)).mp h)
  have hq0 : 0 < q := by
    rcases Nat.eq_zero_or_pos q with h0 | h0
    · rw [h0, Nat.mul_zero] at hq
      have := c.block_pos
      omega
    · exact h0
  have hinit : c.block * B / c.numCoresPerGroup = q * B := by
    rw [hq, Nat.mul_assoc, Nat.mul_div_cancel_left _ hpos]
  have hlast : (c.block * B + c.block) / c.numCoresPerGroup = q * B + q := by
    rw [hq, Nat.mul_assoc, ← Nat.mul_add, Nat.mul_div_cancel_left _ hpos]
  have hle : q * B + q ≤ c.numGroups := by
    rw [← hlast]
    refine Nat.le_trans (Nat.div_le_div_right hend) ?_
    rw [WakeParams.numCores, Nat.mul_div_cancel_left _ hpos]
  have hfits : bitMask q (q * B) ≤ 2 ^ c.numGroups - 1 := bitMask_le (by omega) (by omega) hle
  have hdiv : k / c.block = k / c.numCoresPerGroup / q := by rw [hq, Nat.div_div_eq_div_mul]
  simp only [LogPartialState.groupWrite]
  rw [coreInit_eq hB hj, coreEnd_eq hB hj, hinit, hlast, sub32_eq (by omega) (by omega),
    Nat.add_sub_cancel_left, WakeParams.wakes, if_pos hfits, WakeParams.wakeUpGroups,
    testBit_bitMask (by omega) (by omega), decide_eq_decide, hdiv, div_eq_iff_block hq0]
  omega

theorem exactly_tile (h : c.numCoresPerTile ≤ c.block) (hgroup : c.block < c.numCoresPerGroup)
    (hok : BlockOk c.toWakeParams c.block (c.block * B)) (hB : c.core B 0 < c.numCores)
    (hj : j < c.block) :
    c.Exactly B (LogPartialState.tileWrite c.toWakeParams c.block (c.core B j)) := by
  intro k hk
  have hend := block_end hB
  have hfits := c.fits
  have hpos := c.numCoresPerTile_pos
  have hT := c.numTilesPerGroup_pos
  rw [c.numCoresPerTile_eq, block, Nat.pow_le_pow_iff_right (by decide)] at h
  obtain ⟨d, hd⟩ : c.numCoresPerTile ∣ c.block := by
    rw [c.numCoresPerTile_eq, block]
    exact Nat.pow_dvd_pow 2 h
  have hdlt : d < c.numTilesPerGroup := by
    rw [WakeParams.numCoresPerGroup, hd] at hgroup
    exact Nat.lt_of_mul_lt_mul_left hgroup
  have hd0 : 0 < d := by
    rcases Nat.eq_zero_or_pos d with h0 | h0
    · rw [h0, Nat.mul_zero] at hd
      have := c.block_pos
      omega
    · exact h0
  have hdpow : d = 2 ^ (c.logBlock - c.logCoresPerTile) := by
    rw [block, c.numCoresPerTile_eq] at hd
    rw [← Nat.pow_div h (by decide), hd, Nat.mul_div_cancel_left _ (Nat.two_pow_pos _)]
  -- a group is a number of such blocks of tiles
  obtain ⟨e, he⟩ : d ∣ c.numTilesPerGroup := by
    rw [hdpow, c.numTilesPerGroup_eq] at hdlt ⊢
    exact Nat.pow_dvd_pow 2 (Nat.le_of_lt ((Nat.pow_lt_pow_iff_right (by decide)).mp hdlt))
  have hinit : c.block * B / c.numCoresPerTile = d * B := by
    rw [hd, Nat.mul_assoc, Nat.mul_div_cancel_left _ hpos]
  have hlast : (c.block * B + c.block) / c.numCoresPerTile = d * B + d := by
    rw [hd, Nat.mul_assoc, ← Nat.mul_add, Nat.mul_div_cancel_left _ hpos]
  have hle : d * B + d ≤ c.numTilesPerGroup * c.numGroups := by
    rw [← hlast]
    refine Nat.le_trans (Nat.div_le_div_right hend) ?_
    rw [WakeParams.numCores, WakeParams.numCoresPerGroup, Nat.mul_assoc,
      Nat.mul_div_cancel_left _ hpos]
  have hinside : d * B % c.numTilesPerGroup + d ≤ c.numTilesPerGroup := by
    have he0 : 0 < e := by
      rcases Nat.eq_zero_or_pos e with h0 | h0
      · rw [h0, Nat.mul_zero] at he
        omega
      · exact h0
    have := Nat.mul_le_mul_left d (Nat.succ_le_of_lt (Nat.mod_lt B he0))
    rw [Nat.mul_succ] at this
    rw [he, Nat.mul_mod_mul_left]
    exact this
  have hregister : d * B / c.numTilesPerGroup < 8 ∧ d < 32 ∧
      d * B % c.numTilesPerGroup + d ≤ 32 := by
    have hblock : c.block / c.numCoresPerTile = d := by rw [hd, Nat.mul_div_cancel_left _ hpos]
    rcases hok with hok | hok | ⟨hok8, hok32, hoksum⟩
    · rw [c.numCoresPerTile_eq, block] at hok
      exact absurd ((Nat.pow_lt_pow_iff_right (by decide)).mp hok) (Nat.not_lt.mpr h)
    · omega
    · rw [WakeParams.numCoresPerGroup, ← Nat.div_div_eq_div_mul, hinit] at hok8
      rw [hinit, hblock] at hoksum
      rw [hblock] at hok32
      exact ⟨hok8, hok32, hoksum⟩
  have hexact := (@exact_short c.toWakeParams (d * B) (d * B + d) hT (by omega) hle).mpr (by omega)
  have htile : k / c.numCoresPerTile < c.numTilesPerGroup * c.numGroups := by
    rw [Nat.div_lt_iff_lt_mul hpos, Nat.mul_comm _ c.numCoresPerTile, ← Nat.mul_assoc]
    exact hk
  have hwoken := hexact _ htile
  rw [Nat.add_sub_cancel_left, tileWoken_singleton] at hwoken
  have hdm : d * B ≤ c.numCoresPerTile * d * B :=
    Nat.mul_le_mul_right _ (Nat.le_mul_of_pos_left _ hpos)
  rw [← hd] at hdm
  have hdiv : k / c.block = k / c.numCoresPerTile / d := by rw [hd, Nat.div_div_eq_div_mul]
  simp only [LogPartialState.tileWrite]
  rw [coreInit_eq hB hj, coreEnd_eq hB hj, hinit, hlast,
    sub32_eq (by omega) (by have := Nat.le_mul_of_pos_left d hpos; omega), Nat.add_sub_cancel_left,
    wakes_eq_tileWakes (isMask_tile _ _), Bool.eq_iff_iff, decide_eq_true_eq, hdiv,
    div_eq_iff_block hd0]
  split at hwoken <;> split at hwoken <;> simp_all

/-! ## A block is a tree -/

variable (c) in
/-- Where the last core of block `B` begins the wake-up. -/
def entry (B : Nat) : LogPartialPc :=
  if c.block ≥ c.numCores then .wakeUpAll
  else if c.block ≥ c.numCoresPerGroup then .wakeUpGroup
  else if c.block ≥ c.numCoresPerTile then .wakeUpTile
  else .wakeUp (c.block * B)

theorem entry_cases (c : LogPartialConfig) (B : Nat) :
    c.entry B = .wakeUpAll ∨ c.entry B = .wakeUpGroup ∨ c.entry B = .wakeUpTile ∨
      c.entry B = .wakeUp (c.block * B) := by
  rw [entry]
  split
  · exact .inl rfl
  · split
    · exact .inr (.inl rfl)
    · split
      · exact .inr (.inr (.inl rfl))
      · exact .inr (.inr (.inr rfl))

theorem wakeEntry_eq (hB : c.core B 0 < c.numCores) (hj : j < c.block) :
    LogPartialState.wakeEntry c.toWakeParams c.block (c.core B j) = c.entry B := by
  have := c.block_pos
  rw [LogPartialState.wakeEntry, entry, coreInit_eq hB hj, coreEnd_eq hB hj,
    LogPartialState.wakeLoop, if_pos (by omega : c.block * B < c.block * B + c.block)]

inductive PcSim (c : LogPartialConfig) (B : Nat) : LogPartialPc → Pos → Prop where
  | idle : PcSim c B .idle .idle
  | add (l : Nat) (hl : l < c.shape.depth) : PcSim c B (.add (c.shape.width (l + 1))) (.climb l)
  | store (l : Nat) (hl : l < c.shape.depth) :
      PcSim c B (.store (c.shape.width (l + 1))) (.clear l)
  | entry : PcSim c B (c.entry B) (.climb c.shape.depth)
  | loop (f : Nat) (hf : 0 < f) (hfb : f < c.block) : PcSim c B (.wakeUp (c.core B f)) .wfi
  | wfi : PcSim c B .wfi .wfi

/-- The elements of the array that are the block's own. -/
def Own (c : LogPartialConfig) (B e : Nat) : Prop :=
  4 * (c.block * B) ≤ e ∧ e < 4 * (c.block * B + c.block)

theorem own_core (hj : j < c.block) : ∀ k < c.block, c.core B k = c.core B j → k = j :=
  fun _ hk he => (core_inj hk hj he).2

theorem own_slot (hl : l < c.shape.depth) (hx : c.shape.IsBlock (l + 1) x) :
    ∀ m < c.shape.depth, ∀ y, c.shape.IsBlock (m + 1) y → c.slot m B y = c.slot l B x →
      m = l ∧ y = x := by
  intro m hm y hy he
  obtain ⟨hml, -, hyx⟩ := slot_inj hm hy hl hx he
  exact ⟨hml, hyx⟩

/-- The core that is waking the block and the next it is going to wake, if there is one. -/
def owed : Option (Nat × Nat) → Nat → Nat
  | none, _ => 0
  | some (_, f), j => if f ≤ j then 1 else 0

structure Front (c : LogPartialConfig) (B : Nat) (pc : Nat → LogPartialPc) (a : State)
    (r : Option (Nat × Nat)) : Prop where
  looping : ∀ j < c.block, ∀ f, 0 < f → pc (c.core B j) = .wakeUp (c.core B f) → r = some (j, f)
  front : ∀ k f, r = some (k, f) → k < c.block ∧ 0 < f ∧ f < c.block ∧
    pc (c.core B k) = .wakeUp (c.core B f) ∧ a.tokens k = 1 ∧ 0 < a.wakes

structure Sim (c : LogPartialConfig) (B : Nat) (s : LogPartialState) (a : State)
    (r : Option (Nat × Nat)) : Prop where
  pc : ∀ j < c.block, PcSim c B (s.pc (c.core B j)) (a.pos j)
  tokens : ∀ j < c.block, s.tokens (c.core B j) + owed r j = a.tokens j
  entered : ∀ j < c.block, s.entered (c.core B j) = a.entered j
  wakes : s.wakes B = a.wakes
  woken : ∀ j < c.block, s.woken (c.core B j) = (List.range (a.wakes - owed r j)).map (Prod.mk B)
  mem : InArray c.shape (c.slot · B) (c.Own B) s.logBarrier a.count
  front : Front c B s.pc a r

/-! ### Other blocks -/

/-- The part of a state that belongs to a block. -/
structure Same (c : LogPartialConfig) (B : Nat) (s s' : LogPartialState) : Prop where
  pc : ∀ j < c.block, s'.pc (c.core B j) = s.pc (c.core B j)
  tokens : ∀ j < c.block, s'.tokens (c.core B j) = s.tokens (c.core B j)
  entered : ∀ j < c.block, s'.entered (c.core B j) = s.entered (c.core B j)
  wakes : s'.wakes B = s.wakes B
  woken : ∀ j < c.block, s'.woken (c.core B j) = s.woken (c.core B j)
  mem : ∀ e, 4 * (c.block * B) ≤ e → e < 4 * (c.block * B + c.block) →
    s'.logBarrier e = s.logBarrier e

theorem Sim.same {s s' : LogPartialState} {a : State} {r : Option (Nat × Nat)} (h : Sim c B s a r)
    (hs : Same c B s s') : Sim c B s' a r where
  pc j hj := by rw [hs.pc j hj]; exact h.pc j hj
  tokens j hj := by rw [hs.tokens j hj]; exact h.tokens j hj
  entered j hj := by rw [hs.entered j hj]; exact h.entered j hj
  wakes := by rw [hs.wakes]; exact h.wakes
  woken j hj := by rw [hs.woken j hj]; exact h.woken j hj
  mem :=
    { count := fun l hl x hx => by
        rw [hs.mem _ (slot_range hl hx).1 (slot_range hl hx).2]
        exact h.mem.count l hl x hx
      rest := fun e he hne => by
        rw [hs.mem e he.1 he.2]
        exact h.mem.rest e he hne }
  front :=
    { looping := fun j hj f hf hp => h.front.looping j hj f hf (by rw [← hs.pc j hj]; exact hp)
      front := fun k f hr => by
        obtain ⟨hk, hf, hfb, hp, hrest⟩ := h.front.front k f hr
        exact ⟨hk, hf, hfb, by rw [hs.pc k hk]; exact hp, hrest⟩ }

theorem core_ne (hj : j < c.block) (hi : i < c.block) (hne : B ≠ B') :
    c.core B j ≠ c.core B' i :=
  fun h => hne (core_inj hj hi h).1

theorem slot_ne (hl : l < c.shape.depth) (hx : c.shape.IsBlock (l + 1) x) (hne : B ≠ B') {e : Nat}
    (hlo : 4 * (c.block * B) ≤ e) (hhi : e < 4 * (c.block * B + c.block)) :
    e ≠ c.slot l B' x := by
  rintro rfl
  obtain ⟨hlo', hhi'⟩ := slot_range (B := B') hl hx
  rcases Nat.lt_or_gt_of_ne hne with hlt | hgt
  · have := Nat.mul_le_mul_left c.block (Nat.succ_le_of_lt hlt)
    rw [Nat.mul_succ] at this
    omega
  · have := Nat.mul_le_mul_left c.block (Nat.succ_le_of_lt hgt)
    rw [Nat.mul_succ] at this
    omega

/-! ### Own steps -/

section Step

variable {s : LogPartialState} {a : State} {r : Option (Nat × Nat)} {st : Nat → Nat → Status}

/-- A step of a core that is not waking, and does not become so. -/
theorem Front.update {a' : State} (h : Front c B s.pc a r) (hj : j < c.block)
    (hold : ∀ f, 0 < f → s.pc (c.core B j) ≠ .wakeUp (c.core B f)) {x : LogPartialPc}
    (hnew : ∀ f, 0 < f → x ≠ .wakeUp (c.core B f)) (htok : ∀ k, k ≠ j → a'.tokens k = a.tokens k)
    (hwakes : a'.wakes = a.wakes) : Front c B (Function.update s.pc (c.core B j) x) a' r where
  looping := by
    intro k hk f hf hp
    by_cases hkj : k = j
    · subst hkj
      rw [Function.update_self] at hp
      exact absurd hp (hnew f hf)
    · have hne : c.core B k ≠ c.core B j := fun he => hkj (core_inj hk hj he).2
      rw [Function.update_of_ne hne] at hp
      exact h.looping k hk f hf hp
  front := by
    intro k f hr
    obtain ⟨hk, hf, hfb, hp, ht, hw⟩ := h.front k f hr
    have hkj : k ≠ j := by
      rintro rfl
      exact hold f hf hp
    have hne : c.core B k ≠ c.core B j := fun he => hkj (core_inj hk hj he).2
    rw [Function.update_of_ne hne, htok k hkj, hwakes]
    exact ⟨hk, hf, hfb, hp, ht, hw⟩

theorem entry_ne_loop {f : Nat} (hf : 0 < f) : c.entry B ≠ .wakeUp (c.core B f) := by
  rcases c.entry_cases B with he | he | he | he
  · simp [he]
  · simp [he]
  · simp [he]
  · rw [he, core]
    intro heq
    have := LogPartialPc.wakeUp.inj heq
    omega

theorem Sim.step_idle (h : Sim c B s a r) (hB : c.core B 0 < c.numCores) (hj : j < c.block)
    (hpc : s.pc (c.core B j) = .idle) (hpos : a.pos j = .idle) :
    Sim c B (s.step c.toWakeParams c.block (c.core B j)) (a.step c.shape j) r := by
  simp only [LogPartialState.step, State.step, hpc, hpos, call_eq hB hj]
  refine ⟨forall_update_at (own_core hj) h.pc (.add 0 c.depth_pos), h.tokens, ?_, h.wakes, h.woken,
    h.mem, ?_⟩
  · exact forall_update_at (R := Eq) (own_core hj) h.entered (by rw [h.entered j hj])
  · exact h.front.update hj (by simp [hpc]) (by simp) (fun _ _ => rfl) rfl

theorem Sim.step_wfi (h : Sim c B s a r) (hj : j < c.block)
    (hpc : s.pc (c.core B j) = .wfi) (hpos : a.pos j = .wfi) (htok : 0 < s.tokens (c.core B j)) :
    Sim c B (s.step c.toWakeParams c.block (c.core B j)) (a.step c.shape j) r := by
  have htokens := h.tokens j hj
  simp only [LogPartialState.step, State.step, hpc, hpos, if_pos htok,
    if_pos (by omega : 0 < a.tokens j)]
  refine ⟨forall_update_at (own_core hj) h.pc .idle, ?_, h.entered, h.wakes, h.woken, h.mem, ?_⟩
  · intro k hk
    by_cases hkj : k = j
    · subst hkj
      simp only [Function.update_self]
      omega
    · have hne : c.core B k ≠ c.core B j := fun he => hkj (core_inj hk hj he).2
      simp only [Function.update_of_ne hne, Function.update_of_ne hkj]
      exact h.tokens k hk
  · exact h.front.update hj (by simp [hpc]) (by simp)
      (fun k hkj => Function.update_of_ne hkj _ _) rfl

theorem Sim.step_add (h : Sim c B s a r) (ha : Agrees c.shape a st) (hB : c.core B 0 < c.numCores)
    (hj : j < c.block) (hl : l < c.shape.depth)
    (hpc : s.pc (c.core B j) = .add (c.shape.width (l + 1))) (hpos : a.pos j = .climb l) :
    Sim c B (s.step c.toWakeParams c.block (c.core B j)) (a.step c.shape j) r := by
  have hsize : j < c.shape.size := by rw [c.size_eq]; exact hj
  have hb := c.shape.isBlock_core (l := l + 1) hsize
  have hroom := ha.count_room hsize hl hpos
  have hle : c.shape.width (l + 1) ≤ c.block :=
    Nat.le_of_dvd c.block_pos (c.width_dvd_block hl)
  have hlt := c.shape.width_lt l hl
  have hend := block_end hB
  have hf := c.fits
  have hread := h.mem.count l hl _ hb
  have hhalf : c.shape.width (l + 1) >>> 1 = c.shape.width l :=
    LogBarrierConfig.half_eq (c := c.whole) (by simp [whole])
  have hstep : a.step c.shape j = { a with
      count := set2 a.count l (j / c.shape.width (l + 1))
        (a.count l (j / c.shape.width (l + 1)) + c.shape.width l)
      pos := Function.update a.pos j
        (if a.count l (j / c.shape.width (l + 1)) = c.shape.width (l + 1) - c.shape.width l
          then .clear l else .wfi) } := by
    simp only [State.step, hpos, if_pos hl]
  have hsum : u32 (a.count l (j / c.shape.width (l + 1)) + c.shape.width l)
      = a.count l (j / c.shape.width (l + 1)) + c.shape.width l := u32_eq (by omega)
  rw [hstep]
  simp only [LogPartialState.step, hpc, counter_eq hB hj hl, hread, hhalf, hsum]
  rw [sub32_eq (by omega) (by omega)]
  refine ⟨forall_update_at (own_core hj) h.pc ?_, h.tokens, h.entered, h.wakes, h.woken,
    h.mem.update hl hb (own_slot hl hb) _, ?_⟩
  · by_cases htest : a.count l (j / c.shape.width (l + 1))
        = c.shape.width (l + 1) - c.shape.width l
    · rw [if_pos htest.symm, if_pos htest]
      exact .store l hl
    · rw [if_neg (Ne.symm htest), if_neg htest]
      exact .wfi
  · refine h.front.update hj (by simp [hpc]) ?_ (fun _ _ => rfl) rfl
    intro f _
    split <;> simp

theorem Sim.step_store (h : Sim c B s a r) (hB : c.core B 0 < c.numCores)
    (hj : j < c.block) (hl : l < c.shape.depth)
    (hpc : s.pc (c.core B j) = .store (c.shape.width (l + 1))) (hpos : a.pos j = .clear l) :
    Sim c B (s.step c.toWakeParams c.block (c.core B j)) (a.step c.shape j) r := by
  have hsize : j < c.shape.size := by rw [c.size_eq]; exact hj
  have hb := c.shape.isBlock_core (l := l + 1) hsize
  have hend := block_end hB
  have hf := c.fits
  have hstep : a.step c.shape j = { a with
      count := set2 a.count l (j / c.shape.width (l + 1)) 0
      pos := Function.update a.pos j (.climb (l + 1)) } := by
    simp only [State.step, hpos]
  rw [hstep]
  simp only [LogPartialState.step, hpc, counter_eq hB hj hl, wakeEntry_eq hB hj, call_eq hB hj]
  refine ⟨forall_update_at (own_core hj) h.pc ?_, h.tokens, h.entered, h.wakes, h.woken,
    h.mem.update hl hb (own_slot hl hb) _, ?_⟩
  · rcases Nat.lt_or_eq_of_le (show l + 1 ≤ c.shape.depth from hl) with hlt | htop
    · -- the recursion goes on
      have hwidth := c.shape.width_lt (l + 1) hlt
      have hle : c.shape.width (l + 1 + 1) ≤ c.block :=
        Nat.le_of_dvd c.block_pos (c.width_dvd_block hlt)
      have hdouble : c.shape.width (l + 1) <<< 1 = c.shape.width (l + 1 + 1) :=
        c.whole.width_double l
      rw [if_neg (by omega), hdouble, u32_eq (by omega)]
      exact .add (l + 1) hlt
    · have hblock : c.block = c.shape.width (l + 1) := by rw [htop, ← c.size_eq]; rfl
      rw [if_pos hblock, htop]
      exact .entry
  · refine h.front.update hj (by simp [hpc]) ?_ (fun _ _ => rfl) rfl
    intro f hf'
    split
    · exact entry_ne_loop hf'
    · simp

/-- A wake-up that waits in the tree is for a core that is asleep there. -/
theorem asleep_of_token (ha : Agrees c.shape a st) (hj : j < c.block) (htok : a.tokens j = 1) :
    a.pos j = .wfi ∧ st 0 j = .gathering := by
  have := ha.tokens j (by rw [c.size_eq]; exact hj)
  rw [htok] at this
  by_contra hne
  rw [if_neg hne] at this
  cases this

/-- When a core begins the wake-up, no other is at it. -/
theorem Sim.no_front (h : Sim c B s a r) (ha : Agrees c.shape a st) (hj : j < c.block)
    (hpos : a.pos j = .climb c.shape.depth) : r = none := by
  have hlt : ∀ {k}, k < c.block → k < c.shape.size := fun hk => by rw [c.size_eq]; exact hk
  obtain ⟨hin, -, -⟩ := ha.at_top (hlt hj) hpos
  cases r with
  | none => rfl
  | some p =>
      obtain ⟨hk, -, -, -, htok, -⟩ := h.front.front p.1 p.2 rfl
      have hwfi := (asleep_of_token ha hk htok).1
      exact absurd (.inr ⟨hwfi, by omega⟩) (hin p.1 (hlt hk))

theorem map_range_append (n : Nat) :
    (List.range n).map (Prod.mk B) ++ [(B, n)] = (List.range (n + 1)).map (Prod.mk B) := by
  rw [List.range_succ, List.map_append]
  rfl

/-- What the tree's wake-up does. -/
theorem step_top (hpos : a.pos j = .climb c.shape.depth) :
    a.step c.shape j = { a with
      tokens := fun k => if k < c.shape.size then a.tokens k + 1 else a.tokens k
      pos := Function.update a.pos j .wfi
      wakes := a.wakes + 1 } := by
  simp only [State.step, hpos, Nat.lt_irrefl, if_false]

/-- The whole block is woken with one write. -/
theorem Sim.step_write (h : Sim c B s a r) (ha : Agrees c.shape a st)
    (hB : c.core B 0 < c.numCores) (hj : j < c.block) (hpos : a.pos j = .climb c.shape.depth)
    {x : CtrlWrite} (hx : c.Exactly B x)
    (hstep : s.step c.toWakeParams c.block (c.core B j)
      = (s.begin c.block (c.core B j)).write c.toWakeParams c.block (c.core B j) x .wfi) :
    Sim c B (s.step c.toWakeParams c.block (c.core B j)) (a.step c.shape j) none := by
  obtain rfl := h.no_front ha hj hpos
  have hsize : j < c.shape.size := by rw [c.size_eq]; exact hj
  have hent : s.entered (c.core B j) = a.wakes + 1 := by
    rw [h.entered j hj]
    exact (State.Wakes.spec ⟨st, ha⟩ hsize hpos).1 j hsize
  have hhit : ∀ k < c.block, c.core B k < c.numCores ∧ c.wakes x (c.core B k) = true := by
    intro k hk
    refine ⟨core_lt hB hk, ?_⟩
    rw [hx _ (core_lt hB hk), core_div hk]
    simp
  rw [hstep, step_top hpos]
  refine ⟨forall_update_at (own_core hj) h.pc .wfi, ?_, h.entered, ?_, ?_, h.mem, ?_⟩
  · intro k hk
    have := h.tokens k hk
    simp only [LogPartialState.write, if_pos (hhit k hk), c.size_eq, if_pos hk]
    show s.tokens (c.core B k) + 1 + owed none k = _
    omega
  · simp only [LogPartialState.write, LogPartialState.begin, core_div hj, Function.update_self,
      h.wakes]
  · intro k hk
    simp only [LogPartialState.write, if_pos (hhit k hk)]
    show s.woken (c.core B k) ++ [(c.core B j / c.block, s.entered (c.core B j) - 1)] = _
    rw [h.woken k hk, core_div hj, hent]
    exact map_range_append _
  · refine ⟨fun k hk f hf hp => ?_, fun k f hr => by cases hr⟩
    by_cases hkj : k = j
    · subst hkj
      simp only [LogPartialState.write, Function.update_self] at hp
      cases hp
    · have hne : c.core B k ≠ c.core B j := fun he => hkj (core_inj hk hj he).2
      simp only [LogPartialState.write, LogPartialState.begin, Function.update_of_ne hne] at hp
      exact h.front.looping k hk f hf hp

theorem wakes_core (hB : c.core B 0 < c.numCores) {f k : Nat} (hf : f < c.block)
    (hk : k < c.block) : (c.core B k < c.numCores ∧
      c.wakes (.wakeUp (c.core B f)) (c.core B k) = true) ↔ k = f := by
  rw [wakes_wakeUp (core_lt hB hf), decide_eq_true_eq]
  constructor
  · rintro ⟨-, he⟩
    exact (core_inj hk hf he).2
  · rintro rfl
    exact ⟨core_lt hB hk, rfl⟩

/-- Where the loop is after it has woken core `f`. -/
theorem wakeLoop_eq (hB : c.core B 0 < c.numCores) (hj : j < c.block) {f : Nat}
    (hf : f < c.block) :
    LogPartialState.wakeLoop (u32 (c.core B f + 1))
        (LogPartialState.coreEnd c.block (c.core B j))
      = if f + 1 < c.block then .wakeUp (c.core B (f + 1)) else .wfi := by
  have hend := block_end hB
  have hfits := c.fits
  have hnext : c.core B f + 1 = c.core B (f + 1) := by rw [core, core, Nat.add_assoc]
  have hlt : c.core B (f + 1) < c.block * B + c.block ↔ f + 1 < c.block := by
    rw [core]
    omega
  have hcore := core_lt hB hf
  rw [LogPartialState.wakeLoop, coreEnd_eq hB hj, u32_eq (by omega), hnext]
  exact if_congr hlt rfl rfl

/-- The first write of a loop. -/
theorem Sim.step_first (h : Sim c B s a r) (ha : Agrees c.shape a st)
    (hB : c.core B 0 < c.numCores) (hj : j < c.block) (hpos : a.pos j = .climb c.shape.depth)
    (hpc : s.pc (c.core B j) = .wakeUp (c.block * B)) :
    Sim c B (s.step c.toWakeParams c.block (c.core B j)) (a.step c.shape j) (some (j, 1)) := by
  obtain rfl := h.no_front ha hj hpos
  have hsize : j < c.shape.size := by rw [c.size_eq]; exact hj
  have htwo : 1 < c.block := Nat.one_lt_two_pow (Nat.ne_of_gt c.logBlock_pos)
  have hent : s.entered (c.core B j) = a.wakes + 1 := by
    rw [h.entered j hj]
    exact (State.Wakes.spec ⟨st, ha⟩ hsize hpos).1 j hsize
  have hzero := ha.tokens j hsize
  rw [if_neg (by simp [hpos])] at hzero
  have hstep : s.step c.toWakeParams c.block (c.core B j)
      = (s.begin c.block (c.core B j)).write c.toWakeParams c.block (c.core B j)
          (.wakeUp (c.core B 0)) (.wakeUp (c.core B 1)) := by
    have hloop := wakeLoop_eq hB hj (show 0 < c.block by omega)
    rw [if_pos htwo] at hloop
    simp only [LogPartialState.step, hpc, coreInit_eq hB hj, if_true]
    rw [← hloop]
    rfl
  rw [hstep, step_top hpos]
  refine ⟨forall_update_at (own_core hj) h.pc (.loop 1 Nat.one_pos htwo), ?_, h.entered, ?_, ?_,
    h.mem, ?_⟩
  · intro k hk
    have := h.tokens k hk
    simp only [LogPartialState.write, wakes_core hB (show 0 < c.block by omega) hk, c.size_eq,
      if_pos hk, owed, LogPartialState.begin]
    rw [owed] at this
    split <;> split <;> omega
  · simp only [LogPartialState.write, LogPartialState.begin, core_div hj, Function.update_self,
      h.wakes]
  · intro k hk
    simp only [LogPartialState.write, wakes_core hB (show 0 < c.block by omega) hk,
      LogPartialState.begin, core_div hj, hent, owed]
    rw [h.woken k hk]
    by_cases hk0 : k = 0
    · subst hk0
      rw [if_pos rfl, if_neg (by omega)]
      exact map_range_append _
    · rw [if_neg hk0, if_pos (by omega)]
      rfl
  · refine ⟨fun k hk f hf hp => ?_, fun k f hr => ?_⟩
    · by_cases hkj : k = j
      · subst hkj
        simp only [LogPartialState.write, Function.update_self] at hp
        have : f = 1 := by
          have := LogPartialPc.wakeUp.inj hp
          rw [core, core] at this
          omega
        rw [this]
      · have hne : c.core B k ≠ c.core B j := fun he => hkj (core_inj hk hj he).2
        simp only [LogPartialState.write, LogPartialState.begin, Function.update_of_ne hne] at hp
        cases h.front.looping k hk f hf hp
    · obtain ⟨rfl, rfl⟩ : j = k ∧ 1 = f := by simpa using hr
      refine ⟨hj, Nat.one_pos, htwo, ?_, ?_, Nat.succ_pos _⟩
      · simp only [LogPartialState.write, Function.update_self]
      · show (if j < c.shape.size then a.tokens j + 1 else a.tokens j) = 1
        rw [if_pos hsize, hzero]

/-- The next writes of the loop. -/
theorem Sim.step_loop (h : Sim c B s a r) (ha : Agrees c.shape a st)
    (hB : c.core B 0 < c.numCores) (hj : j < c.block) {f : Nat} (hf : 0 < f) (hfb : f < c.block)
    (hpc : s.pc (c.core B j) = .wakeUp (c.core B f)) :
    Sim c B (s.step c.toWakeParams c.block (c.core B j)) a
      (if f + 1 < c.block then some (j, f + 1) else none) := by
  obtain rfl := h.front.looping j hj f hf hpc
  obtain ⟨-, -, -, -, htok, hpos⟩ := h.front.front j f rfl
  have hsize : j < c.shape.size := by rw [c.size_eq]; exact hj
  have hasleep := asleep_of_token ha hj htok
  have hent : s.entered (c.core B j) = a.wakes := by
    rw [h.entered j hj, ha.entered j hsize, if_pos hasleep.2]
  have hne : ¬ c.core B f = c.block * B := by
    rw [core]
    omega
  have hstep : s.step c.toWakeParams c.block (c.core B j)
      = s.write c.toWakeParams c.block (c.core B j) (.wakeUp (c.core B f))
          (if f + 1 < c.block then .wakeUp (c.core B (f + 1)) else .wfi) := by
    simp only [LogPartialState.step, hpc, coreInit_eq hB hj, if_neg hne, wakeLoop_eq hB hj hfb]
  have howed : ∀ k < c.block, owed (if f + 1 < c.block then some (j, f + 1) else none) k
      = if f + 1 ≤ k then 1 else 0 := by
    intro k hk
    split
    · rfl
    · rw [if_neg (by omega)]
      rfl
  rw [hstep]
  refine ⟨?_, ?_, h.entered, h.wakes, ?_, h.mem, ?_⟩
  · have hsame : a.pos = Function.update a.pos j .wfi := by
      rw [← hasleep.1, Function.update_eq_self]
    rw [hsame]
    refine forall_update_at (own_core hj) h.pc ?_
    split
    · exact .loop (f + 1) (Nat.succ_pos _) (by assumption)
    · exact .wfi
  · intro k hk
    have := h.tokens k hk
    simp only [LogPartialState.write, wakes_core hB hfb hk, howed k hk]
    rw [owed] at this
    split at this <;> split <;> split <;> omega
  · intro k hk
    have := h.woken k hk
    rw [owed] at this
    simp only [LogPartialState.write, wakes_core hB hfb hk, howed k hk, core_div hj, hent]
    rw [this]
    rcases Nat.lt_trichotomy k f with hlt | heq | hgt
    · rw [if_neg (by omega), if_neg (by omega), if_neg (by omega)]
    · rw [if_pos heq, if_pos (by omega), if_neg (by omega), map_range_append,
        Nat.sub_add_cancel hpos, Nat.sub_zero]
    · rw [if_neg (by omega), if_pos (by omega), if_pos (by omega)]
  · refine ⟨fun k hk g hg hp => ?_, fun k g hr => ?_⟩
    · by_cases hkj : k = j
      · subst hkj
        simp only [LogPartialState.write, Function.update_self] at hp
        split at hp
        · rename_i hlt
          have : g = f + 1 := by
            have := LogPartialPc.wakeUp.inj hp
            rw [core, core] at this
            omega
          rw [if_pos hlt, this]
        · cases hp
      · have hne : c.core B k ≠ c.core B j := fun he => hkj (core_inj hk hj he).2
        simp only [LogPartialState.write, Function.update_of_ne hne] at hp
        have := h.front.looping k hk g hg hp
        simp only [Option.some.injEq, Prod.mk.injEq] at this
        exact absurd this.1.symm hkj
    · split at hr
      · rename_i hlt
        obtain ⟨rfl, rfl⟩ : j = k ∧ f + 1 = g := by simpa using hr
        refine ⟨hj, Nat.succ_pos _, hlt, ?_, htok, hpos⟩
        simp only [LogPartialState.write, Function.update_self, if_pos hlt]
      · cases hr

end Step

/-! ## Runs -/

/-- A core that makes no step in its tree: it is within its loop, or finds no wake-up. -/
def Stalls (c : LogPartialConfig) (s : LogPartialState) (i : Nat) : Bool :=
  match s.pc i with
  | .wakeUp k => k != c.block * (i / c.block)
  | .wfi => s.tokens i == 0
  | _ => false

/-- The tree of block `B` when core `i` moves, and the front of its wake-up. -/
def treeNext (c : LogPartialConfig) (B : Nat) (s : LogPartialState) (i : Nat) (a : State) : State :=
  if i / c.block = B ∧ c.Stalls s i = false then a.step c.shape (i % c.block) else a

def frontNext (c : LogPartialConfig) (B : Nat) (s : LogPartialState) (i : Nat)
    (r : Option (Nat × Nat)) : Option (Nat × Nat) :=
  if i / c.block = B then
    match s.pc i with
    | .wakeUp k =>
        if k + 1 < c.block * B + c.block then some (i % c.block, k + 1 - c.block * B) else none
    | _ => r
  else r

section Step

variable {s : LogPartialState} {a : State} {r : Option (Nat × Nat)} {st : Nat → Nat → Status}

theorem core_mod (hj : j < c.block) : c.core B j % c.block = j := by
  rw [core, Nat.mul_add_mod, Nat.mod_eq_of_lt hj]

theorem treeNext_own (hj : j < c.block) (hstall : c.Stalls s (c.core B j) = false) :
    c.treeNext B s (c.core B j) a = a.step c.shape j := by
  rw [treeNext, if_pos ⟨core_div hj, hstall⟩, core_mod hj]

theorem treeNext_stall (hstall : c.Stalls s i = true) : c.treeNext B s i a = a := by
  rw [treeNext, if_neg]
  rintro ⟨-, h⟩
  rw [hstall] at h
  cases h

theorem Sim.step_entry (h : Sim c B s a r) (ha : Agrees c.shape a st)
    (hB : c.core B 0 < c.numCores) (hok : BlockOk c.toWakeParams c.block (c.block * B))
    (hj : j < c.block) (hpos : a.pos j = .climb c.shape.depth)
    (hpc : s.pc (c.core B j) = c.entry B) :
    Sim c B (s.step c.toWakeParams c.block (c.core B j))
      (c.treeNext B s (c.core B j) a) (c.frontNext B s (c.core B j) r) := by
  have hnone := h.no_front ha hj hpos
  rw [entry] at hpc
  split at hpc
  · rename_i hall
    rw [treeNext_own hj (by rw [Stalls, hpc]), frontNext, hpc, hnone, ite_self]
    exact h.step_write ha hB hj hpos (exactly_all hall hB) (by rw [LogPartialState.step, hpc])
  · split at hpc
    · rename_i hgroup
      rw [treeNext_own hj (by rw [Stalls, hpc]), frontNext, hpc, hnone, ite_self]
      exact h.step_write ha hB hj hpos (exactly_group hgroup hB hj)
        (by rw [LogPartialState.step, hpc])
    · split at hpc
      · rename_i hgroup htile
        rw [treeNext_own hj (by rw [Stalls, hpc]), frontNext, hpc, hnone, ite_self]
        exact h.step_write ha hB hj hpos
          (exactly_tile htile (Nat.lt_of_not_le hgroup) hok hB hj)
          (by rw [LogPartialState.step, hpc])
      · have htwo : 1 < c.block := Nat.one_lt_two_pow (Nat.ne_of_gt c.logBlock_pos)
        rw [treeNext_own hj (by rw [Stalls, hpc, core_div hj]; simp), frontNext, hpc,
          if_pos (core_div hj), core_mod hj]
        show Sim c B _ _ (if _ then _ else _)
        rw [if_pos (by omega), Nat.add_sub_cancel_left]
        exact h.step_first ha hB hj hpos hpc

theorem Sim.step (h : Sim c B s a r) (ha : Agrees c.shape a st) (hB : c.core B 0 < c.numCores)
    (hok : BlockOk c.toWakeParams c.block (c.block * B)) (hj : j < c.block) :
    Sim c B (s.step c.toWakeParams c.block (c.core B j))
      (c.treeNext B s (c.core B j) a) (c.frontNext B s (c.core B j) r) := by
  have hsim := h.pc j hj
  generalize hx : s.pc (c.core B j) = x at hsim
  generalize hy : a.pos j = y at hsim
  cases hsim with
  | idle =>
      rw [treeNext_own hj (by rw [Stalls, hx]), frontNext, hx, ite_self]
      exact h.step_idle hB hj hx hy
  | add l hl =>
      rw [treeNext_own hj (by rw [Stalls, hx]), frontNext, hx, ite_self]
      exact h.step_add ha hB hj hl hx hy
  | store l hl =>
      rw [treeNext_own hj (by rw [Stalls, hx]), frontNext, hx, ite_self]
      exact h.step_store hB hj hl hx hy
  | entry => exact h.step_entry ha hB hok hj hy hx
  | loop f hf hfb =>
      have hne : c.core B f ≠ c.block * B := by
        rw [core]
        omega
      rw [treeNext_stall (by rw [Stalls, hx, core_div hj]; simpa using hne), frontNext, hx,
        if_pos (core_div hj), core_mod hj]
      have hnext : c.core B f + 1 - c.block * B = f + 1 := by
        rw [core]
        omega
      have hlt : c.core B f + 1 < c.block * B + c.block ↔ f + 1 < c.block := by
        rw [core]
        omega
      show Sim c B _ _ (if _ then _ else _)
      rw [hnext, if_congr hlt rfl rfl]
      exact h.step_loop ha hB hj hf hfb hx
  | wfi =>
      rw [frontNext, hx, ite_self]
      rcases Nat.eq_zero_or_pos (s.tokens (c.core B j)) with h0 | htok
      · have hstep : s.step c.toWakeParams c.block (c.core B j) = s := by
          simp [LogPartialState.step, hx, h0]
        rw [treeNext_stall (by rw [Stalls, hx, h0]; rfl), hstep]
        exact h
      · rw [treeNext_own hj (by rw [Stalls, hx]; simpa using Nat.ne_of_gt htok)]
        exact h.step_wfi hj hx hy htok

/-- A step of one block leaves the others alone. -/
theorem Sim.same_step (h : Sim c B' s a r) (hB : c.core B' 0 < c.numCores)
    (hok : BlockOk c.toWakeParams c.block (c.block * B')) (hi : i < c.block) (hne : B ≠ B')
    (hBlt : c.core B 0 < c.numCores) :
    Same c B s (s.step c.toWakeParams c.block (c.core B' i)) := by
  have hpc : ∀ x, ∀ j < c.block,
      Function.update s.pc (c.core B' i) x (c.core B j) = s.pc (c.core B j) :=
    fun x j hj => Function.update_of_ne (core_ne hj hi hne) _ _
  have hmem : ∀ l < c.shape.depth, ∀ v e, 4 * (c.block * B) ≤ e →
      e < 4 * (c.block * B + c.block) →
      Function.update s.logBarrier (c.slot l B' (i / c.shape.width (l + 1))) v e
        = s.logBarrier e := by
    intro l hl v e hlo hhi
    have hsize : i < c.shape.size := by rw [c.size_eq]; exact hi
    exact Function.update_of_ne (slot_ne hl (c.shape.isBlock_core hsize) hne hlo hhi) _ _
  -- a write that wakes only cores of the other block
  have hwrite : ∀ s₀ : LogPartialState, Same c B s s₀ → ∀ x pc,
      (∀ j < c.block, c.wakes x (c.core B j) = false) →
      Same c B s (s₀.write c.toWakeParams c.block (c.core B' i) x pc) := by
    intro s₀ hs x pc hx
    refine ⟨fun j hj => ?_, fun j hj => ?_, hs.entered, hs.wakes, fun j hj => ?_, hs.mem⟩
    · rw [← hs.pc j hj]
      exact Function.update_of_ne (core_ne hj hi hne) _ _
    · simp only [LogPartialState.write, hx j hj, Bool.false_eq_true, and_false, if_false]
      exact hs.tokens j hj
    · simp only [LogPartialState.write, hx j hj, Bool.false_eq_true, and_false, if_false]
      exact hs.woken j hj
  have hbegin : Same c B s (s.begin c.block (c.core B' i)) := by
    refine ⟨fun _ _ => rfl, fun _ _ => rfl, fun _ _ => rfl, ?_, fun _ _ => rfl, fun _ _ _ => rfl⟩
    rw [LogPartialState.begin, core_div hi]
    exact Function.update_of_ne hne _ _
  have hrefl : Same c B s s :=
    ⟨fun _ _ => rfl, fun _ _ => rfl, fun _ _ => rfl, rfl, fun _ _ => rfl, fun _ _ _ => rfl⟩
  have hexact : ∀ x, c.Exactly B' x → ∀ j < c.block, c.wakes x (c.core B j) = false := by
    intro x hx j hj
    rw [hx _ (core_lt hBlt hj), core_div hj, decide_eq_false hne]
  have hsingle : ∀ f < c.block, ∀ j < c.block,
      c.wakes (.wakeUp (c.core B' f)) (c.core B j) = false := by
    intro f hf j hj
    rw [wakes_wakeUp (core_lt hB hf), decide_eq_false (core_ne hj hf hne)]
  have hsim := h.pc i hi
  generalize hx : s.pc (c.core B' i) = x at hsim
  generalize a.pos i = y at hsim
  cases hsim with
  | idle =>
      simp only [LogPartialState.step, hx]
      refine ⟨hpc _, fun _ _ => rfl, fun j hj => ?_, rfl, fun _ _ => rfl, fun _ _ _ => rfl⟩
      exact Function.update_of_ne (core_ne hj hi hne) _ _
  | add l hl =>
      simp only [LogPartialState.step, hx, counter_eq hB hi hl]
      exact ⟨hpc _, fun _ _ => rfl, fun _ _ => rfl, rfl, fun _ _ => rfl, hmem l hl _⟩
  | store l hl =>
      simp only [LogPartialState.step, hx, counter_eq hB hi hl]
      exact ⟨hpc _, fun _ _ => rfl, fun _ _ => rfl, rfl, fun _ _ => rfl, hmem l hl _⟩
  | entry =>
      rw [entry] at hx
      rw [LogPartialState.step]
      split at hx
      · rename_i hall
        rw [hx]
        exact hwrite _ hbegin _ _ (hexact _ (exactly_all hall hB))
      · split at hx
        · rename_i hgroup
          rw [hx]
          exact hwrite _ hbegin _ _ (hexact _ (exactly_group hgroup hB hi))
        · split at hx
          · rename_i hgroup htile
            rw [hx]
            exact hwrite _ hbegin _ _
              (hexact _ (exactly_tile htile (Nat.lt_of_not_le hgroup) hok hB hi))
          · rw [hx]
            show Same c B s (LogPartialState.write _ _ (if _ then _ else _) _ _ _)
            rw [coreInit_eq hB hi, if_pos rfl]
            exact hwrite _ hbegin _ _ (hsingle 0 c.block_pos)
  | loop f hf hfb =>
      rw [LogPartialState.step, hx]
      show Same c B s (LogPartialState.write _ _ (if _ then _ else _) _ _ _)
      split
      · exact hwrite _ hbegin _ _ (hsingle f hfb)
      · exact hwrite _ hrefl _ _ (hsingle f hfb)
  | wfi =>
      simp only [LogPartialState.step, hx]
      split
      · refine ⟨hpc _, fun j hj => ?_, fun _ _ => rfl, rfl, fun _ _ => rfl, fun _ _ _ => rfl⟩
        exact Function.update_of_ne (core_ne hj hi hne) _ _
      · exact hrefl

end Step

section Run

variable (c) in
/-- The tree of a block along a run, and the front of its wake-up. -/
def tree (mem : Nat → Nat) (order : List Nat) (sched : Nat → Nat) (B : Nat) :
    Nat → State × Option (Nat × Nat)
  | 0 => (.start, none)
  | t + 1 =>
      let s := LogPartialState.after c.toWakeParams c.block mem order sched t
      (c.treeNext B s (sched t) (tree mem order sched B t).1,
        c.frontNext B s (sched t) (tree mem order sched B t).2)

variable {mem : Nat → Nat} {order : List Nat} {sched : Nat → Nat} {blocks : Set Nat}

theorem start_sim (horder : ∀ i < c.numCores, i ∈ order) (hB : c.core B 0 < c.numCores) :
    Sim c B (LogPartialState.start c.toWakeParams mem order) .start none where
  pc _ _ := .idle
  tokens _ _ := rfl
  entered _ _ := rfl
  wakes := rfl
  woken _ _ := rfl
  mem :=
    { count := fun l hl x hx => by
        have hend := block_end hB
        have hrange := slot_range (B := B) hl hx
        exact BarrierConfig.init_zero _ mem horder (show _ < 4 * c.numCores by omega)
      rest := fun e he _ => by
        have hhi := he.2
        have hend := block_end hB
        exact BarrierConfig.init_zero _ mem horder (show _ < 4 * c.numCores by omega) }
  front :=
    { looping := fun _ _ _ _ hp => by cases hp
      front := fun _ _ hr => by cases hr }

/-- A run of the cores of some blocks, all of which are woken as they should be. -/
structure Runs (c : LogPartialConfig) (order : List Nat) (sched : Nat → Nat) (blocks : Set Nat) :
    Prop where
  init : ∀ i < c.numCores, i ∈ order
  inside : ∀ t, sched t < c.numCores
  own : ∀ t, sched t / c.block ∈ blocks
  ok : ∀ B ∈ blocks, BlockOk c.toWakeParams c.block (c.block * B)

theorem Runs.sim (hr : Runs c order sched blocks) (mem : Nat → Nat) (t : Nat) :
    ∀ B, c.core B 0 < c.numCores →
      Sim c B (LogPartialState.after c.toWakeParams c.block mem order sched t)
        (c.tree mem order sched B t).1 (c.tree mem order sched B t).2 ∧
      ∃ st, Agrees c.shape (c.tree mem order sched B t).1 st := by
  induction t with
  | zero => exact fun B hB => ⟨start_sim hr.init hB, _, Agrees.agrees_start _⟩
  | succ t ih =>
      intro B hB
      obtain ⟨h, st, ha⟩ := ih B hB
      have hj : sched t % c.block < c.block := Nat.mod_lt _ c.block_pos
      have hcore := core_eq c (sched t)
      have hBlt : c.core (sched t / c.block) 0 < c.numCores :=
        Nat.lt_of_le_of_lt (Nat.mul_div_le _ _) (hr.inside t)
      have hok := hr.ok _ (hr.own t)
      by_cases hown : B = sched t / c.block
      · have hown' : sched t = c.core B (sched t % c.block) := by rw [hown, hcore]
        rw [LogPartialState.after, tree]
        refine ⟨?_, ?_⟩
        · have := h.step ha hB (hown ▸ hok) hj
          rw [← hown'] at this
          exact this
        · show ∃ st, Agrees c.shape (c.treeNext B _ (sched t) _) st
          rw [treeNext]
          split
          · exact ha.step (by rw [c.size_eq]; exact hj)
          · exact ⟨st, ha⟩
      · have hsame := (ih _ hBlt).1.same_step hBlt hok hj hown hB
        rw [hcore] at hsame
        have htree : c.tree mem order sched B (t + 1) = c.tree mem order sched B t := by
          rw [tree, treeNext, frontNext, if_neg (fun hp => hown hp.1.symm),
            if_neg (Ne.symm hown)]
        rw [htree]
        exact ⟨h.same hsame, st, ha⟩

theorem Runs.run (hr : Runs c order sched blocks) (mem : Nat → Nat)
    (hB : c.core B 0 < c.numCores) :
    State.Run c.shape fun t => (c.tree mem order sched B t).1 where
  agrees t := (hr.sim mem t B hB).2
  next t := by
    show c.treeNext B _ (sched t) _ = _ ∨ ∃ j < c.shape.size, c.treeNext B _ (sched t) _ = _
    rw [treeNext]
    split
    · refine .inr ⟨sched t % c.block, ?_, rfl⟩
      rw [c.size_eq]
      exact Nat.mod_lt _ c.block_pos
    · exact .inl rfl

/-! ### Every core keeps moving in its tree -/

section Moves

variable {t : Nat}

/-- A core that stalls has its wake-up coming: it writes it itself, or another does. -/
theorem Sim.stalled {s : LogPartialState} {a : State} {r : Option (Nat × Nat)} (h : Sim c B s a r)
    (hj : j < c.block) (hstall : c.Stalls s (c.core B j) = true) :
    a.pos j = .wfi ∧ (a.tokens j ≠ 0 → r ≠ none) ∧
      (a.tokens j = 0 → s.pc (c.core B j) = .wfi) := by
  have hsim := h.pc j hj
  have htok := h.tokens j hj
  rw [Stalls] at hstall
  generalize hx : s.pc (c.core B j) = x at hsim hstall
  generalize hy : a.pos j = y at hsim
  cases hsim with
  | idle => cases hstall
  | add l hl => cases hstall
  | store l hl => cases hstall
  | entry =>
      rcases c.entry_cases B with he | he | he | he <;> rw [he] at hstall
      · cases hstall
      · cases hstall
      · cases hstall
      · rw [core_div hj] at hstall
        simp at hstall
  | loop f hf hfb =>
      have hr := h.front.looping j hj f hf hx
      obtain ⟨-, -, -, -, hone, -⟩ := h.front.front j f hr
      exact ⟨rfl, fun _ => by rw [hr]; simp, fun h0 => by omega⟩
  | wfi =>
      refine ⟨rfl, fun hne hnone => ?_, fun _ => rfl⟩
      have h0 : s.tokens (c.core B j) = 0 := by simpa using hstall
      rw [hnone, h0] at htok
      exact hne htok.symm

/-- The loop of a core goes on to its end. -/
theorem Runs.front_next (hr : Runs c order sched blocks) (hB : c.core B 0 < c.numCores) {k f : Nat}
    (hfront : (c.tree mem order sched B t).2 = some (k, f)) :
    (c.tree mem order sched B (t + 1)).2 = if sched t = c.core B k then
      if f + 1 < c.block then some (k, f + 1) else none else some (k, f) := by
  obtain ⟨h, st, ha⟩ := hr.sim mem t B hB
  obtain ⟨hk, hf, hfb, hpc, -, -⟩ := h.front.front k f hfront
  rw [tree, frontNext]
  by_cases hi : sched t = c.core B k
  · have hnext : c.core B f + 1 - c.block * B = f + 1 := by
      rw [core]
      omega
    have hlt : c.core B f + 1 < c.block * B + c.block ↔ f + 1 < c.block := by
      rw [core]
      omega
    rw [if_pos hi, hi, if_pos (core_div hk), hpc, core_mod hk]
    show (if _ then _ else _) = _
    rw [hnext, if_congr hlt rfl rfl]
  · rw [if_neg hi, hfront]
    split
    · rename_i hown
      have hj : sched t % c.block < c.block := Nat.mod_lt _ c.block_pos
      have hcore : sched t = c.core B (sched t % c.block) := by rw [← hown, core_eq]
      have hsim := h.pc _ hj
      rw [← hcore] at hsim
      generalize hx : (LogPartialState.after c.toWakeParams c.block mem order sched t).pc
        (sched t) = x at hsim
      generalize hy : (c.tree mem order sched B t).1.pos (sched t % c.block) = y at hsim
      cases hsim with
      | idle | add l hl | store l hl | wfi => rfl
      | entry =>
          have := h.no_front ha hj hy
          rw [hfront] at this
          cases this
      | loop g hg hgb =>
          rw [hcore] at hx
          have := h.front.looping _ hj g hg hx
          rw [hfront] at this
          simp only [Option.some.injEq, Prod.mk.injEq] at this
          exact absurd (by rw [this.1, ← hcore]) hi
    · rfl

/-- It comes to its end if the core keeps moving. -/
theorem Runs.front_ends (hr : Runs c order sched blocks) (mem : Nat → Nat)
    (hB : c.core B 0 < c.numCores)
    (hfair : ∀ j < c.block, ∀ t, ∃ u, t ≤ u ∧ sched u = c.core B j) (t : Nat) :
    ∃ u, t ≤ u ∧ (c.tree mem order sched B u).2 = none := by
  by_contra hno
  have hnever : ∀ d, (c.tree mem order sched B (t + d)).2 ≠ none := fun d he =>
    hno ⟨t + d, Nat.le_add_right _ _, he⟩
  obtain ⟨⟨k, f⟩, hkf⟩ := Option.ne_none_iff_exists'.mp (hnever 0)
  have hstays : ∀ d, ∃ f, (c.tree mem order sched B (t + d)).2 = some (k, f) := by
    intro d
    induction d with
    | zero => exact ⟨f, hkf⟩
    | succ d ih =>
        obtain ⟨f, hf⟩ := ih
        have hnext := hr.front_next hB hf
        have hsome := hnever (d + 1)
        rw [← Nat.add_assoc, hnext] at hsome
        rw [← Nat.add_assoc, hnext]
        split at hsome
        · rename_i hi
          rw [if_pos hi]
          split at hsome
          · rename_i hlt
            exact ⟨f + 1, by rw [if_pos hlt]⟩
          · exact absurd rfl hsome
        · rename_i hi
          exact ⟨f, by rw [if_neg hi]⟩
  have hk : k < c.block := ((hr.sim mem t B hB).1.front.front k f hkf).1
  -- the number of cores that are still to be woken
  let left : Option (Nat × Nat) → Nat := fun r => match r with
    | none => 0
    | some (_, f) => c.block - f
  have hstep : ∀ d, left (c.tree mem order sched B (t + d + 1)).2
      ≤ left (c.tree mem order sched B (t + d)).2 := by
    intro d
    obtain ⟨f, hf⟩ := hstays d
    rw [hr.front_next hB hf, hf]
    split
    · split
      · show c.block - (f + 1) ≤ c.block - f
        omega
      · exact Nat.zero_le _
    · exact Nat.le_refl _
  have hmove : ∀ d, sched (t + d) = c.core B k →
      left (c.tree mem order sched B (t + d + 1)).2
        < left (c.tree mem order sched B (t + d)).2 := by
    intro d hi
    obtain ⟨f, hf⟩ := hstays d
    obtain ⟨-, -, hfb, -⟩ := (hr.sim mem (t + d) B hB).1.front.front k f hf
    rw [hr.front_next hB hf, hf, if_pos hi]
    split
    · show c.block - (f + 1) < c.block - f
      omega
    · show 0 < c.block - f
      omega
  obtain ⟨d, hd⟩ := @TeraNoC.Lib.eventually_zero
    (fun d => left (c.tree mem order sched B (t + d)).2)
    (fun d => sched (t + d) = c.core B k) hstep (fun d hi _ => hmove d hi)
    (fun d => by
      obtain ⟨u, hu, hsc⟩ := hfair k hk (t + d)
      exact ⟨u - t, by omega, by rw [Nat.add_sub_cancel' (by omega), hsc]⟩)
  obtain ⟨f, hf⟩ := hstays d
  obtain ⟨-, -, hfb, -⟩ := (hr.sim mem (t + d) B hB).1.front.front k f hf
  simp only [hf, left] at hd
  omega

/-- A core that is out stays so until it moves. -/
theorem Runs.stays_out (hr : Runs c order sched blocks) (hB : c.core B 0 < c.numCores)
    (hj : j < c.block) (htok : (c.tree mem order sched B t).1.tokens j = 1)
    (hmove : (c.tree mem order sched B (t + 1)).1 ≠ (c.tree mem order sched B t).1.step c.shape j) :
    (c.tree mem order sched B (t + 1)).1.tokens j = 1 := by
  have hsize : ∀ {k}, k < c.block → k < c.shape.size := fun hk => by rw [c.size_eq]; exact hk
  obtain ⟨-, st, ha⟩ := hr.sim mem t B hB
  have hwfi := (asleep_of_token ha hj htok).1
  rcases (hr.run mem hB).next t with heq | ⟨k, hk, heq⟩
  · exact (congrArg (State.tokens · j) heq).trans htok
  · have hkj : k ≠ j := by
      rintro rfl
      exact hmove heq
    have hnotop : (c.tree mem order sched B t).1.pos k ≠ .climb c.shape.depth := by
      intro htop
      exact (ha.at_top hk htop).1 j (hsize hj) (.inr ⟨hwfi, by omega⟩)
    refine (congrArg (State.tokens · j) heq).trans ?_
    show ((c.tree mem order sched B t).1.step c.shape k).tokens j = 1
    rw [State.step]
    cases hp : (c.tree mem order sched B t).1.pos k with
    | idle => exact htok
    | clear l => exact htok
    | climb l =>
        obtain ⟨hl, -⟩ := ha.held_of_climb hk hp
        have hlt : l < c.shape.depth := by
          rcases Nat.lt_or_eq_of_le hl with hlt | rfl
          · exact hlt
          · exact absurd hp hnotop
        simp only [if_pos hlt]
        exact htok
    | wfi =>
        show (if _ then _ else _ : State).tokens j = 1
        split
        · exact (Function.update_of_ne (Ne.symm hkj) _ _).trans htok
        · exact htok

/-- While somebody is out nobody begins to wake the block. -/
theorem Runs.front_none (hr : Runs c order sched blocks) (hB : c.core B 0 < c.numCores)
    (hj : j < c.block) (htok : (c.tree mem order sched B t).1.tokens j = 1)
    (hnone : (c.tree mem order sched B t).2 = none) :
    (c.tree mem order sched B (t + 1)).2 = none := by
  have hsize : ∀ {k}, k < c.block → k < c.shape.size := fun hk => by rw [c.size_eq]; exact hk
  obtain ⟨h, st, ha⟩ := hr.sim mem t B hB
  have hwfi := (asleep_of_token ha hj htok).1
  rw [tree, frontNext, hnone]
  split
  · rename_i hown
    have hk : sched t % c.block < c.block := Nat.mod_lt _ c.block_pos
    have hcore : sched t = c.core B (sched t % c.block) := by rw [← hown, core_eq]
    have hsim := h.pc _ hk
    rw [← hcore] at hsim
    generalize hx : (LogPartialState.after c.toWakeParams c.block mem order sched t).pc
      (sched t) = x at hsim
    generalize hy : (c.tree mem order sched B t).1.pos (sched t % c.block) = y at hsim
    cases hsim with
    | idle | add l hl | store l hl | wfi => rfl
    | entry =>
        exact absurd (.inr ⟨hwfi, by omega⟩)
          ((ha.at_top (hsize hk) hy).1 j (hsize hj))
    | loop g hg hgb =>
        rw [hcore] at hx
        have := h.front.looping _ hk g hg hx
        rw [hnone] at this
        cases this
  · rfl

/-- If the cores of a block keep moving, they do so in its tree. -/
theorem Runs.fair (hr : Runs c order sched blocks) (hB : c.core B 0 < c.numCores)
    (hfair : ∀ j < c.block, ∀ t, ∃ u, t ≤ u ∧ sched u = c.core B j) (hj : j < c.block) (t : Nat) :
    ∃ u, t ≤ u ∧ (c.tree mem order sched B (u + 1)).1
      = (c.tree mem order sched B u).1.step c.shape j := by
  by_contra hno
  have hnever : ∀ u, t ≤ u → (c.tree mem order sched B (u + 1)).1
      ≠ (c.tree mem order sched B u).1.step c.shape j := fun u hu he => hno ⟨u, hu, he⟩
  -- whenever it is its turn, it has a wake-up coming
  have hstalls : ∀ u, t ≤ u → sched u = c.core B j →
      (c.tree mem order sched B u).1.tokens j = 1 ∧ (c.tree mem order sched B u).2 ≠ none := by
    intro u hu hi
    obtain ⟨h, st, ha⟩ := hr.sim mem u B hB
    have hstall : c.Stalls (LogPartialState.after c.toWakeParams c.block mem order sched u)
        (c.core B j) = true := by
      by_contra hne
      refine hnever u hu ?_
      rw [tree, hi]
      exact treeNext_own hj (by simpa using hne)
    obtain ⟨hwfi, hfront, -⟩ := h.stalled hj hstall
    have hne : (c.tree mem order sched B u).1.tokens j ≠ 0 := by
      intro h0
      refine hnever u hu ?_
      rw [tree, hi]
      show c.treeNext B _ (c.core B j) _ = _
      rw [treeNext_stall hstall]
      simp [State.step, hwfi, h0]
    refine ⟨?_, hfront hne⟩
    have hle := ha.tokens j (by rw [c.size_eq]; exact hj)
    split at hle
    · exact hle
    · exact absurd hle hne
  obtain ⟨u, hu, hi⟩ := hfair j hj t
  have hout : ∀ d, (c.tree mem order sched B (u + d)).1.tokens j = 1 := by
    intro d
    induction d with
    | zero => exact (hstalls u hu hi).1
    | succ d ih => exact hr.stays_out hB hj ih (hnever (u + d) (by omega))
  obtain ⟨v, huv, hnone⟩ := hr.front_ends mem hB hfair u
  have hrest : ∀ d, (c.tree mem order sched B (v + d)).2 = none := by
    intro d
    induction d with
    | zero => exact hnone
    | succ d ih =>
        refine hr.front_none hB hj ?_ ih
        have := hout (v + d - u)
        rw [Nat.add_sub_cancel' (by omega)] at this
        exact this
  obtain ⟨x, hx, hix⟩ := hfair j hj v
  have := hrest (x - v)
  rw [Nat.add_sub_cancel' hx] at this
  exact (hstalls x (by omega) hix).2 this

end Moves

/-! ### What a block sees -/

theorem Sim.begins_iff {s : LogPartialState} {a : State} {r : Option (Nat × Nat)}
    (h : Sim c B s a r) (hB : c.core B 0 < c.numCores) (hj : j < c.block) :
    s.begins c.block (c.core B j) = true ↔ State.Wakes c.shape a j := by
  have hsim := h.pc j hj
  rw [LogPartialState.begins, State.Wakes, coreInit_eq hB hj]
  generalize s.pc (c.core B j) = x at hsim ⊢
  generalize a.pos j = y at hsim ⊢
  cases hsim with
  | idle => simp
  | add l hl => simp [Nat.ne_of_lt hl]
  | store l hl => simp
  | entry => rcases c.entry_cases B with he | he | he | he <;> simp [he]
  | loop f hf hfb =>
      have hne : c.core B f ≠ c.block * B := by
        rw [core]
        omega
      simp [hne]
  | wfi => simp

theorem Sim.waking_iff {s : LogPartialState} {a : State} {r : Option (Nat × Nat)}
    (h : Sim c B s a r) (hB : c.core B 0 < c.numCores) (hj : j < c.block) :
    s.waking c.block (c.core B j) = true ↔ ∃ f, r = some (j, f) := by
  have hsim := h.pc j hj
  have hnot : (∀ f, s.pc (c.core B j) ≠ .wakeUp (c.core B f)) → ¬ ∃ f, r = some (j, f) := by
    rintro hno ⟨f, rfl⟩
    exact hno f (h.front.front j f rfl).2.2.2.1
  rw [LogPartialState.waking, coreInit_eq hB hj]
  generalize hx : s.pc (c.core B j) = x at hsim hnot ⊢
  generalize a.pos j = y at hsim
  cases hsim with
  | idle => exact iff_of_false (by simp) (hnot (by simp))
  | add l hl => exact iff_of_false (by simp) (hnot (by simp))
  | store l hl => exact iff_of_false (by simp) (hnot (by simp))
  | wfi => exact iff_of_false (by simp) (hnot (by simp))
  | entry =>
      refine iff_of_false ?_ ?_
      · rcases c.entry_cases B with he | he | he | he <;> simp [he]
      · rintro ⟨f, rfl⟩
        obtain ⟨-, hf, -, hp, -, -⟩ := h.front.front j f rfl
        rw [hx] at hp
        exact entry_ne_loop hf hp
  | loop f hf hfb =>
      have hne : c.core B f ≠ c.block * B := by
        rw [core]
        omega
      exact iff_of_true (by simp [hne]) ⟨f, h.front.looping j hj f hf hx⟩

/-- One core at a time wakes a block. -/
theorem Sim.one_waker {s : LogPartialState} {a : State} {r : Option (Nat × Nat)}
    {st : Nat → Nat → Status} (h : Sim c B s a r) (ha : Agrees c.shape a st)
    (hB : c.core B 0 < c.numCores) (hj : j < c.block) (hi : i < c.block)
    (hwj : s.begins c.block (c.core B j) = true ∨ s.waking c.block (c.core B j) = true)
    (hwi : s.begins c.block (c.core B i) = true ∨ s.waking c.block (c.core B i) = true) :
    j = i := by
  have hsize : ∀ {k}, k < c.block → k < c.shape.size := fun hk => by rw [c.size_eq]; exact hk
  rw [h.begins_iff hB hj, h.waking_iff hB hj] at hwj
  rw [h.begins_iff hB hi, h.waking_iff hB hi] at hwi
  rcases hwj with hwj | ⟨f, hf⟩
  · have hnone := h.no_front ha hj hwj
    rcases hwi with hwi | ⟨g, hg⟩
    · by_contra hne
      have := (ha.at_top (hsize hj) hwj).2.2 i (hsize hi) (Ne.symm hne)
      rw [State.Wakes, this] at hwi
      cases hwi
    · rw [hnone] at hg
      cases hg
  · rcases hwi with hwi | ⟨g, hg⟩
    · rw [h.no_front ha hi hwi] at hf
      cases hf
    · rw [hf] at hg
      simp only [Option.some.injEq, Prod.mk.injEq] at hg
      exact hg.1

/-- Nothing happens in a block that is not called. -/
theorem Runs.tree_other (hr : Runs c order sched blocks) (hB : B ∉ blocks) (t : Nat) :
    c.tree mem order sched B t = (.start, none) := by
  induction t with
  | zero => rfl
  | succ t ih =>
      have hne : ¬ sched t / c.block = B := by
        rintro rfl
        exact hB (hr.own t)
      rw [tree, treeNext, frontNext, if_neg (fun hp => hne hp.1), if_neg hne, ih]

end Run

end LogPartialConfig

/-- The log partial barriers of any set of blocks that are woken as they should be, from
initialization on and for any interleaving of their cores. When a core begins to wake
its block, all cores of the block have entered the episode and the block's part of
`log_barrier` is all zeros. No episode has two such cores, only one core at a time
wakes a block, and each episode has one if the cores of the block keep moving. The
cores of a block have been sent one wake-up for each episode of it, and none by another
block; those of other blocks none at all. A core that is outside has left exactly the
episodes that were woken. -/
theorem log_partial_barrier (c : LogPartialConfig) (mem : Nat → Nat) (order : List Nat)
    (sched : Nat → Nat) (blocks : Set Nat) (horder : ∀ i < c.numCores, i ∈ order)
    (hsched : ∀ t, sched t < c.numCores) (hown : ∀ t, sched t / c.block ∈ blocks)
    (hok : ∀ B ∈ blocks, BlockOk c.toWakeParams c.block (c.block * B)) :
    let s := LogPartialState.after c.toWakeParams c.block mem order sched
    (∀ t, (s t).begins c.block (sched t) = true →
      (∀ i < c.numCores, i / c.block = sched t / c.block →
        (s t).entered i = (s t).wakes (sched t / c.block) + 1) ∧
      ∀ e, 4 * (c.block * (sched t / c.block)) ≤ e →
        e < 4 * (c.block * (sched t / c.block) + c.block) → (s t).logBarrier e = 0) ∧
    (∀ t u, (s t).begins c.block (sched t) = true → (s u).begins c.block (sched u) = true →
      sched t / c.block = sched u / c.block →
      (s t).entered (sched t) = (s u).entered (sched u) → t = u) ∧
    (∀ t, ∀ i < c.numCores, ∀ k < c.numCores, i / c.block = k / c.block →
      ((s t).begins c.block i = true ∨ (s t).waking c.block i = true) →
      ((s t).begins c.block k = true ∨ (s t).waking c.block k = true) → i = k) ∧
    (∀ B, c.block * B < c.numCores →
      (∀ i < c.numCores, i / c.block = B → ∀ t, ∃ u, t ≤ u ∧ sched u = i) →
      ∀ e, ∃ t, (s t).begins c.block (sched t) = true ∧ sched t / c.block = B ∧
        (s t).entered (sched t) = e + 1) ∧
    (∀ t, ∀ i < c.numCores, ∃ n, (s t).woken i = (List.range n).map (Prod.mk (i / c.block)) ∧
      n ≤ (s t).wakes (i / c.block) ∧ (s t).wakes (i / c.block) ≤ n + 1 ∧
      ((∀ k < c.numCores, k / c.block = i / c.block → (s t).waking c.block k = false) →
        n = (s t).wakes (i / c.block))) ∧
    (∀ t, ∀ i < c.numCores, i / c.block ∉ blocks → (s t).woken i = []) ∧
    (∀ t, ∀ i < c.numCores, (s t).pc i = .idle →
      (s t).entered i = (s t).wakes (i / c.block)) := by
  intro s
  have hr : c.Runs order sched blocks := ⟨horder, hsched, hown, hok⟩
  have hsize : ∀ {k}, k < c.block → k < c.shape.size := fun hk => by rw [c.size_eq]; exact hk
  have hmod : ∀ i, i % c.block < c.block := fun i => Nat.mod_lt _ c.block_pos
  have hin : ∀ {i}, i < c.numCores → c.core (i / c.block) 0 < c.numCores := fun hi =>
    Nat.lt_of_le_of_lt (Nat.mul_div_le _ _) hi
  have hcore := LogPartialConfig.core_eq c
  have hsim := fun t {i : Nat} (hi : i < c.numCores) =>
    hr.sim mem t (i / c.block) (hin hi)
  -- the wake-up in the tree
  have hwakes : ∀ t, (s t).begins c.block (sched t) = true →
      State.Wakes c.shape (c.tree mem order sched (sched t / c.block) t).1
        (sched t % c.block) := by
    intro t hb
    rw [← hcore (sched t)] at hb
    exact ((hsim t (hsched t)).1.begins_iff (hin (hsched t)) (hmod _)).mp hb
  have hepisode : ∀ t, (s t).begins c.block (sched t) = true →
      (∀ i < c.numCores, i / c.block = sched t / c.block →
        (s t).entered i = (s t).wakes (sched t / c.block) + 1) ∧
      ∀ e, 4 * (c.block * (sched t / c.block)) ≤ e →
        e < 4 * (c.block * (sched t / c.block) + c.block) → (s t).logBarrier e = 0 := by
    intro t hb
    obtain ⟨h, hagree⟩ := hsim t (hsched t)
    obtain ⟨hent, hzero⟩ := State.Wakes.spec hagree (hsize (hmod _)) (hwakes t hb)
    refine ⟨fun i _ hib => ?_, fun e hlo hhi => h.mem.zero hzero ⟨hlo, hhi⟩⟩
    have := h.entered _ (hmod i)
    rw [← hib, hcore i] at this
    rw [this, h.wakes, hib]
    exact hent _ (hsize (hmod i))
  refine ⟨hepisode, ?_, ?_, ?_, ?_, ?_, ?_⟩
  · intro t u ht hu hB hent
    rw [(hepisode t ht).1 _ (hsched t) rfl, (hepisode u hu).1 _ (hsched u) rfl,
      (hsim t (hsched t)).1.wakes, (hsim u (hsched u)).1.wakes] at hent
    have hrun := hr.run mem (hin (hsched u))
    -- the number of wake-ups grows with each
    have hgrows : ∀ t, (s t).begins c.block (sched t) = true →
        (c.tree mem order sched (sched t / c.block) (t + 1)).1.wakes
          = (c.tree mem order sched (sched t / c.block) t).1.wakes + 1 := by
      intro t hb
      have hw := hwakes t hb
      have hstall : c.Stalls (s t) (sched t) = false := by
        by_contra hne
        rw [Bool.not_eq_false] at hne
        have hp := ((hsim t (hsched t)).1.stalled (hmod (sched t)) (by rw [hcore]; exact hne)).1
        rw [State.Wakes, hp] at hw
        cases hw
      rw [LogPartialConfig.tree]
      show (c.treeNext _ (s t) (sched t) _).wakes = _
      rw [LogPartialConfig.treeNext, if_pos ⟨rfl, hstall⟩]
      exact State.wakes_step_of_wakes hw
    have hgt := hgrows t ht
    have hgu := hgrows u hu
    rw [hB] at hgt hent
    rcases Nat.lt_trichotomy t u with hlt | heq | hlt
    · have := hrun.wakes_mono (show t + 1 ≤ u from hlt)
      omega
    · exact heq
    · have := hrun.wakes_mono (show u + 1 ≤ t from hlt)
      omega
  · intro t i hi k hk hB hwi hwk
    obtain ⟨h, st, ha⟩ := hsim t hi
    rw [← hcore i] at hwi
    rw [← hcore k, ← hB] at hwk
    have := h.one_waker ha (hin hi) (hmod i) (hmod k) hwi hwk
    rw [← hcore i, ← hcore k, hB, this]
  · intro B hB hfair e
    have hB0 : c.core B 0 < c.numCores := hB
    have hfair' : ∀ j < c.block, ∀ t, ∃ u, t ≤ u ∧ sched u = c.core B j := fun j hj =>
      hfair _ (LogPartialConfig.core_lt hB0 hj) (LogPartialConfig.core_div hj)
    obtain ⟨t, ht, hnext⟩ := (hr.run mem hB0).episode (by rw [c.size_eq]; exact c.block_pos)
      rfl (fun j hj => hr.fair hB0 hfair' (by rw [← c.size_eq]; exact hj)) e
    -- only the step of a core of the block that begins can have done that
    replace ht : (c.tree mem order sched B t).1.wakes = e := ht
    replace hnext : (c.treeNext B (s t) (sched t) (c.tree mem order sched B t).1).wakes = e + 1 :=
      hnext
    rw [LogPartialConfig.treeNext] at hnext
    have hblock : sched t / c.block = B := by
      by_contra hne
      rw [if_neg (fun hp => hne hp.1)] at hnext
      omega
    have hbegins : (s t).begins c.block (sched t) = true := by
      obtain ⟨h, hagree⟩ := hr.sim mem t B hB0
      have hiff := h.begins_iff hB0 (hmod (sched t))
      rw [← hblock, hcore] at hiff
      rw [hiff]
      by_contra hw
      split at hnext
      · rw [hblock] at hw
        rw [State.wakes_step hagree (hsize (hmod _)) hw] at hnext
        omega
      · omega
    refine ⟨t, hbegins, hblock, ?_⟩
    rw [(hepisode t hbegins).1 _ (hsched t) rfl, (hsim t (hsched t)).1.wakes, hblock, ht]
  · intro t i hi
    obtain ⟨h, st, ha⟩ := hsim t hi
    have hwoken := h.woken _ (hmod i)
    rw [hcore] at hwoken
    have hle : LogPartialConfig.owed (c.tree mem order sched (i / c.block) t).2 (i % c.block)
        ≤ 1 := by
      rw [LogPartialConfig.owed.eq_def]
      split
      · exact Nat.zero_le _
      · split <;> omega
    refine ⟨_, hwoken, ?_, ?_, fun hno => ?_⟩
    · rw [h.wakes]
      exact Nat.sub_le _ _
    · rw [h.wakes]
      omega
    · cases hfront : (c.tree mem order sched (i / c.block) t).2 with
      | none => rw [h.wakes, LogPartialConfig.owed, Nat.sub_zero]
      | some p =>
          have hk := (h.front.front p.1 p.2 hfront).1
          have hwaking := (h.waking_iff (hin hi) hk).mpr ⟨p.2, hfront⟩
          have := hno _ (LogPartialConfig.core_lt (hin hi) hk) (LogPartialConfig.core_div hk)
          rw [hwaking] at this
          cases this
  · intro t i hi hB
    obtain ⟨h, -⟩ := hsim t hi
    have hwoken := h.woken _ (hmod i)
    rw [hcore, hr.tree_other hB] at hwoken
    exact hwoken
  · intro t i hi hidle
    obtain ⟨h, st, ha⟩ := hsim t hi
    have hsim' := h.pc _ (hmod i)
    have hent := h.entered _ (hmod i)
    rw [hcore] at hsim' hent
    rw [hidle] at hsim'
    have hpos : (c.tree mem order sched (i / c.block) t).1.pos (i % c.block) = .idle := by
      generalize hx : (.idle : LogPartialPc) = x at hsim'
      generalize (c.tree mem order sched (i / c.block) t).1.pos (i % c.block) = y at hsim'
      cases hsim' with
      | idle => rfl
      | add l hl => cases hx
      | store l hl => cases hx
      | entry => rcases c.entry_cases (i / c.block) with he | he | he | he <;> cases hx.trans he
      | loop f hf hfb => cases hx
      | wfi => cases hx
    rw [hent, h.wakes, ha.entered _ (hsize (hmod i)),
      if_pos ((ha.out _ (hsize (hmod i))).mp (.inl hpos))]

/-- 16 groups of 16 tiles of four cores, and blocks of one tile. -/
def terapoolTiles : LogPartialConfig where
  numCoresPerTile := 4
  numTilesPerGroup := 16
  numGroups := 16
  numCores_pos := by decide
  fits := by decide
  logCoresPerTile := 2
  logTilesPerGroup := 4
  logGroups := 4
  logBlock := 2
  numCoresPerTile_eq := (Nat.pow_two 2).symm
  numTilesPerGroup_eq := rfl
  numGroups_eq := rfl
  logGroups_le := Nat.le_refl _
  logBlock_pos := Nat.two_pos
  logBlock_le := by decide

/-- The first two tiles, whose cores move in turn. -/
theorem log_partial_barrier_twoTiles :
    ∃ t, (LogPartialState.after terapoolTiles.toWakeParams terapoolTiles.block (fun _ => 7)
        (List.range 1024) (· % 8) t).begins terapoolTiles.block (t % 8) = true ∧
      t % 8 / terapoolTiles.block = 1 ∧
      (LogPartialState.after terapoolTiles.toWakeParams terapoolTiles.block (fun _ => 7)
        (List.range 1024) (· % 8) t).entered (t % 8) = 3 := by
  have hblock : terapoolTiles.block = 4 := rfl
  have hok : ∀ B ∈ ({0, 1} : Set Nat),
      BlockOk terapoolTiles.toWakeParams terapoolTiles.block (terapoolTiles.block * B) := by
    rintro B (rfl | rfl) <;> · unfold BlockOk; decide
  refine (log_partial_barrier terapoolTiles (fun _ => 7) (List.range 1024) (· % 8) {0, 1}
    (fun i hi => List.mem_range.mpr hi) (fun t => ?_) (fun t => ?_) hok).2.2.2.1 1 (by decide) ?_ 2
  · exact Nat.lt_of_lt_of_le (Nat.mod_lt t (by decide)) (by decide)
  · show t % 8 / terapoolTiles.block = 0 ∨ t % 8 / terapoolTiles.block = 1
    rw [hblock]
    omega
  · intro i _ hi t
    rw [hblock] at hi
    refine ⟨8 * t + i, by omega, ?_⟩
    show (8 * t + i) % 8 = i
    omega

theorem LogPartialState.after_eq_foldl (w : WakeParams) (b : Nat) (mem : Nat → Nat)
    (order : List Nat) (sched : Nat → Nat) (t : Nat) :
    after w b mem order sched t
      = (List.range t).foldl (fun s u => s.step w b (sched u)) (start w mem order) := by
  induction t with
  | zero => rfl
  | succ t ih =>
      rw [after, ih, List.range_succ, List.foldl_append]
      rfl

theorem LogPartialState.start_zero (w : WakeParams) (order : List Nat) :
    start w (fun _ => 0) order
      = ⟨fun _ => .idle, fun _ => 0, fun _ => 0, fun _ => 0, fun _ => 0, fun _ => []⟩ := by
  have hkeep : ∀ (l : List Nat) (mem : Nat → Nat), (∀ e, mem e = 0) →
      ∀ e, l.foldl (BarrierParams.mk w.numCores 1).initLogBarrier mem e = 0 := by
    intro l
    induction l with
    | nil => exact fun _ h => h
    | cons i l ih =>
        exact fun mem h => ih _ fun e => BarrierConfig.initLogBarrier_keeps _ mem i e (h e)
  rw [start]
  congr
  exact funext (hkeep order _ fun _ => rfl)

/-- The first tile of the ninth group: its wake-up goes to the first group, and the cores
of the tile are not woken. -/
theorem log_partial_barrier_loses_512 : ¬ ∀ t, ∀ i < terapoolTiles.numCores,
    (∀ k < terapoolTiles.numCores, k / terapoolTiles.block = i / terapoolTiles.block →
      (LogPartialState.after terapoolTiles.toWakeParams terapoolTiles.block (fun _ => 0)
        (List.range 1024) (512 + · % 4) t).waking terapoolTiles.block k = false) →
    (LogPartialState.after terapoolTiles.toWakeParams terapoolTiles.block (fun _ => 0)
      (List.range 1024) (512 + · % 4) t).woken i
      = (List.range ((LogPartialState.after terapoolTiles.toWakeParams terapoolTiles.block
          (fun _ => 0) (List.range 1024) (512 + · % 4) t).wakes (i / terapoolTiles.block))).map
        (Prod.mk (i / terapoolTiles.block)) := by
  intro h
  have hlost := h 24 512 (by decide)
  simp only [LogPartialState.after_eq_foldl, LogPartialState.start_zero] at hlost
  revert hlost
  decide +kernel

end TeraNoC.Runtime
