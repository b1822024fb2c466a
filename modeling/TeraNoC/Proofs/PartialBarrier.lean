import Mathlib.Data.List.Count
import TeraNoC.Proofs.PlainBarrier
import TeraNoC.Runtime.PartialBarrier

/-!
# Whom the partial barrier wakes

The last core to arrive peels its range in three stages: single cores up to whole
tiles, tiles up to whole groups, groups. The first stage is right, except that a
range of exactly one tile's size is not peeled even if it is not a tile. So what
the second and third stage wake, tile by tile, decides (`exact_iff_tiles`), and
they are right only for some ranges of tiles: `TilesOk` says which. The reasons
are visible in it. A range within fewer tiles than a group has must not cross into
the next group, its mask must fit the 32 bits of the register, and its group must
be one of the first eight, as `wake_up_tile` knows no others; a range of as many
tiles must be a group; and a longer one is handled as if a group had 16 tiles and
the range began in the first group.
-/

namespace TeraNoC.Runtime

open TeraNoC.Hw

/-! ## Masks -/

section Masks

variable {count start k : Nat}

theorem shl32_one (h : count < 32) : shl32 1 count = 2 ^ count := by
  rw [shl32, Nat.mod_eq_of_lt h, Nat.one_shiftLeft, u32_eq]
  exact Nat.pow_lt_pow_right (by omega) h

theorem sub32_two_pow (h : count < 32) : sub32 (2 ^ count) 1 = 2 ^ count - 1 :=
  sub32_eq (Nat.one_le_two_pow) (Nat.pow_lt_pow_right (by omega) h)

/-- `bitMask` has `count` ones from `start` on, as far as the register goes. -/
theorem testBit_bitMask (hc : count < 32) (hs : start < 32) :
    (bitMask count start).testBit k = decide (start ≤ k ∧ k < start + count ∧ k < 32) := by
  rw [bitMask, shl32_one hc, sub32_two_pow hc, shl32, Nat.mod_eq_of_lt hs, u32,
    Nat.testBit_mod_two_pow, Nat.testBit_shiftLeft, Nat.testBit_two_pow_sub_one]
  rw [← Bool.decide_and, ← Bool.decide_and, decide_eq_decide]
  omega

theorem bitMask_zero (start : Nat) : bitMask 0 start = 0 := by
  rw [bitMask, shl32_one (by omega), sub32_two_pow (by omega), shl32]
  simp [u32]

theorem bitMask_lt : bitMask count start < 2 ^ 32 := Nat.mod_lt _ (by decide)

/-- A mask that stays below a width is accepted there. -/
theorem bitMask_le {width : Nat} (hc : count < 32) (hs : start < 32) (h : start + count ≤ width) :
    bitMask count start ≤ 2 ^ width - 1 := by
  have hlt : bitMask count start < 2 ^ width := by
    refine Nat.lt_pow_two_of_testBit _ fun i hi => ?_
    rw [testBit_bitMask hc hs, decide_eq_false_iff_not]
    omega
  omega

/-- And one that does not is rejected. -/
theorem not_le_of_testBit {x width : Nat} (hk : width ≤ k) (h : x.testBit k = true) :
    ¬ x ≤ 2 ^ width - 1 := by
  intro hle
  have hpos := Nat.two_pow_pos width
  have hlt : x < 2 ^ k :=
    Nat.lt_of_lt_of_le (by omega) (Nat.pow_le_pow_right (by omega) hk)
  rw [Nat.testBit_lt_two_pow hlt] at h
  cases h

end Masks

/-! ## Tiles -/

section Tiles

variable (w : WakeParams)

/-- What a write to a tile or group register wakes, by tiles. -/
def tileWakes (write : CtrlWrite) (tile : Nat) : Bool :=
  match write with
  | .wakeUpTile g mask =>
      tile / w.numTilesPerGroup == g && decide (mask ≤ 2 ^ w.numTilesPerGroup - 1) &&
        mask.testBit (tile % w.numTilesPerGroup)
  | .wakeUpGroup mask =>
      if mask ≤ 2 ^ w.numGroups - 1 then mask.testBit (tile / w.numTilesPerGroup)
      else decide (mask = 2 ^ 32 - 1)
  | _ => false

/-- How often the writes wake a core, and a tile. -/
def woken (writes : List CtrlWrite) (core : Nat) : Nat := writes.countP (w.wakes · core)

def tileWoken (writes : List CtrlWrite) (tile : Nat) : Nat := writes.countP (tileWakes w · tile)

def isMask : CtrlWrite → Bool
  | .wakeUpTile _ _ | .wakeUpGroup _ => true
  | _ => false

variable {w}

theorem wakes_eq_tileWakes {write : CtrlWrite} (h : isMask write = true) (core : Nat) :
    w.wakes write core = tileWakes w write (core / w.numCoresPerTile) := by
  have hgroup : core / w.numCoresPerGroup
      = core / w.numCoresPerTile / w.numTilesPerGroup := by
    rw [WakeParams.numCoresPerGroup, Nat.div_div_eq_div_mul]
  cases write with
  | wakeUpTile g mask =>
      rw [WakeParams.wakes, tileWakes, hgroup, WakeParams.wakeUpTiles]
      by_cases hg : core / w.numCoresPerTile / w.numTilesPerGroup = g
      · have htile : (core - w.numCoresPerGroup * g) / w.numCoresPerTile
            = core / w.numCoresPerTile % w.numTilesPerGroup := by
          rw [WakeParams.numCoresPerGroup, Nat.mul_assoc, Nat.sub_mul_div, ← hg,
            Nat.mod_eq_sub_mul_div]
        rw [htile]
      · rw [beq_eq_false_iff_ne.mpr hg, Bool.false_and, Bool.false_and, Bool.false_and]
  | wakeUpGroup mask =>
      rw [WakeParams.wakes, tileWakes, WakeParams.wakeUpGroups, hgroup]
  | wakeUp v => cases h
  | wakeUpStrd v => cases h
  | wakeUpOffst v => cases h

theorem woken_eq_tileWoken {writes : List CtrlWrite} (h : ∀ x ∈ writes, isMask x = true)
    (core : Nat) : woken w writes core = tileWoken w writes (core / w.numCoresPerTile) :=
  List.countP_congr fun x hx => by rw [wakes_eq_tileWakes (h x hx)]

theorem woken_append (l l' : List CtrlWrite) (core : Nat) :
    woken w (l ++ l') core = woken w l core + woken w l' core :=
  List.countP_append

theorem isMask_tile (g mask : Nat) : isMask (wakeUpTile g mask) = true := by
  rw [wakeUpTile]
  split <;> rfl

end Tiles

/-! ## The core remainder -/

section Cores

variable {c : Cluster}

theorem Cluster.numCoresPerTile_pos (c : Cluster) : 0 < c.numCoresPerTile := by
  have := c.numCores_pos
  rcases Nat.eq_zero_or_pos c.numCoresPerTile with h | h
  · rw [WakeParams.numCores, WakeParams.numCoresPerGroup, h] at this
    simp at this
  · exact h

theorem Cluster.numTilesPerGroup_pos (c : Cluster) : 0 < c.numTilesPerGroup := by
  have := c.numCores_pos
  rcases Nat.eq_zero_or_pos c.numTilesPerGroup with h | h
  · rw [WakeParams.numCores, WakeParams.numCoresPerGroup, h] at this
    simp at this
  · exact h

/-- One core is woken once by its own write. -/
theorem wakes_wakeUp {v : Nat} (hv : v < c.numCores) (core : Nat) :
    c.wakes (.wakeUp v) core = decide (core = v) := by
  rw [WakeParams.wakes, WakeParams.wakeUpCores, if_pos hv]
  rfl

theorem woken_cons_wakeUp {v : Nat} (hv : v < c.numCores) (l : List CtrlWrite) (core : Nat) :
    woken c.toWakeParams (.wakeUp v :: l) core
      = woken c.toWakeParams l core + if core = v then 1 else 0 := by
  rw [woken, List.countP_cons, wakes_wakeUp hv]
  simp only [decide_eq_true_eq]
  rfl

theorem woken_wakeCores {a k : Nat} (h : a + k ≤ c.numCores) (core : Nat) :
    woken c.toWakeParams (wakeCores a k) core = if a ≤ core ∧ core < a + k then 1 else 0 := by
  induction k generalizing a with
  | zero =>
      rw [wakeCores, if_neg (by omega)]
      rfl
  | succ k ih =>
      rw [wakeCores, woken_cons_wakeUp (by omega), ih (by omega)]
      split <;> split <;> split <;> omega

/-- The loop that goes up stops at the next tile. -/
theorem wakeToTile_eq {t : Nat} (j : Nat) (hj : j < c.numCoresPerTile)
    (hjt : j ≤ c.numCoresPerTile * t) {rounds : Nat} (hr : j ≤ rounds) :
    wakeToTile c.toWakeParams rounds (c.numCoresPerTile * t - j)
      = (wakeCores (c.numCoresPerTile * t - j) j, c.numCoresPerTile * t) := by
  induction j generalizing rounds with
  | zero =>
      cases rounds with
      | zero => rfl
      | succ rounds => simp [wakeToTile, wakeCores]
  | succ j ih =>
      obtain ⟨rounds, rfl⟩ : ∃ r, rounds = r + 1 := ⟨rounds - 1, by omega⟩
      have hmod : (c.numCoresPerTile * t - (j + 1)) % c.numCoresPerTile ≠ 0 := by
        intro h0
        obtain ⟨m, hm⟩ := Nat.dvd_of_mod_eq_zero h0
        have hmt : m < t := by
          by_contra hge
          have := Nat.mul_le_mul_left c.numCoresPerTile (Nat.le_of_not_lt hge)
          omega
        have := Nat.mul_le_mul_left c.numCoresPerTile (Nat.succ_le_of_lt hmt)
        rw [Nat.mul_succ] at this
        omega
      have hnext : c.numCoresPerTile * t - (j + 1) + 1 = c.numCoresPerTile * t - j := by omega
      rw [wakeToTile, if_pos hmod, hnext, ih (by omega) (by omega) (by omega), wakeCores, hnext]

/-- The loop that goes down stops at the end of the last whole tile. -/
theorem wakeFromTile_eq (t j : Nat) (hj : j < c.numCoresPerTile) :
    (wakeFromTile c.toWakeParams (c.numCoresPerTile * t + j)).2 = c.numCoresPerTile * t ∧
    (c.numCoresPerTile * t + j ≤ c.numCores → ∀ core,
      woken c.toWakeParams (wakeFromTile c.toWakeParams (c.numCoresPerTile * t + j)).1 core
        = if c.numCoresPerTile * t ≤ core ∧ core < c.numCoresPerTile * t + j then 1 else 0) := by
  induction j with
  | zero =>
      have hstop : wakeFromTile c.toWakeParams (c.numCoresPerTile * t)
          = ([], c.numCoresPerTile * t) := by
        generalize hm : c.numCoresPerTile * t = m
        cases m with
        | zero => rfl
        | succ m =>
            rw [wakeFromTile, if_neg]
            rw [← hm, not_not]
            exact Nat.mul_mod_right _ _
      rw [Nat.add_zero, hstop]
      refine ⟨rfl, fun _ core => ?_⟩
      rw [if_neg (by omega)]
      rfl
  | succ j ih =>
      obtain ⟨hend, hwoken⟩ := ih (by omega)
      have hmod : (c.numCoresPerTile * t + j + 1) % c.numCoresPerTile ≠ 0 := by
        rw [Nat.add_assoc, Nat.mul_add_mod, Nat.mod_eq_of_lt hj]
        omega
      rw [← Nat.add_assoc, wakeFromTile, if_pos hmod]
      refine ⟨hend, fun hle core => ?_⟩
      rw [woken_cons_wakeUp (by omega), hwoken (by omega)]
      split <;> split <;> split <;> omega

end Cores

/-! ## The tile and the group remainder -/

/-- The ranges of tiles that the last two stages wake as they should. -/
def TilesOk (numTilesPerGroup tileInit tileEnd : Nat) : Prop :=
  let r := tileInit % numTilesPerGroup
  let d := tileEnd - tileInit
  d = 0 ∨
  (d < numTilesPerGroup ∧ r + d ≤ min numTilesPerGroup 32 ∧ d < 32 ∧
    tileInit / numTilesPerGroup < 8) ∨
  (d = numTilesPerGroup ∧ r = 0) ∨
  (numTilesPerGroup < d ∧
    (numTilesPerGroup = 16 ∧ tileInit < 16 ∨
      numTilesPerGroup < 16 ∧ tileInit = numTilesPerGroup * (16 / numTilesPerGroup)) ∧
    (tileEnd % numTilesPerGroup = 0 ∨ tileEnd / numTilesPerGroup < 8))

/-- Every tile of the range is woken once and no other tile is woken. -/
def Exact (w : WakeParams) (writes : List CtrlWrite) (tileInit tileEnd : Nat) : Prop :=
  ∀ tile < w.numTilesPerGroup * w.numGroups,
    tileWoken w writes tile = if tileInit ≤ tile ∧ tile < tileEnd then 1 else 0

/-- The writes of the last two stages. -/
def maskWrites (w : WakeParams) (coreInit coreEnd : Nat) : List CtrlWrite :=
  (tileRemainder w coreInit coreEnd).1 ++
    groupRemainder w (tileRemainder w coreInit coreEnd).2.1 (tileRemainder w coreInit coreEnd).2.2

section Masked

variable {w : WakeParams} {tileInit tileEnd : Nat}

theorem tileWoken_singleton (x : CtrlWrite) (tile : Nat) :
    tileWoken w [x] tile = if tileWakes w x tile then 1 else 0 := by
  rw [tileWoken, List.countP_singleton]

theorem tileWoken_cons (x : CtrlWrite) (l : List CtrlWrite) (tile : Nat) :
    tileWoken w (x :: l) tile = tileWoken w l tile + if tileWakes w x tile then 1 else 0 := by
  rw [tileWoken, List.countP_cons]
  rfl

/-- The register that a group's tiles are woken with. -/
def tileReg (group : Nat) : Nat := if group < 8 then group else 0

theorem tileWakes_wakeUpTile (group mask tile : Nat) :
    tileWakes w (wakeUpTile group mask) tile
      = (decide (tile / w.numTilesPerGroup = tileReg group) &&
          decide (mask ≤ 2 ^ w.numTilesPerGroup - 1) &&
          mask.testBit (tile % w.numTilesPerGroup)) := by
  rw [wakeUpTile, tileReg]
  split <;> rfl

theorem div_eq_iff_block {T tile g : Nat} (hT : 0 < T) :
    tile / T = g ↔ T * g ≤ tile ∧ tile < T * g + T := by
  rw [Nat.div_eq_iff hT, Nat.mul_comm g T]
  omega

/-- A range that one write to a tile register is meant to wake. -/
theorem exact_short (hT : 0 < w.numTilesPerGroup) (hlt : tileInit < tileEnd)
    (hend : tileEnd ≤ w.numTilesPerGroup * w.numGroups) :
    Exact w [wakeUpTile (tileInit / w.numTilesPerGroup)
        (bitMask (tileEnd - tileInit) (tileInit % w.numTilesPerGroup))] tileInit tileEnd ↔
      tileInit % w.numTilesPerGroup + (tileEnd - tileInit) ≤ min w.numTilesPerGroup 32 ∧
        tileEnd - tileInit < 32 ∧ tileInit / w.numTilesPerGroup < 8 := by
  rw [Exact]
  generalize hG : w.numTilesPerGroup * w.numGroups = tiles at hend ⊢
  simp only [tileWoken_singleton, tileWakes_wakeUpTile]
  generalize w.numTilesPerGroup = T at *
  have hdm := Nat.div_add_mod tileInit T
  have hrlt := Nat.mod_lt tileInit hT
  generalize hg : tileInit / T = g at hdm ⊢
  generalize hr : tileInit % T = r at hdm hrlt ⊢
  constructor
  · intro h
    -- the first and the last tile of the range are woken
    have hfirst := h tileInit (by omega)
    have hlast := h (tileEnd - 1) (by omega)
    rw [if_pos (⟨Nat.le_refl _, hlt⟩ : tileInit ≤ tileInit ∧ tileInit < tileEnd),
      ite_eq_left_iff, imp_iff_not (by decide), not_not, Bool.and_eq_true, Bool.and_eq_true,
      decide_eq_true_eq] at hfirst
    rw [if_pos (by omega : tileInit ≤ tileEnd - 1 ∧ tileEnd - 1 < tileEnd),
      ite_eq_left_iff, imp_iff_not (by decide), not_not, Bool.and_eq_true, Bool.and_eq_true,
      decide_eq_true_eq] at hlast
    have hgreg : g = tileReg g := hg ▸ hfirst.1.1
    have hg8 : g < 8 := by
      rw [tileReg] at hgreg
      split at hgreg
      · assumption
      · omega
    have hblock := (div_eq_iff_block hT).mp (hlast.1.1.trans hgreg.symm)
    have hmod : (tileEnd - 1) % T = r + (tileEnd - tileInit) - 1 := by
      have hdm' := Nat.div_add_mod (tileEnd - 1) T
      rw [hlast.1.1.trans hgreg.symm] at hdm'
      omega
    have hbit := hlast.2
    rw [hmod] at hbit
    have h32 : r + (tileEnd - tileInit) - 1 < 32 := by
      have hge := Nat.ge_two_pow_of_testBit hbit
      exact (Nat.pow_lt_pow_iff_right (by decide)).mp (Nat.lt_of_le_of_lt hge bitMask_lt)
    refine ⟨by omega, ?_, hg8⟩
    by_contra hge
    have hd32 : tileEnd - tileInit = 32 := by omega
    have hr0 : r = 0 := by omega
    rw [hd32, hr0, show bitMask 32 0 = 0 by decide] at hbit
    simp at hbit
  · rintro ⟨hle, h32, hg8⟩ tile -
    have hr32 : r < 32 := by omega
    have hmask := @bitMask_le (tileEnd - tileInit) r T h32 hr32 (by omega)
    have hreg : tileReg g = g := by rw [tileReg, if_pos hg8]
    rw [hreg, decide_eq_true hmask, Bool.and_true, testBit_bitMask h32 hr32, ← Bool.decide_and]
    simp only [decide_eq_true_eq]
    refine if_congr ?_ rfl rfl
    rw [div_eq_iff_block hT]
    constructor
    · rintro ⟨hblock, hk⟩
      have hq := (div_eq_iff_block hT).mpr hblock
      have hdm' := Nat.div_add_mod tile T
      rw [hq] at hdm'
      omega
    · intro hk
      have hblock : T * g ≤ tile ∧ tile < T * g + T := by omega
      have hq := (div_eq_iff_block hT).mpr hblock
      have hdm' := Nat.div_add_mod tile T
      rw [hq] at hdm'
      omega

/-- The groups that the last stage wakes. -/
def groupWrites (groupInit groupEnd : Nat) : List CtrlWrite :=
  if sub32 groupEnd groupInit > 0 then
    [.wakeUpGroup (bitMask (sub32 groupEnd groupInit) groupInit)]
  else []

/-- They are those from the first to the last, and none if the subtraction wraps. -/
theorem tileWoken_groupWrites {q e tile : Nat} (hG : w.numGroups ≤ 16) (hq : q ≤ 16)
    (he : e ≤ w.numGroups) :
    tileWoken w (groupWrites q e) tile
      = if q ≤ tile / w.numTilesPerGroup ∧ tile / w.numTilesPerGroup < e then 1 else 0 := by
  rw [groupWrites]
  rcases Nat.lt_trichotomy e q with hlt | heq | hgt
  · have hpos : sub32 e q > 0 := by
      rw [sub32, u32]
      omega
    have hrej : ∀ q < 17, ∀ e < q, 2 ^ 16 - 1 < bitMask (sub32 e q) q ∧
        bitMask (sub32 e q) q ≠ 2 ^ 32 - 1 := by decide +kernel
    obtain ⟨hbig, hnall⟩ := hrej q (by omega) e hlt
    have hG' : 2 ^ w.numGroups ≤ 2 ^ 16 := Nat.pow_le_pow_right (by decide) hG
    have hno : ¬ bitMask (sub32 e q) q ≤ 2 ^ w.numGroups - 1 := by omega
    rw [if_pos hpos, tileWoken_singleton, tileWakes, if_neg hno, decide_eq_false hnall,
      if_neg Bool.false_ne_true, if_neg (by omega)]
  · subst heq
    rw [sub32_eq (Nat.le_refl _) (by omega), Nat.sub_self, if_neg (by decide), if_neg (by omega)]
    rfl
  · rw [sub32_eq (by omega) (by omega), if_pos (by omega), tileWoken_singleton, tileWakes,
      if_pos (bitMask_le (by omega) (by omega) (by omega)), testBit_bitMask (by omega) (by omega)]
    simp only [decide_eq_true_eq]
    refine if_congr ?_ rfl rfl
    omega

/-- As many tiles as a group has. -/
theorem exact_group (hT : 0 < w.numTilesPerGroup) (hG : w.numGroups ≤ 16)
    (hd : tileEnd = tileInit + w.numTilesPerGroup)
    (hend : tileEnd ≤ w.numTilesPerGroup * w.numGroups) :
    Exact w (groupWrites (tileInit / w.numTilesPerGroup) (tileEnd / w.numTilesPerGroup))
      tileInit tileEnd ↔ tileInit % w.numTilesPerGroup = 0 := by
  have hnext : tileEnd / w.numTilesPerGroup = tileInit / w.numTilesPerGroup + 1 := by
    rw [hd, Nat.add_div_right _ hT]
  have hge : tileEnd / w.numTilesPerGroup ≤ w.numGroups := by
    refine Nat.le_trans (Nat.div_le_div_right hend) ?_
    rw [Nat.mul_div_cancel_left _ hT]
  have hdm := Nat.div_add_mod tileInit w.numTilesPerGroup
  have hrlt := Nat.mod_lt tileInit hT
  have hwoken : ∀ tile, tileWoken w (groupWrites (tileInit / w.numTilesPerGroup)
      (tileEnd / w.numTilesPerGroup)) tile
        = if tile / w.numTilesPerGroup = tileInit / w.numTilesPerGroup then 1 else 0 := by
    intro tile
    rw [tileWoken_groupWrites hG (by omega) hge, hnext]
    exact if_congr (by omega) rfl rfl
  constructor
  · intro h
    -- the group's first tile is woken
    have hfirst := h (w.numTilesPerGroup * (tileInit / w.numTilesPerGroup)) (by omega)
    rw [hwoken, Nat.mul_div_cancel_left _ hT, if_pos rfl] at hfirst
    by_contra hr
    rw [if_neg (by omega)] at hfirst
    cases hfirst
  · intro h tile _
    rw [hwoken]
    refine if_congr ?_ rfl rfl
    rw [div_eq_iff_block hT]
    omega

/-- The second tile mask of a long range. -/
theorem lastMask_eq (count : Nat) : sub32 (shl32 1 count) 1 = bitMask count 0 := by
  have hlt : sub32 (shl32 1 count) 1 < 2 ^ 32 := Nat.mod_lt _ (by decide)
  have hshl : ∀ x < 2 ^ 32, shl32 x 0 = x := by
    intro x hx
    rw [shl32, Nat.zero_mod, Nat.shiftLeft_zero, u32_eq hx]
  exact (hshl _ hlt).symm

/-- The writes for more tiles than a group has. -/
def longWrites (w : WakeParams) (tileInit tileEnd : Nat) : List CtrlWrite :=
  [wakeUpTile (tileInit / w.numTilesPerGroup)
      (bitMask (sub32 16 (tileInit % w.numTilesPerGroup)) (tileInit % w.numTilesPerGroup)),
    wakeUpTile (tileEnd / w.numTilesPerGroup) (bitMask (tileEnd % w.numTilesPerGroup) 0)] ++
  groupWrites (16 / w.numTilesPerGroup) (tileEnd / w.numTilesPerGroup)

/-- The last group's tiles, where a group has no more than 16. -/
theorem tileWakes_last (hT : 0 < w.numTilesPerGroup) (hT16 : w.numTilesPerGroup ≤ 16)
    (tile : Nat) :
    tileWakes w (wakeUpTile (tileEnd / w.numTilesPerGroup)
        (bitMask (tileEnd % w.numTilesPerGroup) 0)) tile
      = decide (tile / w.numTilesPerGroup = tileReg (tileEnd / w.numTilesPerGroup) ∧
          tile % w.numTilesPerGroup < tileEnd % w.numTilesPerGroup) := by
  have hlt := Nat.mod_lt tileEnd hT
  have hlt' := Nat.mod_lt tile hT
  rw [tileWakes_wakeUpTile, decide_eq_true (bitMask_le (by omega) (by omega) (by omega)),
    Bool.and_true, testBit_bitMask (by omega) (by omega), ← Bool.decide_and, decide_eq_decide]
  omega

theorem tileWoken_longWrites (tile : Nat) :
    tileWoken w (longWrites w tileInit tileEnd) tile
      = (if tileWakes w (wakeUpTile (tileInit / w.numTilesPerGroup)
          (bitMask (sub32 16 (tileInit % w.numTilesPerGroup))
            (tileInit % w.numTilesPerGroup))) tile then 1 else 0)
        + (if tileWakes w (wakeUpTile (tileEnd / w.numTilesPerGroup)
          (bitMask (tileEnd % w.numTilesPerGroup) 0)) tile then 1 else 0)
        + tileWoken w (groupWrites (16 / w.numTilesPerGroup)
          (tileEnd / w.numTilesPerGroup)) tile := by
  rw [longWrites, List.cons_append, List.cons_append, List.nil_append, tileWoken_cons,
    tileWoken_cons]
  omega

/-- Groups of more than 16 tiles: the first group is woken as a whole and by its mask. -/
theorem not_exact_long_large (hT16 : 16 < w.numTilesPerGroup) (hG : w.numGroups ≤ 16)
    (hd : w.numTilesPerGroup < tileEnd - tileInit)
    (hend : tileEnd ≤ w.numTilesPerGroup * w.numGroups) :
    ¬ Exact w (longWrites w tileInit tileEnd) tileInit tileEnd := by
  intro h
  have hT : 0 < w.numTilesPerGroup := by omega
  have hge : tileEnd / w.numTilesPerGroup ≤ w.numGroups := by
    refine Nat.le_trans (Nat.div_le_div_right hend) ?_
    rw [Nat.mul_div_cancel_left _ hT]
  have hpos : 0 < tileEnd / w.numTilesPerGroup := Nat.div_pos (by omega) hT
  have hzero := h 0 (by omega)
  rw [tileWoken_longWrites, Nat.div_eq_of_lt hT16, tileWoken_groupWrites hG (by omega) hge,
    Nat.zero_div, if_pos (⟨Nat.le_refl _, hpos⟩ : 0 ≤ 0 ∧ 0 < tileEnd / w.numTilesPerGroup)]
    at hzero
  have hti : tileInit = 0 := by
    by_contra hne
    rw [if_neg (by omega : ¬ (tileInit ≤ 0 ∧ 0 < tileEnd))] at hzero
    omega
  have hfirst : tileWakes w (wakeUpTile (tileInit / w.numTilesPerGroup)
      (bitMask (sub32 16 (tileInit % w.numTilesPerGroup))
        (tileInit % w.numTilesPerGroup))) 0 = true := by
    rw [hti, Nat.zero_div, Nat.zero_mod, show sub32 16 0 = 16 by decide, tileWakes_wakeUpTile,
      decide_eq_true (bitMask_le (by omega) (by omega) (by omega)), Nat.zero_div, Nat.zero_mod,
      testBit_bitMask (by omega) (by omega)]
    decide
  rw [hfirst, if_pos rfl, hti, if_pos (by omega : 0 ≤ 0 ∧ 0 < tileEnd)] at hzero
  omega

/-- Groups of 16 tiles. -/
theorem exact_long_16 (hT : w.numTilesPerGroup = 16) (hG : w.numGroups ≤ 16)
    (hd : 16 < tileEnd - tileInit) (hend : tileEnd ≤ 16 * w.numGroups) :
    Exact w (longWrites w tileInit tileEnd) tileInit tileEnd ↔
      tileInit < 16 ∧ (tileEnd % 16 = 0 ∨ tileEnd / 16 < 8) := by
  have hT0 : 0 < w.numTilesPerGroup := by omega
  have hlast := fun tile => @tileWakes_last w tileEnd hT0 (by omega) tile
  have hgroup := fun tile => @tileWoken_groupWrites w (16 / w.numTilesPerGroup)
    (tileEnd / w.numTilesPerGroup) tile hG (by rw [hT]; decide) (by rw [hT]; omega)
  have hr := Nat.mod_lt tileInit (show 0 < 16 by decide)
  have hfirst : ∀ tile, tileWakes w (wakeUpTile (tileInit / w.numTilesPerGroup)
      (bitMask (sub32 16 (tileInit % w.numTilesPerGroup)) (tileInit % w.numTilesPerGroup))) tile
        = decide (tile / 16 = tileReg (tileInit / 16) ∧ tileInit % 16 ≤ tile % 16) := by
    intro tile
    have ht := Nat.mod_lt tile (show 0 < 16 by decide)
    rw [tileWakes_wakeUpTile, hT, sub32_eq (by omega) (by omega),
      decide_eq_true (bitMask_le (by omega) (by omega) (by omega)), Bool.and_true,
      testBit_bitMask (by omega) (by omega), ← Bool.decide_and, decide_eq_decide]
    omega
  rw [hT] at hlast hgroup hfirst
  have hcount : ∀ tile, tileWoken w (longWrites w tileInit tileEnd) tile
      = (if tile / 16 = tileReg (tileInit / 16) ∧ tileInit % 16 ≤ tile % 16 then 1 else 0)
        + (if tile / 16 = tileReg (tileEnd / 16) ∧ tile % 16 < tileEnd % 16 then 1 else 0)
        + if 1 ≤ tile / 16 ∧ tile / 16 < tileEnd / 16 then 1 else 0 := by
    intro tile
    rw [tileWoken_longWrites, hT, hlast, hgroup, hfirst]
    simp only [decide_eq_true_eq]
  simp only [Exact, hT, hcount]
  constructor
  · intro h
    have hti : tileInit < 16 := by
      -- otherwise the second group is woken as a whole, and then by its mask too
      by_contra hge
      have h16 := h 16 (by omega)
      rw [if_pos (by omega : 1 ≤ 16 / 16 ∧ 16 / 16 < tileEnd / 16)] at h16
      have hti : tileInit = 16 := by
        by_contra hne
        rw [if_neg (by omega : ¬ (tileInit ≤ 16 ∧ 16 < tileEnd))] at h16
        omega
      rw [if_pos (by rw [hti]; decide :
          16 / 16 = tileReg (tileInit / 16) ∧ tileInit % 16 ≤ 16 % 16),
        if_pos (by omega : tileInit ≤ 16 ∧ 16 < tileEnd)] at h16
      omega
    refine ⟨hti, ?_⟩
    by_contra hno
    rw [not_or, Nat.not_lt] at hno
    have hreg : tileReg (tileEnd / 16) = 0 := if_neg (by omega)
    have hreg' : tileReg (tileInit / 16) = 0 := by rw [tileReg, if_pos (by omega)]; omega
    have hlost := h (16 * (tileEnd / 16)) (by omega)
    rw [if_pos (by omega : tileInit ≤ 16 * (tileEnd / 16) ∧ 16 * (tileEnd / 16) < tileEnd),
      hreg, hreg', if_neg (by omega), if_neg (by omega), if_neg (by omega)] at hlost
    cases hlost
  · rintro ⟨hti, hok⟩ tile htile
    have hreg' : tileReg (tileInit / 16) = 0 := by rw [tileReg, if_pos (by omega)]; omega
    rw [hreg', tileReg]
    split <;> split <;> split <;> split <;> split <;> omega

/-- Groups of fewer than 16 tiles: the first mask has its bit 15 set and is rejected. -/
theorem tileWoken_long_small (hT : 0 < w.numTilesPerGroup) (hT16 : w.numTilesPerGroup < 16)
    (hG : w.numGroups ≤ 16) (hend : tileEnd ≤ w.numTilesPerGroup * w.numGroups) (tile : Nat) :
    tileWoken w (longWrites w tileInit tileEnd) tile
      = (if tile / w.numTilesPerGroup = tileReg (tileEnd / w.numTilesPerGroup) ∧
            tile % w.numTilesPerGroup < tileEnd % w.numTilesPerGroup then 1 else 0)
        + if 16 / w.numTilesPerGroup ≤ tile / w.numTilesPerGroup ∧
            tile / w.numTilesPerGroup < tileEnd / w.numTilesPerGroup then 1 else 0 := by
  have hr := Nat.mod_lt tileInit hT
  have hq : 16 / w.numTilesPerGroup ≤ 16 := Nat.div_le_self _ _
  have hge : tileEnd / w.numTilesPerGroup ≤ w.numGroups := by
    refine Nat.le_trans (Nat.div_le_div_right hend) ?_
    rw [Nat.mul_div_cancel_left _ hT]
  have hrej : ¬ bitMask (sub32 16 (tileInit % w.numTilesPerGroup))
      (tileInit % w.numTilesPerGroup) ≤ 2 ^ w.numTilesPerGroup - 1 := by
    refine not_le_of_testBit (Nat.le_of_lt_succ hT16) ?_
    rw [sub32_eq (by omega) (by omega), testBit_bitMask (by omega) (by omega), decide_eq_true_eq]
    omega
  rw [tileWoken_longWrites, tileWakes_last hT (by omega), tileWoken_groupWrites hG hq hge,
    tileWakes_wakeUpTile, decide_eq_false hrej, Bool.and_false, Bool.false_and,
    if_neg Bool.false_ne_true, Nat.zero_add]
  simp only [decide_eq_true_eq]

theorem exact_long_small (hT : 0 < w.numTilesPerGroup) (hT16 : w.numTilesPerGroup < 16)
    (hG : w.numGroups ≤ 16) (hd : w.numTilesPerGroup < tileEnd - tileInit)
    (hend : tileEnd ≤ w.numTilesPerGroup * w.numGroups) :
    Exact w (longWrites w tileInit tileEnd) tileInit tileEnd ↔
      tileInit = w.numTilesPerGroup * (16 / w.numTilesPerGroup) ∧
        (tileEnd % w.numTilesPerGroup = 0 ∨ tileEnd / w.numTilesPerGroup < 8) := by
  simp only [Exact, tileWoken_long_small hT hT16 hG hend]
  generalize hTG : w.numTilesPerGroup * w.numGroups = tiles at hend ⊢
  generalize w.numTilesPerGroup = T at *
  have hdmi := Nat.div_add_mod tileInit T
  have hdme := Nat.div_add_mod tileEnd T
  have hri := Nat.mod_lt tileInit hT
  have hre := Nat.mod_lt tileEnd hT
  generalize 16 / T = q
  generalize hge : tileEnd / T = ge at *
  generalize tileEnd % T = e at *
  have hle : ∀ k tile, k ≤ tile / T ↔ T * k ≤ tile := by
    intro k tile
    rw [Nat.le_div_iff_mul_le hT, Nat.mul_comm]
  have hlt : ∀ k tile, tile / T < k ↔ tile < T * k := by
    intro k tile
    rw [Nat.div_lt_iff_lt_mul hT, Nat.mul_comm]
  constructor
  · intro h
    -- only the group write can wake the last tile of the first group
    have hfirst := h (T * (tileInit / T) + (T - 1)) (by omega)
    have hblock : (T * (tileInit / T) + (T - 1)) / T = tileInit / T :=
      (div_eq_iff_block hT).mpr ⟨by omega, by omega⟩
    rw [if_pos (by omega : tileInit ≤ T * (tileInit / T) + (T - 1) ∧
        T * (tileInit / T) + (T - 1) < tileEnd), Nat.mul_add_mod,
      Nat.mod_eq_of_lt (by omega : T - 1 < T), if_neg (by omega), hblock] at hfirst
    have hq : q ≤ tileInit / T ∧ tileInit / T < ge := by
      by_contra hno
      rw [if_neg hno] at hfirst
      cases hfirst
    have hqi := (hle _ _).mp hq.1
    -- which wakes its own first tile
    have hown := h (T * q) (by omega)
    rw [Nat.mul_div_cancel_left _ hT, if_pos (by omega : q ≤ q ∧ q < ge)] at hown
    have hti : tileInit = T * q := by
      by_contra hne
      rw [if_neg (by omega : ¬ (tileInit ≤ T * q ∧ T * q < tileEnd))] at hown
      omega
    refine ⟨hti, ?_⟩
    by_contra hno
    rw [not_or, Nat.not_lt] at hno
    have hreg : tileReg ge = 0 := if_neg (by omega)
    have hlost := h (T * ge) (by omega)
    rw [Nat.mul_div_cancel_left _ hT, hreg, if_neg (by omega), if_neg (by omega),
      if_pos (by omega)] at hlost
    cases hlost
  · rintro ⟨hti, hok⟩ tile -
    have hdm := Nat.div_add_mod tile T
    have hm := Nat.mod_lt tile hT
    simp only [hle, hlt]
    by_cases hblock : tile / T = ge
    · rw [hblock] at hdm
      have hsecond : (tile / T = tileReg ge ∧ tile % T < e) ↔ tile % T < e := by
        rw [hblock, tileReg]
        split <;> omega
      rw [if_congr hsecond rfl rfl]
      split <;> split <;> split <;> omega
    · have hsecond : ¬ (tile / T = tileReg ge ∧ tile % T < e) := by
        rw [tileReg]
        split <;> omega
      have hout : tile < T * ge ∨ T * ge + T ≤ tile := by
        rw [div_eq_iff_block hT] at hblock
        omega
      rw [if_neg hsecond]
      split <;> split <;> omega

end Masked

/-! ## Ranges of whole tiles -/

section Aligned

variable {c : Cluster} {tileInit tileEnd : Nat}

theorem Cluster.mul_tile_le (c : Cluster) {t : Nat} (h : t ≤ c.numTilesPerGroup * c.numGroups) :
    c.numCoresPerTile * t ≤ c.numCores := by
  have := Nat.mul_le_mul_left c.numCoresPerTile h
  rw [WakeParams.numCores, WakeParams.numCoresPerGroup, Nat.mul_assoc]
  exact this

theorem Cluster.div_group (c : Cluster) (t : Nat) :
    c.numCoresPerTile * t / c.numCoresPerGroup = t / c.numTilesPerGroup :=
  Nat.mul_div_mul_left _ _ c.numCoresPerTile_pos

/-- The group stage of a range of whole tiles. -/
theorem groupRemainder_aligned (c : Cluster) (ti te : Nat) :
    groupRemainder c.toWakeParams (c.numCoresPerTile * ti) (c.numCoresPerTile * te)
      = groupWrites (ti / c.numTilesPerGroup) (te / c.numTilesPerGroup) := by
  simp only [groupRemainder, c.div_group, groupWrites]

theorem groupWrites_self {q : Nat} (h : q < 2 ^ 32) : groupWrites q q = [] := by
  rw [groupWrites, sub32_eq (Nat.le_refl _) h, Nat.sub_self, if_neg (by decide)]

/-- `core_init` after the tiles: the distance to tile 16, also if that lies behind. -/
theorem advance_to_16 (p t : Nat) (ht : t ≤ 2 ^ 32) :
    u32 (p * t + u32 (p * sub32 16 t)) = u32 (p * 16) := by
  have hsub : p * sub32 16 t % 2 ^ 32 = p * (16 + 2 ^ 32 - t) % 2 ^ 32 := by
    rw [sub32, u32, Nat.mul_mod_mod]
  have hsum : p * t + p * (16 + 2 ^ 32 - t) = p * 16 + p * 2 ^ 32 := by
    rw [← Nat.mul_add, ← Nat.mul_add]
    congr 1
    omega
  rw [u32, u32, u32, Nat.add_mod_mod, Nat.add_mod, hsub, ← Nat.add_mod, hsum,
    Nat.add_mul_mod_self_right]

theorem maskWrites_long (h : c.numTilesPerGroup < tileEnd - tileInit)
    (hend : tileEnd ≤ c.numTilesPerGroup * c.numGroups) :
    maskWrites c.toWakeParams (c.numCoresPerTile * tileInit) (c.numCoresPerTile * tileEnd)
      = longWrites c.toWakeParams tileInit tileEnd := by
  have hc := c.numCoresPerTile_pos
  have hT := c.numTilesPerGroup_pos
  have hfits := c.fits
  have hle := c.mul_tile_le hend
  have hte : tileEnd ≤ c.numCoresPerTile * tileEnd := Nat.le_mul_of_pos_left _ hc
  have hp : c.numCoresPerTile ≤ c.numCoresPerTile * tileEnd :=
    Nat.le_mul_of_pos_right _ (by omega)
  have hstart : c.numCoresPerTile * 16 < 2 ^ 32 := by
    have : c.numCoresPerTile * 2 ≤ c.numCoresPerTile * tileEnd :=
      Nat.mul_le_mul_left _ (by omega)
    omega
  have hgroupEnd : sub32 (c.numCoresPerTile * tileEnd)
        (u32 (c.numCoresPerTile * tileEnd) % c.numTilesPerGroup) / c.numCoresPerGroup
      = tileEnd / c.numTilesPerGroup := by
    have hwhole := Nat.div_add_mod (c.numCoresPerTile * tileEnd) c.numTilesPerGroup
    rw [u32_eq (by omega), sub32_eq (Nat.mod_le _ _) (by omega), Nat.sub_eq_of_eq_add hwhole.symm,
      WakeParams.numCoresPerGroup, Nat.mul_comm c.numCoresPerTile c.numTilesPerGroup,
      Nat.mul_div_mul_left _ _ hT, Nat.div_div_eq_div_mul,
      Nat.mul_comm c.numTilesPerGroup c.numCoresPerTile, Nat.mul_div_mul_left _ _ hc]
  have htiles : tileRemainder c.toWakeParams (c.numCoresPerTile * tileInit)
        (c.numCoresPerTile * tileEnd)
      = ([wakeUpTile (tileInit / c.numTilesPerGroup)
            (bitMask (sub32 16 (tileInit % c.numTilesPerGroup))
              (tileInit % c.numTilesPerGroup)),
          wakeUpTile (tileEnd / c.numTilesPerGroup)
            (bitMask (tileEnd % c.numTilesPerGroup) 0)],
        c.numCoresPerTile * 16,
        sub32 (c.numCoresPerTile * tileEnd)
          (u32 (c.numCoresPerTile * tileEnd) % c.numTilesPerGroup)) := by
    simp only [tileRemainder, Nat.mul_div_cancel_left _ hc]
    rw [sub32_eq (by omega) (by omega), if_pos h, advance_to_16 _ _ (by omega), u32_eq hstart,
      lastMask_eq]
  simp only [maskWrites, htiles, longWrites, groupRemainder, hgroupEnd, c.div_group, groupWrites]

theorem maskWrites_short (h : tileEnd - tileInit < c.numTilesPerGroup) (hle : tileInit ≤ tileEnd)
    (hend : tileEnd ≤ c.numTilesPerGroup * c.numGroups) :
    maskWrites c.toWakeParams (c.numCoresPerTile * tileInit) (c.numCoresPerTile * tileEnd)
      = [wakeUpTile (tileInit / c.numTilesPerGroup)
          (bitMask (tileEnd - tileInit) (tileInit % c.numTilesPerGroup))] := by
  have hc := c.numCoresPerTile_pos
  have hfits := c.fits
  have hlen := c.mul_tile_le hend
  have hte : tileEnd ≤ c.numCoresPerTile * tileEnd := Nat.le_mul_of_pos_left _ hc
  have hstep : c.numCoresPerTile * tileInit + c.numCoresPerTile * (tileEnd - tileInit)
      = c.numCoresPerTile * tileEnd := by
    rw [← Nat.mul_add]
    congr 1
    omega
  have htiles : tileRemainder c.toWakeParams (c.numCoresPerTile * tileInit)
        (c.numCoresPerTile * tileEnd)
      = ([wakeUpTile (tileInit / c.numTilesPerGroup)
            (bitMask (tileEnd - tileInit) (tileInit % c.numTilesPerGroup))],
        c.numCoresPerTile * tileEnd, c.numCoresPerTile * tileEnd) := by
    simp only [tileRemainder, Nat.mul_div_cancel_left _ hc]
    rw [sub32_eq hle (by omega), if_neg (by omega), if_pos h,
      u32_eq (by omega : c.numCoresPerTile * (tileEnd - tileInit) < 2 ^ 32), hstep,
      u32_eq (by omega)]
  have hgroup : tileEnd / c.numTilesPerGroup < 2 ^ 32 :=
    Nat.lt_of_le_of_lt (Nat.div_le_self _ _) (by omega)
  simp only [maskWrites, htiles, groupRemainder_aligned, groupWrites_self hgroup, List.append_nil]

theorem maskWrites_group (h : tileEnd - tileInit = c.numTilesPerGroup)
    (hend : tileEnd ≤ c.numTilesPerGroup * c.numGroups) :
    maskWrites c.toWakeParams (c.numCoresPerTile * tileInit) (c.numCoresPerTile * tileEnd)
      = groupWrites (tileInit / c.numTilesPerGroup) (tileEnd / c.numTilesPerGroup) := by
  have hc := c.numCoresPerTile_pos
  have hT := c.numTilesPerGroup_pos
  have hfits := c.fits
  have hlen := c.mul_tile_le hend
  have hte : tileEnd ≤ c.numCoresPerTile * tileEnd := Nat.le_mul_of_pos_left _ hc
  have hsub : sub32 tileEnd tileInit = c.numTilesPerGroup := by
    rw [sub32_eq (by omega) (by omega), h]
  have htiles : tileRemainder c.toWakeParams (c.numCoresPerTile * tileInit)
        (c.numCoresPerTile * tileEnd)
      = ([], c.numCoresPerTile * tileInit, c.numCoresPerTile * tileEnd) := by
    simp only [tileRemainder, Nat.mul_div_cancel_left _ hc]
    rw [hsub, if_neg (Nat.lt_irrefl _), if_neg (Nat.lt_irrefl _)]
  rw [maskWrites, htiles, List.nil_append]
  exact groupRemainder_aligned c tileInit tileEnd

/-- No tiles: a mask of zeros wakes nobody. -/
theorem exact_empty (w : WakeParams) (g r t : Nat) :
    Exact w [wakeUpTile g (bitMask 0 r)] t t := by
  intro tile _
  rw [tileWoken_singleton, tileWakes_wakeUpTile, bitMask_zero, Nat.zero_testBit, Bool.and_false,
    if_neg Bool.false_ne_true, if_neg (by omega)]

theorem exact_maskWrites (hG : c.numGroups ≤ 16) (hle : tileInit ≤ tileEnd)
    (hend : tileEnd ≤ c.numTilesPerGroup * c.numGroups) :
    Exact c.toWakeParams (maskWrites c.toWakeParams (c.numCoresPerTile * tileInit)
        (c.numCoresPerTile * tileEnd)) tileInit tileEnd
      ↔ TilesOk c.numTilesPerGroup tileInit tileEnd := by
  have hT := c.numTilesPerGroup_pos
  rcases Nat.lt_trichotomy (tileEnd - tileInit) c.numTilesPerGroup with hshort | heq | hlong
  · rw [maskWrites_short hshort hle hend]
    rcases Nat.eq_or_lt_of_le hle with heq | hlt
    · subst heq
      rw [Nat.sub_self]
      exact iff_of_true (exact_empty _ _ _ _) (.inl (Nat.sub_self _))
    · rw [exact_short hT hlt hend, TilesOk]
      omega
  · rw [maskWrites_group heq hend, exact_group hT hG (by omega) hend, TilesOk]
    omega
  · rw [maskWrites_long hlong hend]
    rcases Nat.lt_trichotomy c.numTilesPerGroup 16 with h16 | h16 | h16
    · rw [exact_long_small hT h16 hG hlong hend, TilesOk]
      omega
    · rw [h16] at hend hlong
      rw [exact_long_16 h16 hG hlong hend, TilesOk, h16]
      omega
    · refine iff_of_false (not_exact_long_large h16 hG hlong hend) ?_
      rw [TilesOk]
      omega

end Aligned

/-! ## The whole range -/

/-- The ranges that the partial barrier wakes as it should. -/
def PartialOk (w : WakeParams) (coreInit numSleepingCores : Nat) : Prop :=
  numSleepingCores < w.numCoresPerTile ∨
  (numSleepingCores ≠ w.numCoresPerTile ∨ coreInit % w.numCoresPerTile = 0) ∧
    TilesOk w.numTilesPerGroup ((coreInit + w.numCoresPerTile - 1) / w.numCoresPerTile)
      ((coreInit + numSleepingCores) / w.numCoresPerTile)

section Range

variable {c : Cluster} {a n : Nat}

theorem partialWakes_eq {w : WakeParams} (hfits : a + n < 2 ^ 32) {cores : List CtrlWrite}
    {x y : Nat} (h : coreRemainder w a (a + n) = (cores, x, y)) :
    partialWakes w a n = cores ++ maskWrites w x y := by
  rw [partialWakes, u32_eq hfits, h, maskWrites, ← List.append_assoc]

theorem isMask_maskWrites (w : WakeParams) (x y : Nat) :
    ∀ write ∈ maskWrites w x y, isMask write = true := by
  have hgroup : ∀ x y, ∀ write ∈ groupRemainder w x y, isMask write = true := by
    intro x y write hw
    simp only [groupRemainder] at hw
    split at hw
    · rw [List.mem_singleton.mp hw]
      rfl
    · cases hw
  have htile : ∀ write ∈ (tileRemainder w x y).1, isMask write = true := by
    intro write hw
    simp only [tileRemainder] at hw
    split at hw
    · rcases List.mem_pair.mp hw with rfl | rfl <;> exact isMask_tile _ _
    · split at hw
      · rw [List.mem_singleton.mp hw]
        exact isMask_tile _ _
      · cases hw
  intro write hw
  rcases List.mem_append.mp hw with hw | hw
  · exact htile write hw
  · exact hgroup _ _ write hw

/-- The first stage of a range larger than a tile leaves its whole tiles. -/
theorem coreRemainder_large (hn : c.numCoresPerTile < n) (hend : a + n ≤ c.numCores) :
    ∃ cores, coreRemainder c.toWakeParams a (a + n)
        = (cores, c.numCoresPerTile * ((a + c.numCoresPerTile - 1) / c.numCoresPerTile),
            c.numCoresPerTile * ((a + n) / c.numCoresPerTile)) ∧
      ∀ core, woken c.toWakeParams cores core
        = if (a ≤ core ∧
              core < c.numCoresPerTile * ((a + c.numCoresPerTile - 1) / c.numCoresPerTile)) ∨
            (c.numCoresPerTile * ((a + n) / c.numCoresPerTile) ≤ core ∧ core < a + n)
          then 1 else 0 := by
  have hc := c.numCoresPerTile_pos
  have hfits := c.fits
  have hdiv := Nat.div_add_mod (a + c.numCoresPerTile - 1) c.numCoresPerTile
  have hmod := Nat.mod_lt (a + c.numCoresPerTile - 1) hc
  have hdiv' := Nat.div_add_mod (a + n) c.numCoresPerTile
  have hmod' := Nat.mod_lt (a + n) hc
  have hle : c.numCoresPerTile * ((a + c.numCoresPerTile - 1) / c.numCoresPerTile)
      ≤ c.numCoresPerTile * ((a + n) / c.numCoresPerTile) :=
    Nat.mul_le_mul_left _ (Nat.div_le_div_right (by omega))
  generalize (a + c.numCoresPerTile - 1) / c.numCoresPerTile = ti at hdiv hle ⊢
  generalize (a + n) / c.numCoresPerTile = te at hdiv' hle ⊢
  have hup := @wakeToTile_eq c ti (c.numCoresPerTile * ti - a) (by omega) (by omega)
    c.numCoresPerTile (by omega)
  rw [Nat.sub_sub_self (by omega : a ≤ c.numCoresPerTile * ti)] at hup
  obtain ⟨hstop, hdown⟩ := wakeFromTile_eq (c := c) te ((a + n) % c.numCoresPerTile) hmod'
  rw [hdiv'] at hstop hdown
  refine ⟨wakeCores a (c.numCoresPerTile * ti - a) ++ (wakeFromTile c.toWakeParams (a + n)).1,
    ?_, ?_⟩
  · rw [coreRemainder, sub32_eq (by omega) (by omega), if_pos (by omega), hup, ← hstop]
  · intro core
    rw [woken_append, woken_wakeCores (by omega), hdown hend,
      Nat.add_sub_cancel' (by omega : a ≤ c.numCoresPerTile * ti)]
    split <;> split <;> split <;> omega

/-- What is left to the masks is decided by tiles. -/
theorem exact_iff_tiles {cores masks : List CtrlWrite} {b ti te : Nat}
    (hmask : ∀ write ∈ masks, isMask write = true) (ha : a ≤ c.numCoresPerTile * ti)
    (hle : ti ≤ te) (hb : c.numCoresPerTile * te ≤ b)
    (hcores : ∀ core, woken c.toWakeParams cores core
      = if (a ≤ core ∧ core < c.numCoresPerTile * ti) ∨
          (c.numCoresPerTile * te ≤ core ∧ core < b) then 1 else 0) :
    (∀ core < c.numCores, woken c.toWakeParams (cores ++ masks) core
        = if a ≤ core ∧ core < b then 1 else 0) ↔
      Exact c.toWakeParams masks ti te := by
  have hc := c.numCoresPerTile_pos
  have hmul := Nat.mul_le_mul_left c.numCoresPerTile hle
  have hlower : ∀ core, ti ≤ core / c.numCoresPerTile ↔ c.numCoresPerTile * ti ≤ core := by
    intro core
    rw [Nat.le_div_iff_mul_le hc, Nat.mul_comm]
  have hupper : ∀ core, core / c.numCoresPerTile < te ↔ core < c.numCoresPerTile * te := by
    intro core
    rw [Nat.div_lt_iff_lt_mul hc, Nat.mul_comm]
  constructor
  · intro h tile htile
    have hlt : c.numCoresPerTile * tile < c.numCores := by
      rw [WakeParams.numCores, WakeParams.numCoresPerGroup, Nat.mul_assoc]
      exact Nat.mul_lt_mul_of_pos_left htile hc
    have := h (c.numCoresPerTile * tile) hlt
    rw [woken_append, woken_eq_tileWoken hmask, hcores, Nat.mul_div_cancel_left _ hc] at this
    have hlo := hlower (c.numCoresPerTile * tile)
    have hup := hupper (c.numCoresPerTile * tile)
    rw [Nat.mul_div_cancel_left _ hc] at hlo hup
    rw [if_congr (and_congr hlo hup) rfl rfl]
    split at this <;> split at this <;> split <;> omega
  · intro h core hcore
    have htile : core / c.numCoresPerTile < c.numTilesPerGroup * c.numGroups := by
      rw [Nat.div_lt_iff_lt_mul hc, Nat.mul_comm _ c.numCoresPerTile, ← Nat.mul_assoc]
      exact hcore
    rw [woken_append, woken_eq_tileWoken hmask, hcores, h _ htile,
      if_congr (and_congr (hlower core) (hupper core)) rfl rfl]
    split <;> split <;> split <;> omega

/-- A range smaller than a tile is woken core by core, and a mask of zeros follows. -/
theorem partialWakes_small (hn : n < c.numCoresPerTile) (hend : a + n ≤ c.numCores) (core : Nat) :
    woken c.toWakeParams (partialWakes c.toWakeParams a n) core
      = if a ≤ core ∧ core < a + n then 1 else 0 := by
  have hfits := c.fits
  have hT := c.numTilesPerGroup_pos
  have hsub : ∀ x < 2 ^ 32, sub32 x x = 0 := by
    intro x hx
    rw [sub32_eq (Nat.le_refl x) hx, Nat.sub_self]
  have hdiv : (a + n) / c.numCoresPerTile < 2 ^ 32 :=
    Nat.lt_of_le_of_lt (Nat.div_le_self _ _) (by omega)
  have hcores : coreRemainder c.toWakeParams a (a + n) = (wakeCores a n, a + n, a + n) := by
    rw [coreRemainder, sub32_eq (by omega) (by omega), Nat.add_sub_cancel_left,
      if_neg (by omega), if_pos hn]
  have htiles : tileRemainder c.toWakeParams (a + n) (a + n)
      = ([wakeUpTile ((a + n) / c.numCoresPerTile / c.numTilesPerGroup)
          (bitMask 0 ((a + n) / c.numCoresPerTile % c.numTilesPerGroup))], a + n, a + n) := by
    simp only [tileRemainder, hsub _ hdiv]
    rw [if_neg (by omega), if_pos hT, Nat.mul_zero, u32_eq (by omega : 0 < 2 ^ 32), Nat.add_zero,
      u32_eq (by omega)]
  have hgroups : groupRemainder c.toWakeParams (a + n) (a + n) = [] := by
    simp only [groupRemainder]
    rw [hsub _ (Nat.lt_of_le_of_lt (Nat.div_le_self _ _) (by omega)), if_neg (by omega)]
  rw [partialWakes_eq (by omega) hcores, maskWrites, htiles, hgroups, List.append_nil,
    woken_append, woken_wakeCores hend, woken, List.countP_singleton,
    wakes_eq_tileWakes (isMask_tile _ _), tileWakes_wakeUpTile, bitMask_zero, Nat.zero_testBit,
    Bool.and_false, if_neg Bool.false_ne_true, Nat.add_zero]

/-- A range of one tile's size is left to the masks as it is. -/
theorem coreRemainder_tile (hend : a + c.numCoresPerTile ≤ c.numCores) :
    coreRemainder c.toWakeParams a (a + c.numCoresPerTile) = ([], a, a + c.numCoresPerTile) := by
  have hfits := c.fits
  have hsub : sub32 (a + c.numCoresPerTile) a = c.numCoresPerTile := by
    rw [sub32_eq (by omega) (by omega), Nat.add_sub_cancel_left]
  rw [coreRemainder, hsub, if_neg (Nat.lt_irrefl _), if_neg (Nat.lt_irrefl _)]

theorem div_pred_of_mod {p x : Nat} (hp : 0 < p) (h : x % p ≠ 0) : (x - 1) / p = x / p := by
  have hdm := Nat.div_add_mod x p
  have hlt := Nat.mod_lt x hp
  rw [div_eq_iff_block hp]
  omega

/-- The masks wake whole tiles, which such a range need not be. -/
theorem not_exact_unaligned (h : a % c.numCoresPerTile ≠ 0) {b : Nat} (hb : a < b)
    (hend : b ≤ c.numCores) {masks : List CtrlWrite}
    (hmask : ∀ write ∈ masks, isMask write = true) :
    ¬ ∀ core < c.numCores, woken c.toWakeParams masks core
        = if a ≤ core ∧ core < b then 1 else 0 := by
  intro hall
  have ha : a ≠ 0 := by
    rintro rfl
    exact h (Nat.zero_mod _)
  have hin := hall a (by omega)
  have hout := hall (a - 1) (by omega)
  rw [woken_eq_tileWoken hmask, if_pos (by omega)] at hin
  rw [woken_eq_tileWoken hmask, div_pred_of_mod c.numCoresPerTile_pos h, hin,
    if_neg (by omega)] at hout
  cases hout

/-- The wake-ups of one call of the last core. -/
theorem partialWakes_iff (hG : c.numGroups ≤ 16) (hend : a + n ≤ c.numCores) :
    (∀ core < c.numCores, woken c.toWakeParams (partialWakes c.toWakeParams a n) core
        = if a ≤ core ∧ core < a + n then 1 else 0) ↔ PartialOk c.toWakeParams a n := by
  have hc := c.numCoresPerTile_pos
  have hfits := c.fits
  have htiles : (a + n) / c.numCoresPerTile ≤ c.numTilesPerGroup * c.numGroups := by
    rw [Nat.div_le_iff_le_mul_add_pred hc, ← Nat.mul_assoc]
    exact Nat.le_add_right_of_le hend
  rcases Nat.lt_trichotomy n c.numCoresPerTile with hsmall | htile | hlarge
  · exact iff_of_true (fun core _ => partialWakes_small hsmall hend core) (.inl hsmall)
  · subst htile
    rw [partialWakes_eq (by omega) (coreRemainder_tile hend)]
    by_cases hmod : a % c.numCoresPerTile = 0
    · obtain ⟨t, rfl⟩ := Nat.dvd_of_mod_eq_zero hmod
      have hinit : (c.numCoresPerTile * t + c.numCoresPerTile - 1) / c.numCoresPerTile = t :=
        (div_eq_iff_block hc).mpr ⟨by omega, by omega⟩
      have hnext : c.numCoresPerTile * t + c.numCoresPerTile = c.numCoresPerTile * (t + 1) :=
        (Nat.mul_succ _ _).symm
      have hdiv : c.numCoresPerTile * (t + 1) / c.numCoresPerTile = t + 1 :=
        Nat.mul_div_cancel_left _ hc
      have hnone : ∀ core, woken c.toWakeParams [] core
          = if (c.numCoresPerTile * t ≤ core ∧ core < c.numCoresPerTile * t) ∨
              (c.numCoresPerTile * (t + 1) ≤ core ∧ core < c.numCoresPerTile * (t + 1))
            then 1 else 0 := by
        intro core
        rw [if_neg (by omega)]
        rfl
      rw [hnext, hdiv] at htiles
      rw [PartialOk, hinit, hnext, hdiv]
      refine ((exact_iff_tiles (isMask_maskWrites _ _ _) (Nat.le_refl _) (Nat.le_succ t)
        (Nat.le_refl _) hnone).trans (exact_maskWrites hG (Nat.le_succ t) htiles)).trans ?_
      simp [Nat.mul_mod_right]
    · rw [List.nil_append]
      refine iff_of_false (not_exact_unaligned hmod (by omega) hend (isMask_maskWrites _ _ _)) ?_
      rw [PartialOk]
      omega
  · obtain ⟨cores, hrem, hcores⟩ := coreRemainder_large hlarge hend
    have hdiv := Nat.div_add_mod (a + c.numCoresPerTile - 1) c.numCoresPerTile
    have hmod := Nat.mod_lt (a + c.numCoresPerTile - 1) hc
    have hle : (a + c.numCoresPerTile - 1) / c.numCoresPerTile ≤ (a + n) / c.numCoresPerTile :=
      Nat.div_le_div_right (by omega)
    rw [partialWakes_eq (by omega) hrem]
    refine ((exact_iff_tiles (isMask_maskWrites _ _ _) (by omega) hle (Nat.mul_div_le _ _)
      hcores).trans (exact_maskWrites hG hle htiles)).trans ?_
    rw [PartialOk]
    constructor
    · intro h
      exact .inr ⟨.inl (by omega), h⟩
    · rintro (h | h)
      · omega
      · exact h.2

end Range

/-! ## One episode -/

/-- The last of the callers writes, once. -/
theorem foldl_arrive {w : WakeParams} {a n : Nat} (hfits : a + n < 2 ^ 32) {order : List Nat}
    (hmem : ∀ core ∈ order, a ≤ core ∧ core < a + n) (hne : order ≠ []) {s : PartialState}
    (hcount : s.counter + order.length = n) :
    order.foldl (arrive w a n) s
      = { counter := 0, writes := s.writes ++ partialWakes w a n } := by
  induction order generalizing s with
  | nil => exact absurd rfl hne
  | cons core rest ih =>
      have hcore := hmem core List.mem_cons_self
      rw [List.length_cons] at hcount
      have hin : core ≥ a ∧ core < u32 (a + n) := by
        rw [u32_eq hfits]
        exact hcore
      rw [List.foldl_cons, arrive, if_pos hin, sub32_eq (by omega) (by omega)]
      cases rest with
      | nil =>
          rw [if_pos (by rw [List.length_nil] at hcount; omega)]
          rfl
      | cons next rest =>
          rw [List.length_cons] at hcount
          rw [if_neg (by omega), u32_eq (by omega)]
          exact ih (fun x hx => hmem x (List.mem_cons_of_mem _ hx)) (List.cons_ne_nil _ _)
            (by rw [List.length_cons]; show s.counter + 1 + _ = n; omega)

/-- The partial barrier wakes each core of its range once and no other, whatever order its
cores arrive in, exactly for the ranges of `PartialOk`. -/
theorem partial_barrier (c : Cluster) (hG : c.numGroups ≤ 16) (coreInit n : Nat) (hn : 1 ≤ n)
    (hend : coreInit + n ≤ c.numCores) (order : List Nat)
    (horder : order.Perm (List.range' coreInit n)) :
    (∀ core < c.numCores,
      woken c.toWakeParams (order.foldl (arrive c.toWakeParams coreInit n) ⟨0, []⟩).writes core
        = if coreInit ≤ core ∧ core < coreInit + n then 1 else 0) ↔
      PartialOk c.toWakeParams coreInit n := by
  have hfits := c.fits
  have hlen : order.length = n := by rw [horder.length_eq, List.length_range']
  have hmem : ∀ core ∈ order, coreInit ≤ core ∧ core < coreInit + n := by
    intro core hcore
    have := List.mem_range'_1.mp (horder.mem_iff.mp hcore)
    omega
  have hne : order ≠ [] := by
    rintro rfl
    rw [List.length_nil] at hlen
    omega
  rw [foldl_arrive (by omega) hmem hne (by rw [hlen]; exact Nat.zero_add n), List.nil_append]
  exact partialWakes_iff hG hend

/-- Four groups of 16 tiles of four cores. -/
def mempool : Cluster := ⟨⟨4, 16, 4⟩, by decide, by decide⟩

/-- The cores 65 to 125 arrive in reverse order, and are woken by cores and by tiles. -/
theorem partial_barrier_65_61 :
    woken mempool.toWakeParams
      ((List.range' 65 61).reverse.foldl (arrive mempool.toWakeParams 65 61) ⟨0, []⟩).writes 70
        = 1 :=
  (partial_barrier mempool (by decide) 65 61 (by decide) (by decide) (List.range' 65 61).reverse
    (List.reverse_perm _)).mpr (by unfold PartialOk TilesOk; decide) 70 (by decide)

/-- The cores 60 to 67 are the last tile of a group and the first of the next: the mask does
not fit, and nobody is woken. -/
theorem partial_barrier_loses_60_8 : ¬ ∀ core < mempool.numCores,
    woken mempool.toWakeParams
      ((List.range' 60 8).foldl (arrive mempool.toWakeParams 60 8) ⟨0, []⟩).writes core
        = if 60 ≤ core ∧ core < 60 + 8 then 1 else 0 := by
  intro h
  have hlost : woken mempool.toWakeParams
      ((List.range' 60 8).foldl (arrive mempool.toWakeParams 60 8) ⟨0, []⟩).writes 60 = 0 := by
    decide +kernel
  rw [h 60 (by decide)] at hlost
  cases hlost

end TeraNoC.Runtime
