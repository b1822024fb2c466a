import TeraNoC.Hw.CtrlRegisters
import TeraNoC.Lib.Bits

/-!
# Which cores a write wakes

The loop over the mask reaches the cores at the offset and every stride above it if the
stride is not zero and the first sum past the cores does not wrap around into them again
(`CountsUp`). A history in which every write of a stride or an offset leaves such a pair
runs through, and each pulse is the one that the write asks for, among the cores that
the last pair selects.

A mask with a bit for a tile or a group that does not exist is not decoded at all.
-/

namespace TeraNoC.Hw

open TeraNoC.Lib

/-! ## What is asked of the decoding -/

def lastStrd (cs : List (Option CtrlWrite)) : Nat :=
  cs.foldl (fun v c => match c with | some (.wakeUpStrd v') => v' | _ => v) 0

def lastOffst (cs : List (Option CtrlWrite)) : Nat :=
  cs.foldl (fun v c => match c with | some (.wakeUpOffst v') => v' | _ => v) 0

/-- The write is of a stride or an offset. -/
def CtrlWrite.selects : CtrlWrite → Bool
  | .wakeUpStrd _ | .wakeUpOffst _ => true
  | _ => false

/-- The core is one of those selected by the stride and offset last written. -/
def Member (cs : List (Option CtrlWrite)) (core : Nat) : Prop :=
  (∃ write, some write ∈ cs ∧ write.selects = true) →
    ∃ k, core = lastOffst cs + k * lastStrd cs

/-- The cores that a write names. -/
def WakeParams.Names (w : WakeParams) : CtrlWrite → Nat → Prop
  | .wakeUp v, core => core = v ∨ w.numCores ≤ v
  | .wakeUpTile g mask, core => ∃ t < w.numTilesPerGroup, mask.testBit t = true ∧
      core / w.numCoresPerTile = w.numTilesPerGroup * g + t
  | .wakeUpGroup mask, core => mask = 2 ^ 32 - 1 ∨
      ∃ g < w.numGroups, mask.testBit g = true ∧ core / w.numCoresPerGroup = g
  | .wakeUpStrd _, _ | .wakeUpOffst _, _ => False

/-- A mask has bits for tiles or groups that exist only, or asks for all groups. -/
def WakeParams.Exists (w : WakeParams) : CtrlWrite → Prop
  | .wakeUpTile _ mask => mask < 2 ^ w.numTilesPerGroup
  | .wakeUpGroup mask => mask < 2 ^ w.numGroups ∨ mask = 2 ^ 32 - 1
  | _ => True

/-- The cycles run through, and the cores pulsed after them are those that a write in the
last cycle wakes and the writes before it select. -/
def WakeParams.PulsesAre (w : WakeParams) (wakes : CtrlWrite → Nat → Prop) (fuel : Nat)
    (cs : List (Option CtrlWrite)) : Prop :=
  ∃ s, ctrlRun w fuel cs = some s ∧ ∀ core < w.numCores, w.wakeUpO s core = true ↔
    ∃ before write, cs = before ++ [some write] ∧ wakes write core ∧ Member before core

/-- The loop from `offst` leaves the cores with the first sum past them: the stride is not
zero, and the sum in 32 bits is still past the cores. -/
def WakeParams.CountsUp (w : WakeParams) (offst strd : Nat) : Prop :=
  w.numCores ≤ offst ∨ 0 < strd ∧
    w.numCores ≤ (offst + ((w.numCores - 1 - offst) / strd + 1) * strd) % 2 ^ 32

/-- Every write of a stride or an offset leaves a pair that counts up. -/
def WakeParams.Counted (w : WakeParams) (cs : List (Option CtrlWrite)) : Prop :=
  ∀ before write after, cs = before ++ some write :: after → write.selects = true →
    w.CountsUp (lastOffst (before ++ [some write])) (lastStrd (before ++ [some write]))

/-! ## The loop -/

theorem strided_iff {strd offst core : Nat} :
    strided strd offst core = true ↔ ∃ k, core = offst + k * strd := by
  rw [strided, Bool.and_eq_true, decide_eq_true_iff, decide_eq_true_iff]
  constructor
  · rintro ⟨hle, hmod⟩
    refine ⟨(core - offst) / strd, ?_⟩
    rw [Nat.div_mul_cancel (Nat.dvd_of_mod_eq_zero hmod)]
    omega
  · rintro ⟨k, rfl⟩
    rw [Nat.add_sub_cancel_left]
    exact ⟨Nat.le_add_right .., Nat.mul_mod_left ..⟩

theorem foldl_update_true {f : Nat → Nat} {n core : Nat} :
    (List.range n).foldl (fun mask k => Function.update mask (f k) true) (fun _ => false) core
      = true ↔ ∃ k < n, core = f k := by
  induction n with
  | zero => simp
  | succ n ih =>
      rw [List.range_succ, List.foldl_append, List.foldl_cons, List.foldl_nil,
        Function.update_apply]
      split
      next heq => exact iff_of_true rfl ⟨n, Nat.lt_succ_self n, heq⟩
      next hne =>
        rw [ih]
        constructor
        · rintro ⟨k, hk, heq⟩
          exact ⟨k, Nat.lt_succ_of_lt hk, heq⟩
        · rintro ⟨k, hk, heq⟩
          rcases Nat.lt_succ_iff_lt_or_eq.mp hk with hk | rfl
          · exact ⟨k, hk, heq⟩
          · exact absurd heq hne

/-- A pair that counts up gives the loop its set within the cores, in at most a turn a core. -/
theorem WakeParams.CountsUp.loop {w : WakeParams} {offst strd fuel : Nat}
    (h : w.CountsUp offst strd) (hfuel : w.numCores ≤ fuel) :
    ∃ mask, forLoop (fun i => i < w.numCores) (fun i => (i + strd) % 2 ^ 32)
        (fun i mask => Function.update mask i true) fuel offst (fun _ => false) = some mask ∧
      ∀ core < w.numCores, mask core = strided strd offst core := by
  rcases Nat.lt_or_ge offst w.numCores with hlt | hge
  · obtain ⟨hpos, hend⟩ := h.resolve_left (by omega)
    have h32 := Nat.mod_lt (offst + ((w.numCores - 1 - offst) / strd + 1) * strd)
      (Nat.two_pow_pos 32)
    have hfirst := Nat.div_mul_le_self (w.numCores - 1 - offst) strd
    have hlast := Nat.lt_div_mul_add (a := w.numCores - 1 - offst) hpos
    have hturns : (w.numCores - 1 - offst) / strd ≤ w.numCores - 1 - offst := Nat.div_le_self ..
    generalize hn : (w.numCores - 1 - offst) / strd = n at hend hfirst hlast hturns
    have hmul : ∀ k ≤ n, k * strd ≤ n * strd := fun k hk => Nat.mul_le_mul_right _ hk
    have hval : ∀ k ≤ n, (offst + k * strd) % 2 ^ 32 = offst + k * strd := fun k hk => by
      have := hmul k hk
      exact Nat.mod_eq_of_lt (by omega)
    have hloop : forLoop (fun i => i < w.numCores) (fun i => (i + strd) % 2 ^ 32)
        (fun i mask => Function.update mask i true) fuel ((offst + 0 * strd) % 2 ^ 32)
        (fun _ => false) =
        some ((List.range (n + 1)).foldl
          (fun mask k => Function.update mask ((offst + k * strd) % 2 ^ 32) true)
          fun _ => false) := by
      refine forLoop_eq (fun k => (offst + k * strd) % 2 ^ 32) (fun k hk => ?_) ?_
        (fun k _ => ?_) (by omega)
      · have := hmul k (by omega)
        rw [hval k (by omega)]
        exact decide_eq_true (by omega)
      · exact decide_eq_false (Nat.not_lt.mpr hend)
      · rw [Nat.mod_add_mod, Nat.succ_mul, Nat.add_assoc]
    rw [hval 0 (Nat.zero_le _), Nat.zero_mul, Nat.add_zero] at hloop
    refine ⟨_, hloop, fun core hcore => ?_⟩
    rw [Bool.eq_iff_iff, foldl_update_true, strided_iff]
    constructor
    · rintro ⟨k, hk, heq⟩
      exact ⟨k, heq.trans (hval k (by omega))⟩
    · rintro ⟨k, rfl⟩
      have hk : k < n + 1 := by
        by_contra hge
        have : (n + 1) * strd ≤ k * strd := Nat.mul_le_mul_right _ (by omega)
        rw [Nat.succ_mul] at this
        omega
      exact ⟨k, hk, (hval k (by omega)).symm⟩
  · refine ⟨fun _ => false, forLoop_done (decide_eq_false (Nat.not_lt.mpr hge)),
      fun core hcore => ?_⟩
    rw [strided, decide_eq_false (by omega)]
    rfl

/-- A stride of zero never leaves a core that the offset is. -/
theorem wakeUpMaskD_diverges {s : CtrlState} {w : WakeParams}
    (hpulse : s.wakeUpStrdOffstPulse = true) (hstrd : s.wakeUpStrd = 0)
    (hoffst : s.wakeUpOffst < w.numCores) (hcores : w.numCores ≤ 2 ^ 32) (fuel : Nat) :
    s.wakeUpMaskD w fuel = none := by
  rw [CtrlState.wakeUpMaskD, if_pos hpulse, hstrd]
  refine forLoop_diverges (fun i => i < w.numCores) (fun i hi => ⟨decide_eq_true hi, ?_⟩) hoffst
  rw [Nat.add_zero, Nat.mod_eq_of_lt (by omega)]
  exact hi

/-! ## The run -/

/-- The registers hold what was last written, and the mask that is on its way is the set
of the members. -/
structure WakeInv (w : WakeParams) (cs : List (Option CtrlWrite)) (s : CtrlState) : Prop where
  strd : s.wakeUpStrd = lastStrd cs
  offst : s.wakeUpOffst = lastOffst cs
  counts : s.wakeUpStrdOffstPulse = true → w.CountsUp s.wakeUpOffst s.wakeUpStrd
  mask : ∀ core < w.numCores, s.nextMask core = true ↔ Member cs core

theorem wakeInv_reset (w : WakeParams) : WakeInv w [] .reset := by
  refine ⟨rfl, rfl, nofun, fun core _ => iff_of_true rfl ?_⟩
  rintro ⟨write, hwrite, -⟩
  cases hwrite

variable {w : WakeParams} {cs : List (Option CtrlWrite)} {s : CtrlState}

theorem lastStrd_append (c : Option CtrlWrite) : lastStrd (cs ++ [c]) =
    match c with | some (.wakeUpStrd v) => v | _ => lastStrd cs := by
  rw [lastStrd, List.foldl_append]
  rfl

theorem lastOffst_append (c : Option CtrlWrite) : lastOffst (cs ++ [c]) =
    match c with | some (.wakeUpOffst v) => v | _ => lastOffst cs := by
  rw [lastOffst, List.foldl_append]
  rfl

/-- A write of another register does not change who is a member. -/
theorem member_append_of_not_selects {c : Option CtrlWrite} {core : Nat}
    (hc : ∀ write, c = some write → write.selects = false) :
    Member (cs ++ [c]) core ↔ Member cs core := by
  have hstrd : lastStrd (cs ++ [c]) = lastStrd cs := by
    rw [lastStrd_append]
    split
    next v => exact nomatch hc _ rfl
    next => rfl
  have hoffst : lastOffst (cs ++ [c]) = lastOffst cs := by
    rw [lastOffst_append]
    split
    next v => exact nomatch hc _ rfl
    next => rfl
  have hex : (∃ write, some write ∈ cs ++ [c] ∧ write.selects = true) ↔
      ∃ write, some write ∈ cs ∧ write.selects = true := by
    constructor
    · rintro ⟨write, hmem, hsel⟩
      rcases List.mem_append.mp hmem with hmem | hmem
      · exact ⟨write, hmem, hsel⟩
      · rw [hc write (List.mem_singleton.mp hmem).symm] at hsel
        cases hsel
    · rintro ⟨write, hmem, hsel⟩
      exact ⟨write, List.mem_append_left _ hmem, hsel⟩
  rw [Member, Member, hex, hstrd, hoffst]

theorem member_append_of_selects {write : CtrlWrite} (hsel : write.selects = true) {core : Nat} :
    Member (cs ++ [some write]) core ↔
      ∃ k, core = lastOffst (cs ++ [some write]) + k * lastStrd (cs ++ [some write]) :=
  ⟨fun h => h ⟨write, by simp, hsel⟩, fun h _ => h⟩

/-- What `wake_up_mask_q` is loaded with, or keeps, is the members. -/
theorem WakeInv.loads (h : WakeInv w cs s) {fuel : Nat} (hfuel : w.numCores ≤ fuel) :
    ∃ maskD, s.wakeUpMaskD w fuel = some maskD ∧ ∀ core < w.numCores,
      ((if s.wakeUpStrdOffstPulse then maskD else s.wakeUpMask) core = true ↔ Member cs core) := by
  rw [CtrlState.wakeUpMaskD]
  have hmask := h.mask
  rw [CtrlState.nextMask] at hmask
  split
  next hpulse =>
    obtain ⟨maskD, hloop, hset⟩ := (h.counts hpulse).loop hfuel
    rw [if_pos hpulse] at hmask
    exact ⟨maskD, hloop, fun core hcore => by rw [hset core hcore]; exact hmask core hcore⟩
  next hpulse =>
    rw [if_neg hpulse] at hmask
    exact ⟨_, rfl, hmask⟩

/-- A cycle in which the mask register takes `mask` is one of `next` from a state that
holds it. -/
theorem next_with_mask (s : CtrlState) (c : Option CtrlWrite) (mask : Nat → Bool) :
    { s.next c with wakeUpMask := mask } =
      CtrlState.next { s with wakeUpStrdOffstPulse := false, wakeUpMask := mask } c := rfl

theorem WakeInv.clock (h : WakeInv w cs s) {fuel : Nat} (hfuel : w.numCores ≤ fuel)
    {c : Option CtrlWrite} (hcounted : w.Counted (cs ++ [c])) :
    ∃ s', s.clock w fuel c = some s' ∧ WakeInv w (cs ++ [c]) s' ∧
      ∀ core < w.numCores, w.wakeUpO s' core = true ↔
        (∃ write, c = some write ∧ w.wakes write core = true) ∧ Member cs core := by
  obtain ⟨maskD, hloop, hmask⟩ := h.loads hfuel
  generalize hloaded : (if s.wakeUpStrdOffstPulse then maskD else s.wakeUpMask) = mask at hmask
  have hclock : s.clock w fuel c = some { s.next c with wakeUpMask := mask } := by
    rw [CtrlState.clock, hloop, Option.map_some, hloaded]
  have hstrd : (s.next c).wakeUpStrd = lastStrd (cs ++ [c]) := by
    rw [lastStrd_append, ← h.strd]
    rfl
  have hoffst : (s.next c).wakeUpOffst = lastOffst (cs ++ [c]) := by
    rw [lastOffst_append, ← h.offst]
    rfl
  refine ⟨_, hclock, ⟨hstrd, hoffst, fun hpulse => ?_, fun core hcore => ?_⟩, fun core hcore => ?_⟩
  · obtain ⟨write, rfl, hsel⟩ : ∃ write, c = some write ∧ write.selects = true := by
      rcases c with - | (v | ⟨g, mask⟩ | mask | v | v)
      · cases hpulse
      · cases hpulse
      · cases hpulse
      · cases hpulse
      · exact ⟨_, rfl, rfl⟩
      · exact ⟨_, rfl, rfl⟩
    show w.CountsUp (s.next _).wakeUpOffst (s.next _).wakeUpStrd
    rw [hoffst, hstrd]
    exact hcounted cs write [] rfl hsel
  · rw [next_with_mask, nextMask_next]
    split
    next v =>
      rw [member_append_of_selects rfl, strided_iff, lastOffst_append, lastStrd_append, ← h.offst]
    next v =>
      rw [member_append_of_selects rfl, strided_iff, lastOffst_append, lastStrd_append, ← h.strd]
    next c hs ho =>
      rw [member_append_of_not_selects, ← hmask core hcore]
      · rfl
      · rintro (v | ⟨g, mask⟩ | mask | v | v) rfl
        · rfl
        · rfl
        · rfl
        · exact absurd rfl (hs v)
        · exact absurd rfl (ho v)
  · rw [next_with_mask, w.wakeUpO_next, Bool.and_eq_true, ← hmask core hcore, Option.any_eq_true]
    exact Iff.rfl

theorem ctrlRun_append (fuel : Nat) (c : Option CtrlWrite) :
    ctrlRun w fuel (cs ++ [c]) = (ctrlRun w fuel cs).bind fun s => s.clock w fuel c := by
  rw [ctrlRun, List.foldlM_append]
  simp only [List.foldlM_cons, List.foldlM_nil, bind_pure]
  rfl

theorem WakeParams.Counted.before {c : Option CtrlWrite} (h : w.Counted (cs ++ [c])) :
    w.Counted cs := by
  rintro before write after rfl hsel
  exact h before write (after ++ [c]) (by simp) hsel

theorem wakeInv_run {fuel : Nat} (hfuel : w.numCores ≤ fuel) (hcounted : w.Counted cs) :
    ∃ s, ctrlRun w fuel cs = some s ∧ WakeInv w cs s := by
  induction cs using List.reverseRecOn with
  | nil => exact ⟨_, rfl, wakeInv_reset w⟩
  | append_singleton cs c ih =>
      obtain ⟨s, hrun, h⟩ := ih hcounted.before
      obtain ⟨s', hclock, h', -⟩ := h.clock hfuel hcounted
      exact ⟨s', by rw [ctrlRun_append, hrun]; exact hclock, h'⟩

/-! ## The decoding -/

theorem WakeParams.pos_of_core {core : Nat} (hcore : core < w.numCores) :
    0 < w.numCoresPerTile ∧ 0 < w.numTilesPerGroup := by
  have hpos : 0 < w.numCoresPerTile * w.numTilesPerGroup * w.numGroups :=
    Nat.lt_of_le_of_lt (Nat.zero_le _) hcore
  have hgroup := Nat.pos_of_mul_pos_right hpos
  exact ⟨Nat.pos_of_mul_pos_right hgroup, Nat.pos_of_mul_pos_left hgroup⟩

/-- Groups are runs of whole tiles. -/
theorem WakeParams.wakesTile_iff {core g mask : Nat} (hcore : core < w.numCores) :
    w.wakes (.wakeUpTile g mask) core = true ↔
      w.Names (.wakeUpTile g mask) core ∧ mask < 2 ^ w.numTilesPerGroup := by
  obtain ⟨hcpt, htpg⟩ := w.pos_of_core hcore
  have hmask := Nat.two_pow_pos w.numTilesPerGroup
  have hgroup : core / w.numCoresPerGroup = core / w.numCoresPerTile / w.numTilesPerGroup := by
    rw [WakeParams.numCoresPerGroup, Nat.div_div_eq_div_mul]
  have htile : (core - w.numCoresPerGroup * g) / w.numCoresPerTile =
      core / w.numCoresPerTile - w.numTilesPerGroup * g := by
    rw [WakeParams.numCoresPerGroup, Nat.mul_assoc, Nat.sub_mul_div]
  generalize htileId : core / w.numCoresPerTile = q at hgroup htile
  simp only [WakeParams.wakes, WakeParams.wakeUpTiles, WakeParams.Names, hgroup, htile,
    Bool.and_eq_true, beq_iff_eq, decide_eq_true_iff, htileId]
  have hdiv := Nat.div_add_mod q w.numTilesPerGroup
  have hmod := Nat.mod_lt q htpg
  constructor
  · rintro ⟨⟨rfl, hle⟩, hbit⟩
    have hrest : q - w.numTilesPerGroup * (q / w.numTilesPerGroup) = q % w.numTilesPerGroup := by
      omega
    rw [hrest] at hbit
    exact ⟨⟨_, hmod, hbit, hdiv.symm⟩, by omega⟩
  · rintro ⟨⟨t, ht, hbit, rfl⟩, hlt⟩
    have hg : (w.numTilesPerGroup * g + t) / w.numTilesPerGroup = g := by
      rw [Nat.mul_add_div htpg, Nat.div_eq_of_lt ht, Nat.add_zero]
    exact ⟨⟨hg, by omega⟩, by rw [Nat.add_sub_cancel_left]; exact hbit⟩

/-- `MAX_NumGroups`, checked by `ctrl_registers`. -/
def maxNumGroups : Nat := 16

theorem WakeParams.wakesGroup_iff (hgroups : w.numGroups ≤ maxNumGroups) {core mask : Nat}
    (hcore : core < w.numCores) : w.wakes (.wakeUpGroup mask) core = true ↔
      w.Names (.wakeUpGroup mask) core ∧ w.Exists (.wakeUpGroup mask) := by
  have hpow : 2 ^ w.numGroups ≤ 2 ^ 16 := Nat.pow_le_pow_right (by omega) hgroups
  have hpos := Nat.two_pow_pos w.numGroups
  have hgroup : core / w.numCoresPerGroup < w.numGroups := by
    obtain ⟨hcpt, htpg⟩ := w.pos_of_core hcore
    have hpos : 0 < w.numCoresPerGroup := Nat.mul_pos hcpt htpg
    rw [Nat.div_lt_iff_lt_mul hpos, Nat.mul_comm]
    exact hcore
  simp only [WakeParams.wakes, WakeParams.wakeUpGroups, WakeParams.Names, WakeParams.Exists]
  split
  next hle =>
    constructor
    · intro hbit
      exact ⟨.inr ⟨_, hgroup, hbit, rfl⟩, .inl (by omega)⟩
    · rintro ⟨hall | ⟨g, -, hbit, rfl⟩, -⟩
      · omega
      · exact hbit
  next hgt =>
    rw [decide_eq_true_iff]
    constructor
    · intro hall
      exact ⟨.inl hall, .inr hall⟩
    · rintro ⟨-, hlt | hall⟩
      · omega
      · exact hall

theorem WakeParams.wakes_iff (hgroups : w.numGroups ≤ maxNumGroups) {write : CtrlWrite}
    {core : Nat} (hcore : core < w.numCores) :
    w.wakes write core = true ↔ w.Names write core ∧ w.Exists write := by
  cases write with
  | wakeUp v =>
      simp only [WakeParams.wakes, WakeParams.wakeUpCores, WakeParams.Names, WakeParams.Exists,
        and_true]
      split
      next hlt => rw [beq_iff_eq, or_iff_left (by omega)]
      next hge => exact iff_of_true rfl (.inr (by omega))
  | wakeUpTile g mask => exact w.wakesTile_iff hcore
  | wakeUpGroup mask => exact w.wakesGroup_iff hgroups hcore
  | wakeUpStrd v | wakeUpOffst v => simp [WakeParams.wakes, WakeParams.Names]

/-- In a history whose strides and offsets count up, every computation of the mask ends, and
each write wakes for one cycle the members it names, unless its mask has a bit for a
tile or a group that does not exist. -/
theorem wake_up_decoding (w : WakeParams) (hgroups : w.numGroups ≤ maxNumGroups) (fuel : Nat)
    (hfuel : w.numCores ≤ fuel) (cs : List (Option CtrlWrite)) (hcounted : w.Counted cs) :
    w.PulsesAre (fun write core => w.Names write core ∧ w.Exists write) fuel cs := by
  rcases cs.eq_nil_or_concat' with rfl | ⟨cs, c, rfl⟩
  · refine ⟨_, rfl, fun core _ => iff_of_false (by simp [WakeParams.wakeUpO, CtrlState.reset]) ?_⟩
    rintro ⟨before, write, hcs, -⟩
    exact absurd hcs (by simp)
  · obtain ⟨s, hrun, h⟩ := wakeInv_run hfuel hcounted.before
    obtain ⟨s', hclock, -, hpulse⟩ := h.clock hfuel hcounted
    refine ⟨s', by rw [ctrlRun_append, hrun]; exact hclock, fun core hcore => ?_⟩
    rw [hpulse core hcore]
    constructor
    · rintro ⟨⟨write, rfl, hwakes⟩, hmember⟩
      exact ⟨cs, write, rfl, (w.wakes_iff hgroups hcore).mp hwakes, hmember⟩
    · rintro ⟨before, write, hcs, hnames, hmember⟩
      obtain ⟨rfl, hc⟩ := List.append_inj' hcs rfl
      exact ⟨⟨write, List.head_eq_of_cons_eq hc, (w.wakes_iff hgroups hcore).mpr hnames⟩, hmember⟩

/-- MinPool: four groups of one tile with four cores. -/
def minpoolWake : WakeParams where
  numCoresPerTile := 4
  numTilesPerGroup := 1
  numGroups := 4

/-- The odd cores are woken, and nothing more a cycle later. -/
theorem wake_up_decoding_oddCores : minpoolWake.PulsesAre
    (fun write core => minpoolWake.Names write core ∧ minpoolWake.Exists write) 16
    [some (.wakeUpStrd 2), some (.wakeUpOffst 1), some (.wakeUp (2 ^ 32 - 1)), none] := by
  refine wake_up_decoding minpoolWake (by decide) 16 (by decide) _ ?_
  rintro (- | ⟨_, - | ⟨_, - | ⟨_, - | ⟨_, before⟩⟩⟩⟩) write after hcs hsel
  · cases hcs
    exact .inr ⟨by decide, by decide⟩
  · cases hcs
    exact .inr ⟨by decide, by decide⟩
  · cases hcs
    cases hsel
  · cases hcs
  · simp at hcs

/-- A mask with bits for tiles 0 and 1 of a group that has one tile wakes no core. -/
theorem wake_up_tile_ignores_mask :
    ¬ minpoolWake.PulsesAre minpoolWake.Names 16 [some (.wakeUpTile 0 3)] := by
  rintro ⟨s, hrun, hpulse⟩
  cases hrun
  have hnamed : minpoolWake.Names (.wakeUpTile 0 3) 0 := ⟨0, by decide, by decide, by decide⟩
  have hwoken := (hpulse 0 (by decide)).mpr ⟨[], _, rfl, hnamed, nofun⟩
  exact absurd hwoken (by decide)

end TeraNoC.Hw
