import TeraNoC.Lib.CounterBarrier
import TeraNoC.Runtime.Barrier

/-!
# The plain barrier is a barrier

`mempool_barrier` is the barrier with one counter, for all cores. Its
initialization is the closing of an episode before the first: core 0 clears the
counter, whatever was in it, and wakes everybody, and the others sleep as if they
had entered. `abs` reads the program's state this way, and every step of the
program is a step of the counter barrier or none (`abs_step`).
-/

namespace TeraNoC.Runtime

open TeraNoC.Hw TeraNoC.Lib.CounterBarrier

/-- A cluster whose synchronization variables have room in memory. -/
structure Cluster extends WakeParams where
  numCores_pos : 0 < toWakeParams.numCores
  fits : toWakeParams.numCores * 16 ≤ 2 ^ 32

namespace PlainState

def posOf : PlainPc → Pos
  | .initStore | .store => .clear
  | .initWakeUpAll | .wakeUpAll => .wake
  | .initWfi | .wfi => .wfi
  | .initLogBarrier _ | .initPartialBarrier _ | .idle => .idle
  | .fetchAdd => .add

/-- The state as a counter barrier's. The initialization counts as entered. -/
def abs (s : PlainState) : State Nat where
  pos i := posOf (s.pc i)
  tokens := s.tokens
  taken := s.taken
  count := s.barrier
  entered i := s.entered i + 1
  wakes := s.wakes

variable {c : Cluster} {s : PlainState} {i : Nat}

theorem allCores_wakes (c : Cluster) (j : Nat) : c.wakes (.wakeUp allCores) j = true := by
  have := c.fits
  have hno : ¬ allCores < c.numCores := by
    rw [allCores]
    omega
  rw [WakeParams.wakes, WakeParams.wakeUpCores, if_neg hno]

theorem abs_wakeAll (c : Cluster) (s : PlainState) (hp : (abs s).pos i = .wake) {pc : PlainPc}
    (hpc : posOf pc = .wfi) :
    abs { s.wakeAll c.toWakeParams with pc := Function.update s.pc i pc }
      = (abs s).step (Finset.range c.numCores) i := by
  rw [State.step, hp]
  simp only [abs, wakeAll, Function.apply_update fun _ => posOf, hpc, allCores_wakes, and_true,
    Finset.mem_range]

theorem abs_takeToken (hp : (abs s).pos i = .wfi) {pc : PlainPc} (hpc : posOf pc = .idle) :
    abs (s.takeToken i pc) = (abs s).step (Finset.range c.numCores) i := by
  have htokens : (abs s).tokens i = s.tokens i := rfl
  rw [State.step, hp, takeToken]
  dsimp only
  rw [htokens]
  cases s.tokens i with
  | nil => rfl
  | cons t ts => simp only [abs, Function.apply_update fun _ => posOf, hpc]

theorem posOf_initLoop (c : Cluster) (hi : i < c.numCores) :
    posOf (initLoop c.toWakeParams i) = .idle := by
  have := c.fits
  rw [initLoop, u32_eq (by omega), if_pos (by omega)]
  rfl

/-- A core that is outside and goes on with the initialization, or calls the barrier. -/
theorem abs_local (hp : posOf (s.pc i) = .idle) {s' : PlainState} (pc : PlainPc)
    (hpc : posOf pc = .idle ∨ posOf pc = .add)
    (hs' : abs s' = { abs s with pos := Function.update (abs s).pos i (posOf pc) }) :
    abs s' = abs s ∨ abs s' = (abs s).step (Finset.range c.numCores) i := by
  rcases hpc with hpc | hpc
  · refine .inl ?_
    rw [hs', hpc, ← hp]
    show { abs s with pos := Function.update (abs s).pos i ((abs s).pos i) } = abs s
    rw [Function.update_eq_self]
  · refine .inr ?_
    have hp' : (abs s).pos i = .idle := hp
    rw [State.step, hp', hs', hpc]

theorem abs_step (h : (abs s).Agrees (Finset.range c.numCores)) (hi : i < c.numCores) :
    abs (s.step c.toWakeParams i) = abs s ∨
      abs (s.step c.toWakeParams i) = (abs s).step (Finset.range c.numCores) i := by
  have hfits := c.fits
  have hpos := c.numCores_pos
  have hmem := Finset.mem_range.mpr hi
  rw [step]
  cases hp : s.pc i with
  | initStore | store =>
      have habs : (abs s).pos i = .clear := congrArg posOf hp
      refine .inr ?_
      rw [State.step, habs]
      simp only [abs, Function.apply_update fun _ => posOf]
      rfl
  | initWakeUpAll | wakeUpAll =>
      exact .inr (abs_wakeAll c s (congrArg posOf hp) rfl)
  | initWfi =>
      exact .inr (abs_takeToken (congrArg posOf hp) (posOf_initLoop c hi))
  | wfi =>
      exact .inr (abs_takeToken (congrArg posOf hp) rfl)
  | initLogBarrier k =>
      refine abs_local (by rw [hp]; rfl) (.initPartialBarrier k) (.inl rfl) ?_
      simp only [abs, Function.apply_update fun _ => posOf]
  | initPartialBarrier k =>
      refine abs_local (by rw [hp]; rfl) (initLoop c.toWakeParams (u32 (k + c.numCores))) ?_ ?_
      · rw [initLoop]
        split
        · exact .inl rfl
        · exact .inr rfl
      · simp only [abs, Function.apply_update fun _ => posOf]
  | idle =>
      refine abs_local (by rw [hp]; rfl) .fetchAdd (.inr rfl) ?_
      simp only [abs, Function.apply_update fun _ => posOf]
  | fetchAdd =>
      -- the counter counts fewer cores than there are
      have habs : (abs s).pos i = .add := congrArg posOf hp
      have hout : (abs s).Out i := by
        have := h.member i hmem
        rwa [State.MemberOk, habs] at this
      have hnone := h.not_closing hmem hout.1 (by rw [State.Closing, habs]; simp)
      have hlt := (h.count hnone).2
      rw [Finset.card_range] at hlt
      have hcount : s.barrier + 1 < 2 ^ 32 := by
        have : s.barrier < c.numCores := hlt
        omega
      refine .inr ?_
      have hent : (fun j => Function.update s.entered i (s.entered i + 1) j + 1)
          = Function.update (fun j => s.entered j + 1) i (s.entered i + 1 + 1) := by
        funext j
        rcases eq_or_ne j i with rfl | hne
        · simp
        · simp [hne]
      have hlast : (sub32 c.numCores 1 = s.barrier) ↔ s.barrier + 1 = c.numCores := by
        rw [sub32_eq hpos (by omega)]
        omega
      rw [State.step, habs]
      simp only [abs, Function.apply_update fun _ => posOf, hent, u32_eq hcount, Finset.card_range]
      by_cases hl : s.barrier + 1 = c.numCores
      · rw [if_pos hl, if_pos (hlast.mpr hl)]
        rfl
      · rw [if_neg hl, if_neg (mt hlast.mp hl)]
        rfl

theorem agrees_start (c : Cluster) (barrier : Nat) (logBarrier partialBarrier : Nat → Nat) :
    (abs (start barrier logBarrier partialBarrier)).Agrees (Finset.range c.numCores) := by
  have hin : ∀ j, (abs (start barrier logBarrier partialBarrier)).In j := fun j => ⟨rfl, rfl, rfl⟩
  have hzero : (abs (start barrier logBarrier partialBarrier)).pos 0 = .clear := rfl
  have hwfi : ∀ j, j ≠ 0 → (abs (start barrier logBarrier partialBarrier)).pos j = .wfi := by
    intro j hj
    show posOf (if j = 0 then .initStore else .initWfi) = .wfi
    rw [if_neg hj]
    rfl
  refine ⟨fun j _ => ?_, fun j _ hc k _ hkj => ?_, fun hno => ?_, fun j _ hp => ?_⟩
  · rw [State.MemberOk]
    by_cases hj : j = 0
    · subst hj
      rw [hzero]
      exact hin 0
    · rw [hwfi j hj]
      exact .inl (hin j)
  · have hj : j = 0 := by
      by_contra hj
      have hpj := hwfi j hj
      rcases hc with hc | hc <;> · rw [hpj] at hc; cases hc
    subst hj
    exact ⟨hwfi k hkj, hin k⟩
  · exact absurd (.inl hzero) (hno 0 (Finset.mem_range.mpr c.numCores_pos))
  · by_cases hj : j = 0
    · subst hj
      rw [hzero] at hp
      cases hp
    · rw [hwfi j hj] at hp
      cases hp

theorem agrees_after (c : Cluster) (barrier : Nat) (logBarrier partialBarrier : Nat → Nat)
    {sched : Nat → Nat} (hsched : ∀ t, sched t < c.numCores) (t : Nat) :
    (abs (after c.toWakeParams (start barrier logBarrier partialBarrier) sched t)).Agrees
      (Finset.range c.numCores) := by
  induction t with
  | zero => exact agrees_start c barrier logBarrier partialBarrier
  | succ t ih =>
      rw [after]
      rcases abs_step ih (hsched t) with h | h
      · rw [h]
        exact ih
      · rw [h]
        exact ih.step (Finset.mem_range.mpr (hsched t))

end PlainState

/-- The plain barrier, from the call of its initialization on and for any interleaving
of the cores; the initialization is episode 0. A core that has left an episode left
it after all had entered; its WFI of an episode takes the token of that episode, and
so far it has taken one of each; no core has more than one waiting; whoever is the
first to count itself into an episode finds the counter at 0; and some core can
always move. -/
theorem plain_barrier (c : Cluster) (barrier : Nat) (logBarrier partialBarrier : Nat → Nat)
    (sched : Nat → Nat) (hsched : ∀ t, sched t < c.numCores) (t : Nat) :
    let s := PlainState.after c.toWakeParams
      (PlainState.start barrier logBarrier partialBarrier) sched t
    (∀ i < c.numCores, ∀ j < c.numCores, ∀ e ∈ s.taken i, e ≤ s.entered j) ∧
    (∀ i < c.numCores, s.taken i = List.range (s.taken i).length) ∧
    (∀ i < c.numCores, s.pc i = .initWfi ∨ s.pc i = .wfi →
      (s.taken i).length = s.entered i ∧ (s.tokens i = [] ∨ s.tokens i = [s.entered i])) ∧
    (∀ i < c.numCores, s.pc i = .idle → (s.taken i).length = s.entered i + 1) ∧
    (∀ i < c.numCores, (s.tokens i).length ≤ 1) ∧
    (∀ i < c.numCores, s.pc i = .fetchAdd → (∀ j < c.numCores, s.entered j ≤ s.entered i) →
      s.barrier = 0) ∧
    ∃ i < c.numCores, s.pc i = .initWfi ∨ s.pc i = .wfi → s.tokens i ≠ [] := by
  intro s
  have h : (PlainState.abs s).Agrees (Finset.range c.numCores) :=
    PlainState.agrees_after c barrier logBarrier partialBarrier hsched t
  have hmem : ∀ {i}, i < c.numCores → i ∈ Finset.range c.numCores := Finset.mem_range.mpr
  have hwfi : ∀ i, s.pc i = .initWfi ∨ s.pc i = .wfi → (PlainState.abs s).pos i = .wfi := by
    rintro i (hp | hp) <;> exact congrArg PlainState.posOf hp
  refine ⟨?_, ?_, ?_, ?_, ?_, ?_, ?_⟩
  · intro i hi j hj e he
    exact Nat.le_of_lt_succ (h.lt_entered (hmem hi) (hmem hj) he)
  · intro i hi
    exact h.taken_eq (hmem hi)
  · intro i hi hp
    obtain ⟨hent, htok⟩ := h.sleeping (hmem hi) (hwfi i hp)
    have hlen : s.entered i = (s.taken i).length := Nat.succ.inj hent
    rw [hlen]
    exact ⟨rfl, htok⟩
  · intro i hi hp
    have hidle : (PlainState.abs s).pos i = .idle := congrArg PlainState.posOf hp
    have hok := h.member i (hmem hi)
    rw [State.MemberOk, hidle] at hok
    have htak : s.taken i = List.range s.wakes := hok.2.2
    rw [htak, List.length_range]
    exact hok.1.symm
  · intro i hi
    exact h.length_tokens (hmem hi)
  · intro i hi hp hfirst
    refine h.first (hmem hi) (congrArg PlainState.posOf hp) fun j hj => ?_
    exact Nat.succ_le_succ (hfirst j (Finset.mem_range.mp hj))
  · obtain ⟨i, hi, hmove⟩ := h.awake
    exact ⟨i, Finset.mem_range.mp hi, fun hp => hmove (hwfi i hp)⟩

/-- Two tiles of two cores. -/
def fourCores : Cluster where
  numCoresPerTile := 2
  numTilesPerGroup := 2
  numGroups := 1
  numCores_pos := by decide
  fits := by decide

/-- Four cores that move in turn, with garbage in memory: core 2 is through the barrier that the
initialization calls. -/
theorem plain_barrier_fourCores :
    let s := PlainState.after fourCores.toWakeParams
      (PlainState.start 77 (fun _ => 5) fun _ => 6) (· % 4) 58
    s.pc 2 = .idle ∧ s.taken 2 = [0, 1] ∧ ∀ e ∈ s.taken 2, e ≤ s.entered 3 := by
  intro s
  have hturn (t : Nat) : t % 4 < fourCores.numCores := Nat.mod_lt t (by decide)
  exact ⟨by decide +kernel, by decide +kernel,
    (plain_barrier fourCores 77 _ _ (· % 4) hturn 58).1 2 (by decide) 3 (by decide)⟩

end TeraNoC.Runtime
