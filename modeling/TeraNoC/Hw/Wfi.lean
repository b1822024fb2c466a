import Mathlib.Data.List.Induction

/-!
# Waiting for a wake-up (`snitch`)

The two registers behind the WFI instruction of a core: whether it is asleep, and
how many wake-ups came while it was not. `WfiTrace.Tokens` is what software may think
of them: every wake-up is a token, every WFI takes one, and a core sleeps exactly
while its last WFI has found none.
-/

namespace TeraNoC.Hw

def outstandingWfi : Nat := 8

structure WfiState where
  wfi : Bool
  wakeUp : Nat

def WfiState.reset : WfiState where
  wfi := false
  wakeUp := 0

/-- One cycle: a core that is awake may execute a WFI, and a wake-up may come in. -/
def WfiState.next (s : WfiState) (executes wakeUpSync : Bool) : WfiState :=
  if executes && !s.wfi then
    if decide (s.wakeUp > 0) || wakeUpSync then
      { wfi := false
        -- with a simultaneous pulse the counter stays
        wakeUp := if wakeUpSync then s.wakeUp else s.wakeUp - 1 }
    else { wfi := true, wakeUp := s.wakeUp }
  else
    { wfi := if decide (s.wakeUp > 0) || wakeUpSync then false else s.wfi
      wakeUp :=
        if wakeUpSync && !s.wfi then (s.wakeUp + 1) % outstandingWfi else s.wakeUp }

/-- The core with a count of the WFIs it has executed and of the wake-ups it was sent. -/
structure WfiTrace where
  state : WfiState
  executed : Nat
  sent : Nat

def WfiTrace.reset : WfiTrace where
  state := .reset
  executed := 0
  sent := 0

def WfiTrace.next (h : WfiTrace) (c : Bool × Bool) : WfiTrace where
  state := h.state.next c.1 c.2
  executed := h.executed + (c.1 && !h.state.wfi).toNat
  sent := h.sent + c.2.toNat

def WfiTrace.Tokens (h : WfiTrace) : Prop :=
  (h.state.wfi = true ↔ h.sent < h.executed) ∧ h.executed ≤ h.sent + 1 ∧
    h.state.wakeUp = h.sent - h.executed

/-- A wake-up comes to an awake core that takes none, and finds the counter at its end. -/
def WfiState.misses (s : WfiState) (executes wakeUpSync : Bool) : Bool :=
  !s.wfi && !executes && wakeUpSync && decide (s.wakeUp + 1 = outstandingWfi)

theorem WfiTrace.Tokens.next {h : WfiTrace} (hT : h.Tokens)
    (hroom : h.state.wakeUp < outstandingWfi)
    (c : Bool × Bool) (hmiss : h.state.misses c.1 c.2 = false) : (h.next c).Tokens := by
  obtain ⟨⟨wfi, wakeUp⟩, executed, sent⟩ := h
  obtain ⟨executes, sync⟩ := c
  obtain ⟨hwfi, hle, hcount⟩ := hT
  simp only at hwfi hle hcount hroom hmiss
  subst hcount
  cases wfi with
  | true =>
      have hlt := hwfi.mp rfl
      cases executes <;> cases sync <;> simp [WfiTrace.next, WfiState.next, Tokens] <;> omega
  | false =>
      have hge : executed ≤ sent := by
        by_contra hno
        exact Bool.noConfusion (hwfi.mpr (Nat.lt_of_not_le hno))
      have hmod : executes = false → sync = true →
          (sent - executed + 1) % outstandingWfi = sent - executed + 1 := by
        rintro rfl rfl
        have hne : sent - executed + 1 ≠ outstandingWfi := by simpa [WfiState.misses] using hmiss
        exact Nat.mod_eq_of_lt (by omega)
      rcases Nat.eq_or_lt_of_le hge with heq | hlt
      · subst heq
        cases executes <;> cases sync
        all_goals simp [WfiTrace.next, WfiState.next, Tokens, outstandingWfi]
        omega
      · have hpos : 0 < sent - executed := by omega
        cases executes <;> cases sync <;>
          simp [WfiTrace.next, WfiState.next, Tokens, hmod, hpos] <;> omega

theorem WfiState.wakeUp_next_lt {s : WfiState} (h : s.wakeUp < outstandingWfi)
    (executes wakeUpSync : Bool) : (s.next executes wakeUpSync).wakeUp < outstandingWfi := by
  have hmod := Nat.mod_lt (s.wakeUp + 1) (show 0 < outstandingWfi by decide)
  rw [WfiState.next]
  split
  · split
    · show (if wakeUpSync then s.wakeUp else s.wakeUp - 1) < _
      split <;> omega
    · exact h
  · show (if _ then _ else s.wakeUp) < _
    split
    · exact hmod
    · exact h

/-- A run in which no wake-up is missed. -/
theorem WfiTrace.tokens_run (cycles : List (Bool × Bool))
    (hmiss : ∀ pre c, pre ++ [c] <+: cycles →
      (pre.foldl WfiTrace.next .reset).state.misses c.1 c.2 = false) :
    (cycles.foldl WfiTrace.next .reset).Tokens ∧
      (cycles.foldl WfiTrace.next .reset).state.wakeUp < outstandingWfi := by
  induction cycles using List.reverseRecOn with
  | nil => simp [WfiTrace.Tokens, WfiTrace.reset, WfiState.reset, outstandingWfi]
  | append_singleton cycles c ih =>
      obtain ⟨hT, hlt⟩ := ih fun pre d hpre => hmiss pre d (hpre.trans (List.prefix_append _ _))
      rw [List.foldl_append]
      exact ⟨hT.next hlt c (hmiss cycles c List.prefix_rfl), WfiState.wakeUp_next_lt hlt _ _⟩

/-! ### Conservation -/

/-- The WFIs that did not sleep, or no longer do. -/
def WfiTrace.completed (h : WfiTrace) : Nat := h.executed - h.state.wfi.toNat

/-- Every WFI that has completed took a wake-up of its own, and a core sleeps only when there
is none left. -/
def WfiTrace.Conserved (h : WfiTrace) : Prop :=
  h.completed ≤ h.sent ∧ (h.state.wfi = true → h.completed = h.sent)

instance (h : WfiTrace) : Decidable h.Conserved := inferInstanceAs (Decidable (_ ∧ _))

theorem WfiTrace.Tokens.conserved {h : WfiTrace} (hT : h.Tokens) : h.Conserved := by
  obtain ⟨hwfi, hle, -⟩ := hT
  rw [WfiTrace.Conserved, WfiTrace.completed]
  cases hw : h.state.wfi with
  | true =>
      have := hwfi.mp hw
      simp only [Bool.toNat_true]
      omega
  | false =>
      have : ¬ h.sent < h.executed := fun hlt => by simp [hwfi.mpr hlt] at hw
      refine ⟨?_, nofun⟩
      simp only [Bool.toNat_false]
      omega

theorem wfi_conserved (cycles : List (Bool × Bool))
    (hmiss : ∀ pre c, pre ++ [c] <+: cycles →
      (pre.foldl WfiTrace.next .reset).state.misses c.1 c.2 = false) :
    ∀ pre, pre <+: cycles → (pre.foldl WfiTrace.next .reset).Conserved :=
  fun pre hpre =>
    (WfiTrace.tokens_run pre fun p c hp => hmiss p c (hp.trans hpre)).1.conserved

/-- Two wake-ups before the WFI, and one with it. -/
theorem wfi_conserved_threePulses :
    ([(false, true), (false, true), (true, true)].foldl WfiTrace.next .reset).Conserved := by
  refine wfi_conserved _ (fun pre c hpre => ?_) _ List.prefix_rfl
  have htake := List.prefix_iff_eq_take.mp hpre
  rcases pre with _ | ⟨a, _ | ⟨b, _ | ⟨d, l⟩⟩⟩
  · cases htake
    decide
  · cases htake
    decide
  · cases htake
    decide
  · have hlen := hpre.length_le
    simp only [List.length_append, List.length_cons, List.length_nil] at hlen
    omega

/-- After eight wake-ups the counter is back at zero, and the core sleeps. -/
theorem wfi_loses_eight_pulses :
    ¬ ((List.replicate 8 (false, true) ++ [(true, false)]).foldl WfiTrace.next
      .reset).Conserved := by
  decide

end TeraNoC.Hw
