import Mathlib.Data.Finset.Card
import Mathlib.Logic.Function.Basic

/-!
# Barriers with one counter

The members of a set count themselves in; the one that completes the count sets it
back to zero and wakes all members, itself included, and every member leaves by
taking a wake-up. Wake-ups carry the number of their episode, which the members do
not see, so that it can be said which of them a member has taken.

`Agrees` is the invariant. A member is outside or has entered the current episode;
it has taken the wake-ups of all earlier episodes and no other, except that one of
the last episode may still be waiting for it. While somebody closes the episode
all others sleep, and otherwise the counter counts those who have entered.

An episode may also be begun by its closing: nothing is said of the counter that is
about to be set to zero.
-/

namespace TeraNoC.Lib.CounterBarrier

/-- Where a member is: outside, about to count itself in, about to set the counter
back, about to wake the members, or asleep. -/
inductive Pos where
  | idle
  | add
  | clear
  | wake
  | wfi
  deriving DecidableEq

structure State (ι : Type) where
  pos : ι → Pos
  tokens : ι → List Nat
  taken : ι → List Nat
  count : Nat
  entered : ι → Nat
  wakes : Nat

namespace State

variable {ι : Type} [DecidableEq ι] (M : Finset ι)

def step (s : State ι) (i : ι) : State ι :=
  match s.pos i with
  | .idle => { s with pos := Function.update s.pos i .add }
  | .add =>
      { s with
        count := s.count + 1
        entered := Function.update s.entered i (s.entered i + 1)
        pos := Function.update s.pos i (if s.count + 1 = M.card then .clear else .wfi) }
  | .clear => { s with count := 0, pos := Function.update s.pos i .wake }
  | .wake =>
      { s with
        tokens := fun j => if j ∈ M then s.tokens j ++ [s.wakes] else s.tokens j
        pos := Function.update s.pos i .wfi
        wakes := s.wakes + 1 }
  | .wfi =>
      match s.tokens i with
      | [] => s
      | t :: ts =>
          { s with
            tokens := Function.update s.tokens i ts
            taken := Function.update s.taken i (s.taken i ++ [t])
            pos := Function.update s.pos i .idle }

/-- Inside the current episode, all earlier wake-ups taken. -/
def In (s : State ι) (i : ι) : Prop :=
  s.entered i = s.wakes + 1 ∧ s.tokens i = [] ∧ s.taken i = List.range s.wakes

/-- Outside of it, likewise. -/
def Out (s : State ι) (i : ι) : Prop :=
  s.entered i = s.wakes ∧ s.tokens i = [] ∧ s.taken i = List.range s.wakes

/-- Outside, with the wake-up of the last episode still to be taken. -/
def Woken (s : State ι) (i : ι) : Prop :=
  s.entered i = s.wakes ∧ ∃ e, s.wakes = e + 1 ∧ s.tokens i = [e] ∧ s.taken i = List.range e

def Closing (s : State ι) (i : ι) : Prop := s.pos i = .clear ∨ s.pos i = .wake

/-- What a member's position says about it. -/
def MemberOk (s : State ι) (i : ι) : Prop :=
  match s.pos i with
  | .idle | .add => s.Out i
  | .clear | .wake => s.In i
  | .wfi => s.In i ∨ s.Woken i

structure Agrees (s : State ι) : Prop where
  member : ∀ i ∈ M, s.MemberOk i
  closing : ∀ i ∈ M, s.Closing i → ∀ j ∈ M, j ≠ i → s.pos j = .wfi ∧ s.In j
  count : (∀ i ∈ M, ¬ s.Closing i) →
    s.count = (M.filter fun i => s.entered i = s.wakes + 1).card ∧ s.count < M.card
  cleared : ∀ i ∈ M, s.pos i = .wake → s.count = 0

section Step

variable {M} {s : State ι} {i j : ι}

omit [DecidableEq ι] in
theorem Agrees.wfi (h : Agrees M s) (hi : i ∈ M) (hp : s.pos i = .wfi) : s.In i ∨ s.Woken i := by
  have := h.member i hi
  rwa [MemberOk, hp] at this

omit [DecidableEq ι] in
/-- Only what concerns the members counts. -/
theorem Agrees.congr (h : Agrees M s) {s' : State ι}
    (hpos : ∀ j ∈ M, s'.pos j = s.pos j) (htok : ∀ j ∈ M, s'.tokens j = s.tokens j)
    (htak : ∀ j ∈ M, s'.taken j = s.taken j) (hent : ∀ j ∈ M, s'.entered j = s.entered j)
    (hcnt : s'.count = s.count) (hwk : s'.wakes = s.wakes) : Agrees M s' := by
  have hin : ∀ j ∈ M, s.In j → s'.In j := by
    intro j hj hin
    rwa [In, hent j hj, htok j hj, htak j hj, hwk]
  refine ⟨fun j hj => ?_, fun i hi hc j hj hji => ?_, fun hno => ?_, fun i hi hp => ?_⟩
  · have := h.member j hj
    simp only [MemberOk, In, Out, Woken, hpos j hj, htok j hj, htak j hj, hent j hj, hwk] at this ⊢
    exact this
  · rw [Closing, hpos i hi] at hc
    obtain ⟨hp, hi'⟩ := h.closing i hi hc j hj hji
    exact ⟨(hpos j hj).trans hp, hin j hj hi'⟩
  · obtain ⟨hcount, hlt⟩ := h.count fun i hi hc => hno i hi (by rwa [Closing, hpos i hi])
    refine ⟨?_, by rwa [hcnt]⟩
    rw [hcnt, hcount, hwk]
    congr 1
    exact Finset.filter_congr fun j hj => by rw [hent j hj]
  · rw [hcnt]
    exact h.cleared i hi (by rwa [hpos i hi] at hp)

/-- Nobody closes while a member is outside. -/
theorem Agrees.not_closing (h : Agrees M s) (hi : i ∈ M) (hout : s.entered i = s.wakes)
    (hnc : ¬ s.Closing i) : ∀ j ∈ M, ¬ s.Closing j := by
  intro j hj hc
  by_cases hij : i = j
  · subst hij
    exact hnc hc
  · have := (h.closing j hj hc i hi hij).2.1
    omega

/-- A move of one member that leaves the others, the counter and the wake-ups alone
and does not close. -/
theorem Agrees.move (h : Agrees M s) (hi : i ∈ M) {s' : State ι}
    (hpos : ∀ j, j ≠ i → s'.pos j = s.pos j) (htok : ∀ j, j ≠ i → s'.tokens j = s.tokens j)
    (htak : ∀ j, j ≠ i → s'.taken j = s.taken j) (hent : s'.entered = s.entered)
    (hcnt : s'.count = s.count) (hwk : s'.wakes = s.wakes)
    (hout : s.entered i = s.wakes) (hnc : ¬ s.Closing i) (hnc' : ¬ s'.Closing i)
    (hok : s'.MemberOk i) : Agrees M s' := by
  have hnone := h.not_closing hi hout hnc
  have hnone' : ∀ j ∈ M, ¬ s'.Closing j := by
    intro j hj
    by_cases hij : j = i
    · subst hij
      exact hnc'
    · rw [Closing, hpos j hij]
      exact hnone j hj
  refine ⟨?_, fun j hj hc => absurd hc (hnone' j hj), fun _ => ?_, ?_⟩
  · intro j hj
    by_cases hij : j = i
    · subst hij
      exact hok
    · have := h.member j hj
      simp only [MemberOk, In, Out, Woken, hpos j hij, htok j hij, htak j hij, hent, hwk] at this ⊢
      exact this
  · rw [hcnt, hent, hwk]
    exact h.count hnone
  · intro j hj hp
    exact absurd (.inr hp) (hnone' j hj)

theorem Agrees.step_idle (h : Agrees M s) (hi : i ∈ M) (hp : s.pos i = .idle) :
    Agrees M (s.step M i) := by
  have hout : s.Out i := by
    have := h.member i hi
    rwa [MemberOk, hp] at this
  have hs : s.step M i = { s with pos := Function.update s.pos i .add } := by
    simp only [step, hp]
  rw [hs]
  refine h.move hi (fun j hj => Function.update_of_ne hj _ _) (fun _ _ => rfl) (fun _ _ => rfl)
    rfl rfl rfl hout.1 (by simp [Closing, hp]) (by simp [Closing]) ?_
  rw [MemberOk]
  simp only [Function.update_self]
  exact hout

theorem Agrees.step_wfi (h : Agrees M s) (hi : i ∈ M) (hp : s.pos i = .wfi) :
    Agrees M (s.step M i) := by
  rcases h.wfi hi hp with hin | ⟨hent, e, hw, htok, htak⟩
  · have hs : s.step M i = s := by simp only [step, hp, hin.2.1]
    rw [hs]
    exact h
  · have hs : s.step M i = { s with
        tokens := Function.update s.tokens i []
        taken := Function.update s.taken i (s.taken i ++ [e])
        pos := Function.update s.pos i .idle } := by
      simp only [step, hp, htok]
    rw [hs]
    refine h.move hi (fun j hj => Function.update_of_ne hj _ _)
      (fun j hj => Function.update_of_ne hj _ _) (fun j hj => Function.update_of_ne hj _ _)
      rfl rfl rfl hent (by simp [Closing, hp]) (by simp [Closing]) ?_
    rw [MemberOk]
    simp only [Function.update_self]
    refine ⟨hent, Function.update_self .., ?_⟩
    simp only [Function.update_self, htak, hw, List.range_succ]

/-- Who has entered once one more has. -/
theorem filter_entered (hi : i ∈ M) (hent : s.entered i = s.wakes) :
    (M.filter fun j => Function.update s.entered i (s.entered i + 1) j = s.wakes + 1).card
      = (M.filter fun j => s.entered j = s.wakes + 1).card + 1 := by
  have hnot : i ∉ M.filter fun j => s.entered j = s.wakes + 1 := by
    rw [Finset.mem_filter]
    omega
  rw [← Finset.card_insert_of_notMem hnot]
  congr 1
  ext j
  by_cases hij : j = i
  · subst hij
    simp [hi, hent]
  · simp [hij]

theorem Agrees.step_add (h : Agrees M s) (hi : i ∈ M) (hp : s.pos i = .add) :
    Agrees M (s.step M i) := by
  obtain ⟨hent, htok, htak⟩ : s.Out i := by
    have := h.member i hi
    rwa [MemberOk, hp] at this
  have hnone := h.not_closing hi hent (by simp [Closing, hp])
  obtain ⟨hcount, hlt⟩ := h.count hnone
  have hcard := filter_entered hi hent
  simp only [step, hp]
  by_cases hlast : s.count + 1 = M.card
  · -- the last one in: everybody else has entered and sleeps
    rw [if_pos hlast]
    have hall : ∀ j ∈ M, j ≠ i → s.entered j = s.wakes + 1 := by
      intro j hj hij
      have hfull := Finset.card_filter_eq_iff.mp (hcard.trans (hcount ▸ hlast)) j hj
      rwa [Function.update_of_ne hij] at hfull
    have hothers : ∀ j ∈ M, j ≠ i → s.pos j = .wfi ∧ s.In j := by
      intro j hj hij
      have hj' := hall j hj hij
      have hok := h.member j hj
      rw [MemberOk] at hok
      cases hpj : s.pos j with
      | idle => rw [hpj] at hok; exact absurd hok.1 (by omega)
      | add => rw [hpj] at hok; exact absurd hok.1 (by omega)
      | clear => exact absurd (.inl hpj) (hnone j hj)
      | wake => exact absurd (.inr hpj) (hnone j hj)
      | wfi =>
          rw [hpj] at hok
          rcases hok with hin | hwok
          · exact ⟨rfl, hin⟩
          · exact absurd hwok.1 (by omega)
    have hin' : ∀ j ∈ M, j ≠ i → Function.update s.pos i .clear j = .wfi ∧
        (Function.update s.entered i (s.entered i + 1) j = s.wakes + 1 ∧ s.tokens j = [] ∧
          s.taken j = List.range s.wakes) := by
      intro j hj hij
      rw [Function.update_of_ne hij, Function.update_of_ne hij]
      exact hothers j hj hij
    refine ⟨?_, ?_, ?_, ?_⟩
    · intro j hj
      rw [MemberOk]
      by_cases hij : j = i
      · subst hij
        simp only [Function.update_self]
        exact ⟨by simp [hent], htok, htak⟩
      · simp only [(hin' j hj hij).1]
        exact .inl (hin' j hj hij).2
    · intro j hj hc k hk hkj
      have hji : j = i := by
        by_contra hij
        have := (hin' j hj hij).1
        rcases hc with hc | hc <;> · simp only [this] at hc; cases hc
      subst hji
      exact hin' k hk hkj
    · intro hno
      exact absurd (.inl (by simp)) (hno i hi)
    · intro j hj hpj
      by_cases hij : j = i
      · subst hij
        simp at hpj
      · have := (hin' j hj hij).1
        simp only [this] at hpj
        cases hpj
  · rw [if_neg hlast]
    have hnone' : ∀ j ∈ M, ¬ (Function.update s.pos i .wfi j = .clear ∨
        Function.update s.pos i .wfi j = .wake) := by
      intro j hj
      by_cases hij : j = i
      · subst hij
        simp
      · rw [Function.update_of_ne hij]
        exact hnone j hj
    refine ⟨?_, fun j hj hc => absurd hc (hnone' j hj), fun _ => ⟨?_, ?_⟩,
      fun j hj hpj => absurd (.inr hpj) (hnone' j hj)⟩
    · intro j hj
      rw [MemberOk]
      by_cases hij : j = i
      · subst hij
        simp only [Function.update_self]
        exact .inl ⟨by simp [hent], htok, htak⟩
      · simp only [Function.update_of_ne hij, In, Out, Woken]
        exact h.member j hj
    · show s.count + 1 = _
      rw [hcard, hcount]
    · show s.count + 1 < _
      omega

theorem Agrees.step_clear (h : Agrees M s) (hi : i ∈ M) (hp : s.pos i = .clear) :
    Agrees M (s.step M i) := by
  have hin : s.In i := by
    have := h.member i hi
    rwa [MemberOk, hp] at this
  have hothers := h.closing i hi (.inl hp)
  simp only [step, hp]
  refine ⟨?_, ?_, ?_, fun _ _ _ => rfl⟩
  · intro j hj
    rw [MemberOk]
    by_cases hij : j = i
    · subst hij
      simp only [Function.update_self]
      exact hin
    · simp only [Function.update_of_ne hij, (hothers j hj hij).1]
      exact .inl (hothers j hj hij).2
  · intro j hj hc k hk hkj
    have hji : j = i := by
      by_contra hij
      have hpj : Function.update s.pos i .wake j = .wfi := by
        rw [Function.update_of_ne hij]
        exact (hothers j hj hij).1
      rcases hc with hc | hc <;> · simp only [hpj] at hc; cases hc
    subst hji
    simp only [Function.update_of_ne hkj]
    exact hothers k hk hkj
  · intro hno
    exact absurd (.inr (by simp)) (hno i hi)

/-- The wake-up ends the episode: everybody is outside, and nobody has entered the next. -/
theorem Agrees.step_wake (h : Agrees M s) (hi : i ∈ M) (hp : s.pos i = .wake) :
    Agrees M (s.step M i) := by
  have hin : ∀ j ∈ M, s.In j := by
    intro j hj
    by_cases hij : j = i
    · subst hij
      have := h.member j hj
      rwa [MemberOk, hp] at this
    · exact (h.closing i hi (.inr hp) j hj hij).2
  have hpos : ∀ j ∈ M, Function.update s.pos i .wfi j = .wfi := by
    intro j hj
    by_cases hij : j = i
    · subst hij
      exact Function.update_self ..
    · rw [Function.update_of_ne hij]
      exact (h.closing i hi (.inr hp) j hj hij).1
  have hzero := h.cleared i hi hp
  simp only [step, hp]
  have hnone : ∀ j ∈ M, ¬ (Function.update s.pos i .wfi j = .clear ∨
      Function.update s.pos i .wfi j = .wake) := by
    intro j hj
    rw [hpos j hj]
    simp
  refine ⟨?_, fun j hj hc => absurd hc (hnone j hj), fun _ => ?_,
    fun j hj hpj => absurd (.inr hpj) (hnone j hj)⟩
  · intro j hj
    obtain ⟨hent, htok, htak⟩ := hin j hj
    rw [MemberOk]
    simp only [hpos j hj]
    refine .inr ⟨hent, s.wakes, rfl, ?_, htak⟩
    simp only [hj, if_true, htok, List.nil_append]
  · have hempty : (M.filter fun j => s.entered j = s.wakes + 1 + 1) = ∅ := by
      rw [Finset.filter_eq_empty_iff]
      intro j hj
      have := (hin j hj).1
      omega
    refine ⟨?_, ?_⟩
    · show s.count = (M.filter fun j => s.entered j = s.wakes + 1 + 1).card
      rw [hempty, hzero]
      rfl
    · show s.count < M.card
      rw [hzero]
      exact Finset.card_pos.mpr ⟨i, hi⟩

theorem Agrees.step (h : Agrees M s) (hi : i ∈ M) : Agrees M (s.step M i) := by
  cases hp : s.pos i with
  | idle => exact h.step_idle hi hp
  | add => exact h.step_add hi hp
  | clear => exact h.step_clear hi hp
  | wake => exact h.step_wake hi hp
  | wfi => exact h.step_wfi hi hp

end Step

/-! ## What members see -/

section Members

variable {M} {s : State ι} {i j : ι}

omit [DecidableEq ι] in
theorem Agrees.cases (h : Agrees M s) (hi : i ∈ M) : s.In i ∨ s.Out i ∨ s.Woken i := by
  have hok := h.member i hi
  rw [MemberOk] at hok
  split at hok
  · exact .inr (.inl hok)
  · exact .inr (.inl hok)
  · exact .inl hok
  · exact .inl hok
  · exact hok.imp_right .inr

omit [DecidableEq ι] in
theorem Agrees.wakes_le_entered (h : Agrees M s) (hi : i ∈ M) : s.wakes ≤ s.entered i := by
  rcases h.cases hi with hok | hok | hok <;> have := hok.1 <;> omega

omit [DecidableEq ι] in
/-- At most one wake-up waits for a member. -/
theorem Agrees.length_tokens (h : Agrees M s) (hi : i ∈ M) : (s.tokens i).length ≤ 1 := by
  rcases h.cases hi with ⟨-, htok, -⟩ | ⟨-, htok, -⟩ | ⟨-, e, -, htok, -⟩ <;> simp [htok]

omit [DecidableEq ι] in
/-- The wake-ups a member has taken are those of the first episodes, one each. -/
theorem Agrees.taken_eq (h : Agrees M s) (hi : i ∈ M) :
    s.taken i = List.range (s.taken i).length := by
  rcases h.cases hi with ⟨-, -, htak⟩ | ⟨-, -, htak⟩ | ⟨-, e, -, -, htak⟩ <;> simp [htak]

omit [DecidableEq ι] in
/-- A member that has taken the wake-up of an episode left it after all had entered. -/
theorem Agrees.lt_entered (h : Agrees M s) (hi : i ∈ M) (hj : j ∈ M) {e : Nat}
    (he : e ∈ s.taken i) : e < s.entered j := by
  have hle := h.wakes_le_entered hj
  rcases h.cases hi with ⟨-, -, htak⟩ | ⟨-, -, htak⟩ | ⟨-, w, hw, -, htak⟩ <;>
    · rw [htak, List.mem_range] at he
      omega

omit [DecidableEq ι] in
/-- A sleeping member waits for the wake-up of the episode it has entered last. -/
theorem Agrees.sleeping (h : Agrees M s) (hi : i ∈ M) (hp : s.pos i = .wfi) :
    s.entered i = (s.taken i).length + 1 ∧
      (s.tokens i = [] ∨ s.tokens i = [(s.taken i).length]) := by
  rcases h.wfi hi hp with ⟨hent, htok, htak⟩ | ⟨hent, e, hw, htok, htak⟩
  · rw [htak, List.length_range]
    exact ⟨hent, .inl htok⟩
  · rw [htak, List.length_range]
    exact ⟨by omega, .inr htok⟩

/-- Whoever counts itself in first finds the counter at zero. -/
theorem Agrees.first (h : Agrees M s) (hi : i ∈ M) (hp : s.pos i = .add)
    (hfirst : ∀ j ∈ M, s.entered j ≤ s.entered i) : s.count = 0 := by
  have hout : s.Out i := by
    have := h.member i hi
    rwa [MemberOk, hp] at this
  have hnone := h.not_closing hi hout.1 (by simp [Closing, hp])
  rw [(h.count hnone).1, Finset.card_eq_zero, Finset.filter_eq_empty_iff]
  intro j hj
  have := hfirst j hj
  have := hout.1
  omega

omit [DecidableEq ι] in
/-- The members do not all sleep. -/
theorem Agrees.awake (h : Agrees M s) :
    ∃ i ∈ M, s.pos i = .wfi → s.tokens i ≠ [] := by
  by_contra hno
  push Not at hno
  have hin : ∀ i ∈ M, s.entered i = s.wakes + 1 := by
    intro i hi
    obtain ⟨hp, htok⟩ := hno i hi
    rcases h.wfi hi hp with hin | ⟨-, e, -, htok', -⟩
    · exact hin.1
    · rw [htok] at htok'
      cases htok'
  obtain ⟨hcount, hlt⟩ := h.count fun i hi hc => by
    have hp := (hno i hi).1
    rcases hc with hc | hc <;> · rw [hp] at hc; cases hc
  rw [Finset.filter_true_of_mem hin] at hcount
  omega

end Members

end State

end TeraNoC.Lib.CounterBarrier
