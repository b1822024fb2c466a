import Mathlib.Order.Basic

/-!
# Progress under fairness

A measure that never grows, and that shrinks whenever something that keeps
happening happens, runs out.
-/

namespace TeraNoC.Lib

theorem eventually_zero {μ : Nat → Nat} {tick : Nat → Prop}
    (hle : ∀ t, μ (t + 1) ≤ μ t) (hlt : ∀ t, tick t → 0 < μ t → μ (t + 1) < μ t)
    (hfair : ∀ t, ∃ u, t ≤ u ∧ tick u) : ∃ T, μ T = 0 := by
  have hmono : ∀ t d, μ (t + d) ≤ μ t := by
    intro t d
    induction d with
    | zero => exact Nat.le_refl _
    | succ d ih => exact Nat.le_trans (hle (t + d)) ih
  -- strong induction on the value of the measure
  have hrun : ∀ v t, μ t ≤ v → ∃ T, μ T = 0 := by
    intro v
    induction v with
    | zero => exact fun t h => ⟨t, by omega⟩
    | succ v ih =>
        intro t h
        rcases Nat.eq_zero_or_pos (μ t) with h0 | hpos
        · exact ⟨t, h0⟩
        · obtain ⟨u, hu, htick⟩ := hfair t
          have hbound := hmono t (u - t)
          rw [Nat.add_sub_cancel' hu] at hbound
          rcases Nat.eq_zero_or_pos (μ u) with h0 | hpos'
          · exact ⟨u, h0⟩
          · have := hlt u htick hpos'
            exact ih (u + 1) (by omega)
  exact hrun (μ 0) 0 (Nat.le_refl _)

theorem le_of_le_succ {μ : Nat → Nat} (hle : ∀ t, μ t ≤ μ (t + 1)) {t u : Nat} (h : t ≤ u) :
    μ t ≤ μ u := by
  obtain ⟨d, rfl⟩ := Nat.exists_eq_add_of_le h
  induction d with
  | zero => exact Nat.le_refl _
  | succ d ih => exact Nat.le_trans (ih (Nat.le_add_right t d)) (hle (t + d))

/-- What only grows and stays below a bound comes to rest. -/
theorem eventually_const {μ : Nat → Nat} (hle : ∀ t, μ t ≤ μ (t + 1)) {N : Nat}
    (hN : ∀ t, μ t ≤ N) : ∃ T, ∀ t, T ≤ t → μ t = μ T := by
  -- induction on the room below the bound
  have hroom : ∀ d t, N - μ t ≤ d → ∃ T, ∀ u, T ≤ u → μ u = μ T := by
    intro d
    induction d with
    | zero =>
        intro t ht
        refine ⟨t, fun u hu => Nat.le_antisymm ?_ (le_of_le_succ hle hu)⟩
        have := hN u
        omega
    | succ d ih =>
        intro t ht
        by_cases hgrows : ∃ u, t ≤ u ∧ μ t < μ u
        · obtain ⟨u, -, hlt⟩ := hgrows
          have := hN u
          exact ih u (by omega)
        · refine ⟨t, fun u hu => Nat.le_antisymm ?_ (le_of_le_succ hle hu)⟩
          exact Nat.le_of_not_lt fun hlt => hgrows ⟨u, hu, hlt⟩
  exact hroom _ 0 (Nat.le_refl _)

/-- What holds of each from some time on holds of all from some time on. -/
theorem eventually_forall_lt {P : Nat → Nat → Prop} (n : Nat)
    (h : ∀ i < n, ∃ T, ∀ t, T ≤ t → P i t) : ∃ T, ∀ i < n, ∀ t, T ≤ t → P i t := by
  induction n with
  | zero => exact ⟨0, fun i hi => absurd hi (Nat.not_lt_zero i)⟩
  | succ n ih =>
      obtain ⟨T, hT⟩ := ih fun i hi => h i (Nat.lt_succ_of_lt hi)
      obtain ⟨T', hT'⟩ := h n (Nat.lt_succ_self n)
      refine ⟨max T T', fun i hi t ht => ?_⟩
      rcases Nat.lt_succ_iff_lt_or_eq.1 hi with hlt | rfl
      · exact hT i hlt t (by omega)
      · exact hT' t (by omega)

/-- A run that stays where it is or goes down gets to the bottom, if from everywhere else there is
something that keeps being given and takes it down. -/
theorem eventually_bottom {C K : Type} (At : Nat → C → Prop) (given : Nat → K → Prop) (μ : C → Nat)
    (hstep : ∀ t c, At t c → ∃ c', At (t + 1) c' ∧ (c' = c ∨ μ c' < μ c))
    (hhelp : ∀ t c, At t c → 0 < μ c →
      ∃ k, ∀ u, At u c → given u k → ∃ c', At (u + 1) c' ∧ μ c' < μ c)
    (hfair : ∀ k t, ∃ u, t ≤ u ∧ given u k) {t : Nat} {c : C} (h : At t c) :
    ∃ u c', At u c' ∧ μ c' = 0 := by
  -- strong induction on the height
  have hrun : ∀ v t c, At t c → μ c ≤ v → ∃ u c', At u c' ∧ μ c' = 0 := by
    intro v
    induction v with
    | zero => exact fun t c h hv => ⟨t, c, h, Nat.le_zero.1 hv⟩
    | succ v ih =>
        intro t c h hv
        rcases Nat.eq_zero_or_pos (μ c) with h0 | hpos
        · exact ⟨t, c, h, h0⟩
        · obtain ⟨k, hk⟩ := hhelp t c h hpos
          obtain ⟨u, hu, hgiven⟩ := hfair k t
          -- until then it waits, or goes down before
          have hwait : ∀ d, At (t + d) c ∨ ∃ u c', At u c' ∧ μ c' < μ c := by
            intro d
            induction d with
            | zero => exact .inl h
            | succ d ihd =>
                rcases ihd with hat | hdown
                · obtain ⟨c', hat', rfl | hlt⟩ := hstep (t + d) c hat
                  · exact .inl hat'
                  · exact .inr ⟨_, c', hat', hlt⟩
                · exact .inr hdown
          have hdown : ∃ u c', At u c' ∧ μ c' < μ c := by
            rcases hwait (u - t) with hat | hdown
            · rw [Nat.add_sub_cancel' hu] at hat
              obtain ⟨c', hat', hlt⟩ := hk u hat hgiven
              exact ⟨_, c', hat', hlt⟩
            · exact hdown
          obtain ⟨u', c', hat', hlt⟩ := hdown
          exact ih u' c' hat' (by omega)
  exact hrun (μ c) t c h (Nat.le_refl _)

end TeraNoC.Lib
