import Mathlib.Data.List.Induction
import Mathlib.Data.Nat.Init

/-!
# Recurrences in place

A recurrence gives every place a value that depends on the values of the places of a lower rank.
It has one solution on the places that count, and an array whose places are computed in the order
of their ranks is left with it.
-/

namespace TeraNoC.Lib

section Recurrence

variable {ι α σ : Type} {D : ι → Prop} {rank : ι → Nat} {F G : (ι → α) → ι → α} {e f g : ι → α}

/-- What a place gets only depends on the places of a lower rank. -/
def Causal (D : ι → Prop) (rank : ι → Nat) (F : (ι → α) → ι → α) : Prop :=
  ∀ f g i, D i → (∀ j, D j → rank j < rank i → f j = g j) → F f i = F g i

/-- Every place has what the recurrence gives it. -/
def Solves (D : ι → Prop) (F : (ι → α) → ι → α) (f : ι → α) : Prop := ∀ i, D i → f i = F f i

theorem Causal.unique (h : Causal D rank F) (hf : Solves D F f) (hg : Solves D F g) (i : ι)
    (hi : D i) : f i = g i := by
  induction hn : rank i using Nat.strong_induction_on generalizing i with
  | _ n ih =>
      subst hn
      calc f i = F f i := hf i hi
        _ = F g i := h f g i hi fun j hj hlt => ih _ hlt j hj rfl
        _ = g i := (hg i hi).symm

/-- If one solution is common to two recurrences, then so is every solution of the second. -/
theorem Causal.solves_of_common (hF : Causal D rank F) (hG : Causal D rank G) (hf : Solves D F f)
    (hfG : Solves D G f) (he : Solves D G e) : Solves D F e := by
  intro i hi
  have heq := hG.unique hfG he
  calc e i = f i := (heq i hi).symm
    _ = F f i := hf i hi
    _ = F e i := hF f e i hi fun j hj _ => heq j hj

/-- The solution of one recurrence solves another one if and only if the solution of the other
one solves the first. -/
theorem Causal.solves_iff (hF : Causal D rank F) (hG : Causal D rank G) (hf : Solves D F f)
    (he : Solves D G e) : Solves D G f ↔ Solves D F e :=
  ⟨fun h => hF.solves_of_common hG hf h he, fun h => hG.solves_of_common hF he h hf⟩

/-! ## Arrays -/

variable {view : σ → ι → α} {turn : σ → ι → σ} {places : List ι}

/-- A place that is computed after all places of a lower rank leaves these as they are. -/
theorem Causal.store (hF : Causal D rank F) {s s' : σ} {i : ι}
    (hother : ∀ j, D j → j ≠ i → view s' j = view s j) {j : ι} (hj : D j)
    (hrank : rank j ≤ rank i) : F (view s') j = F (view s) j :=
  hF _ _ j hj fun k hk hlt => hother k hk fun heq => by
    rw [heq] at hlt
    omega

/-- Computed in the order of their ranks, the places have what the recurrence gives them. -/
theorem Causal.run (hF : Causal D rank F) (view : σ → ι → α) (turn : σ → ι → σ)
    (hself : ∀ s, ∀ i ∈ places, view (turn s i) i = F (view s) i)
    (hother : ∀ s, ∀ i ∈ places, ∀ j, D j → j ≠ i → view (turn s i) j = view s j)
    (hD : ∀ i ∈ places, D i) (horder : places.Pairwise fun i j => i ≠ j ∧ rank i ≤ rank j)
    (s : σ) : ∀ i ∈ places, view (places.foldl turn s) i = F (view (places.foldl turn s)) i := by
  induction places using List.reverseRecOn with
  | nil => exact fun i hi => absurd hi List.not_mem_nil
  | append_singleton places i ih =>
      obtain ⟨hfirst, -, hlast⟩ := List.pairwise_append.mp horder
      have hi : i ∈ places ++ [i] := List.mem_append_right _ (List.mem_singleton_self i)
      have hleft {j : ι} (hj : j ∈ places) : j ∈ places ++ [i] := List.mem_append_left _ hj
      have hdone := ih (fun s j hj => hself s j (hleft hj)) (fun s j hj => hother s j (hleft hj))
        (fun j hj => hD j (hleft hj)) hfirst
      rw [List.foldl_append]
      intro j hj
      obtain hj | hj := List.mem_append.mp hj
      · obtain ⟨hne, hrank⟩ := hlast j hj i (List.mem_singleton_self i)
        calc view (turn (places.foldl turn s) i) j = view (places.foldl turn s) j :=
              hother _ i hi j (hD j (hleft hj)) hne
          _ = F (view (places.foldl turn s)) j := hdone j hj
          _ = F (view (turn (places.foldl turn s) i)) j :=
              (hF.store (hother _ i hi) (hD j (hleft hj)) hrank).symm
      · rw [List.mem_singleton.mp hj]
        exact (hself _ i hi).trans (hF.store (hother _ i hi) (hD i hi) (Nat.le_refl _)).symm

end Recurrence

end TeraNoC.Lib
