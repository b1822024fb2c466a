import Mathlib.Data.List.Basic
import Mathlib.Logic.Function.Basic

/-!
# Replaying writes

A store that starts as `m` and takes a list of writes in order. What it holds at a key
is the value of some write to that key, the last one, or what it started with.
-/

namespace TeraNoC.Lib

variable {κ υ : Type} [DecidableEq κ] {m : κ → υ} {ws ws' : List (κ × υ)} {k : κ}

def replay (m : κ → υ) (ws : List (κ × υ)) : κ → υ :=
  ws.foldl (fun m w => Function.update m w.1 w.2) m

theorem replay_append : replay m (ws ++ ws') = replay (replay m ws) ws' := List.foldl_append

theorem replay_of_not_mem (h : ∀ w ∈ ws, w.1 ≠ k) : replay m ws k = m k := by
  induction ws generalizing m with
  | nil => rfl
  | cons w ws ih =>
      have hne := h w List.mem_cons_self
      calc replay m (w :: ws) k = replay (Function.update m w.1 w.2) ws k := rfl
        _ = Function.update m w.1 w.2 k := ih fun w' hw' => h w' (List.mem_cons_of_mem _ hw')
        _ = m k := Function.update_of_ne hne.symm _ _

/-- A key that is written holds the value of a write to it. -/
theorem replay_of_mem (h : ∃ w ∈ ws, w.1 = k) : ∃ w ∈ ws, w.1 = k ∧ replay m ws k = w.2 := by
  induction ws generalizing m with
  | nil =>
      obtain ⟨w, hw, -⟩ := h
      cases hw
  | cons w ws ih =>
      by_cases hlater : ∃ w' ∈ ws, w'.1 = k
      · obtain ⟨w', hw', hk, hval⟩ := ih (m := Function.update m w.1 w.2) hlater
        exact ⟨w', List.mem_cons_of_mem _ hw', hk, hval⟩
      · have hrest : ∀ w' ∈ ws, w'.1 ≠ k := fun w' hw' hk => hlater ⟨w', hw', hk⟩
        have hk : w.1 = k := by
          obtain ⟨w', hw', hk⟩ := h
          rcases List.mem_cons.mp hw' with rfl | hw'
          · exact hk
          · exact absurd hk (hrest w' hw')
        refine ⟨w, List.mem_cons_self, hk, ?_⟩
        calc replay m (w :: ws) k = replay (Function.update m w.1 w.2) ws k := rfl
          _ = Function.update m w.1 w.2 k := replay_of_not_mem hrest
          _ = w.2 := by rw [← hk, Function.update_self]

/-- Only the last writer counts: later writes to other keys do not matter. -/
theorem replay_append_of_not_mem (h : ∀ w ∈ ws', w.1 ≠ k) :
    replay m (ws ++ ws') k = replay m ws k := by
  rw [replay_append, replay_of_not_mem h]

theorem replay_append_of_mem (h : ∃ w ∈ ws', w.1 = k) :
    ∃ w ∈ ws', w.1 = k ∧ replay m (ws ++ ws') k = w.2 := by
  rw [replay_append]
  exact replay_of_mem h

/-- Folds whose steps each replay some writes replay all of them. -/
theorem foldl_replay {α : Type} {f : (κ → υ) → α → κ → υ} {g : α → List (κ × υ)} {l : List α}
    (h : ∀ m, ∀ a ∈ l, f m a = replay m (g a)) : l.foldl f m = replay m (l.flatMap g) := by
  induction l generalizing m with
  | nil => rfl
  | cons a l ih =>
      rw [List.foldl_cons, List.flatMap_cons, replay_append, h m a List.mem_cons_self]
      exact ih fun m a ha => h m a (List.mem_cons_of_mem _ ha)

/-- A relation between every entry and the later ones, from the ways to cut the list. -/
theorem pairwise_of_split {α : Type} {R : α → α → Prop} {l : List α}
    (h : ∀ l₁ a l₂, l = l₁ ++ a :: l₂ → ∀ b ∈ l₂, R a b) : l.Pairwise R := by
  induction l with
  | nil => exact .nil
  | cons a l ih =>
      refine .cons (h [] a l rfl) (ih fun l₁ b l₂ hl => ?_)
      exact h (a :: l₁) b l₂ (congrArg (a :: ·) hl)

end TeraNoC.Lib
