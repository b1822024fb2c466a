import Mathlib.Data.List.Perm.Basic
import Mathlib.Data.List.Nodup

/-!
# Interleavings

The members `0 .. n - 1` of a team each go through a list of steps. A run of the team is a
list of steps with the members that make them, in which every member's own steps are its
program. What a run does altogether is what the programs do, in another order.
-/

namespace TeraNoC.Lib

variable {ι : Type} {c n : Nat} {x : ι} {run run' : List (Nat × ι)} {prog : Nat → List ι}

/-- The steps of one member. -/
def own (c : Nat) (run : List (Nat × ι)) : List ι := (run.filter fun e => e.1 = c).map Prod.snd

theorem own_append : own c (run ++ run') = own c run ++ own c run' := by
  rw [own, List.filter_append, List.map_append, own, own]

theorem mem_own : x ∈ own c run ↔ (c, x) ∈ run := by
  rw [own, List.mem_map]
  constructor
  · rintro ⟨⟨c', x'⟩, hmem, rfl⟩
    obtain ⟨hrun, heq⟩ := List.mem_filter.mp hmem
    obtain rfl : c' = c := of_decide_eq_true heq
    exact hrun
  · intro hmem
    exact ⟨(c, x), List.mem_filter.mpr ⟨hmem, decide_eq_true rfl⟩, rfl⟩

theorem own_filter {p : Nat → Bool} (hp : p c = true) :
    own c (run.filter fun e => p e.1) = own c run := by
  rw [own, own, List.filter_filter]
  congr 1
  refine List.filter_congr fun e _ => ?_
  by_cases hc : e.1 = c
  · rw [hc, hp, Bool.and_true]
  · rw [decide_eq_false hc, Bool.false_and]

/-- A run in which every member goes through its program. -/
def Interleaving (n : Nat) (prog : Nat → List ι) (run : List (Nat × ι)) : Prop :=
  (∀ e ∈ run, e.1 < n) ∧ ∀ c < n, own c run = prog c

theorem perm_flatMap_own (run : List (Nat × ι)) (h : ∀ e ∈ run, e.1 < n) :
    (run.map Prod.snd).Perm ((List.range n).flatMap fun c => own c run) := by
  induction n generalizing run with
  | zero =>
      cases run with
      | nil => exact List.Perm.refl _
      | cons e run => exact absurd (h e List.mem_cons_self) (Nat.not_lt_zero _)
  | succ n ih =>
      -- the steps of the last member, and the others'
      have hsplit := (List.filter_append_perm (fun e => decide (e.1 < n)) run).symm
      have hlow := ih (run.filter fun e => decide (e.1 < n)) fun e he =>
        of_decide_eq_true (List.mem_filter.mp he).2
      have hcongr : ((List.range n).flatMap fun c => own c (run.filter fun e => decide (e.1 < n))) =
          (List.range n).flatMap fun c => own c run :=
        List.flatMap_congr fun c hc =>
          own_filter (p := fun c => decide (c < n)) (decide_eq_true (List.mem_range.mp hc))
      have hlast : (run.filter fun e => !decide (e.1 < n)).map Prod.snd = own n run := by
        rw [own]
        congr 1
        refine List.filter_congr fun e he => ?_
        have := h e he
        rw [← decide_not, decide_eq_decide]
        omega
      rw [List.range_succ, List.flatMap_append, List.flatMap_singleton]
      refine (hsplit.map Prod.snd).trans ?_
      rw [List.map_append, hlast, ← hcongr]
      exact hlow.append_right _

theorem Interleaving.perm (h : Interleaving n prog run) :
    (run.map Prod.snd).Perm ((List.range n).flatMap prog) := by
  have hperm := perm_flatMap_own run h.1
  rwa [List.flatMap_congr fun c hc => h.2 c (List.mem_range.mp hc)] at hperm

/-- What only one member does. -/
theorem nodup_flatMap_range {f : Nat → List ι} {a b : Nat}
    (h : ((List.range n).flatMap f).Nodup) (hlt : a < b) (hb : b < n) (ha : x ∈ f a)
    (hxb : x ∈ f b) : False := by
  have hpair := (List.pairwise_iff_getElem.mp (List.nodup_flatMap.mp h).2) a b
    (by rw [List.length_range]; omega) (by rw [List.length_range]; omega) hlt
  rw [List.getElem_range, List.getElem_range] at hpair
  exact hpair ha hxb

/-- Everything belongs to exactly one member: together they have everything once. -/
theorem perm_of_unique {f : Nat → List ι} {all : List ι} (hall : all.Nodup)
    (hnodup : ∀ c < n, (f c).Nodup) (hmem : ∀ c < n, ∀ x ∈ f c, x ∈ all)
    (hex : ∀ x ∈ all, ∃ c < n, x ∈ f c)
    (huniq : ∀ c < n, ∀ c' < n, ∀ x, x ∈ f c → x ∈ f c' → c = c') :
    ((List.range n).flatMap f).Perm all := by
  refine (List.perm_ext_iff_of_nodup ?_ hall).mpr fun x => ?_
  · refine List.nodup_flatMap.mpr ⟨fun c hc => hnodup c (List.mem_range.mp hc), ?_⟩
    exact (List.nodup_range (n := n)).imp_of_mem fun {c c'} hc hc' hne x hx hx' =>
      hne (huniq c (List.mem_range.mp hc) c' (List.mem_range.mp hc') x hx hx')
  · rw [List.mem_flatMap]
    constructor
    · rintro ⟨c, hc, hx⟩
      exact hmem c (List.mem_range.mp hc) x hx
    · intro hx
      obtain ⟨c, hc, hin⟩ := hex x hx
      exact ⟨c, List.mem_range.mpr hc, hin⟩

/-- A member has what it owns, once. -/
theorem perm_of_owner {f : Nat → List ι} {all : List ι} (owner : ι → Nat) (hall : all.Nodup)
    (hnodup : ∀ c < n, (f c).Nodup) (hmem : ∀ c < n, ∀ x, x ∈ f c ↔ x ∈ all ∧ owner x = c)
    (howner : ∀ x ∈ all, owner x < n) : ((List.range n).flatMap f).Perm all := by
  refine perm_of_unique hall hnodup (fun c hc x hx => ((hmem c hc x).mp hx).1)
    (fun x hx => ⟨owner x, howner x hx, (hmem _ (howner x hx) x).mpr ⟨hx, rfl⟩⟩)
    (fun c hc c' hc' x hx hx' => ?_)
  rw [← ((hmem c hc x).mp hx).2, ((hmem c' hc' x).mp hx').2]

theorem perm_range_of_unique {f : Nat → List Nat} {total : Nat} (hnodup : ∀ c < n, (f c).Nodup)
    (hlt : ∀ c < n, ∀ x ∈ f c, x < total) (hex : ∀ x < total, ∃ c < n, x ∈ f c)
    (huniq : ∀ c < n, ∀ c' < n, ∀ x, x ∈ f c → x ∈ f c' → c = c') :
    ((List.range n).flatMap f).Perm (List.range total) :=
  perm_of_unique List.nodup_range hnodup (fun c hc x hx => List.mem_range.mpr (hlt c hc x hx))
    (fun x hx => hex x (List.mem_range.mp hx)) huniq

theorem perm_range_of_owner {f : Nat → List Nat} {total : Nat} (owner : Nat → Nat)
    (hnodup : ∀ c < n, (f c).Nodup)
    (hmem : ∀ c < n, ∀ x, x ∈ f c ↔ x < total ∧ owner x = c) (howner : ∀ x < total, owner x < n) :
    ((List.range n).flatMap f).Perm (List.range total) :=
  perm_of_owner owner List.nodup_range hnodup
    (fun c hc x => by rw [List.mem_range]; exact hmem c hc x)
    (fun x hx => howner x (List.mem_range.mp hx))

end TeraNoC.Lib
