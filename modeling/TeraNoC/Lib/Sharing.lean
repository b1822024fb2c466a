import TeraNoC.Lib.Team

/-!
# Shared stages, and programs at other locations

A stage is what the threads do between two barriers. Where they share its tasks, it has one
result, and so has a program that consists of stages. A program whose locations are renamed does
what it did, in the part of the memory that has the new names.
-/

namespace TeraNoC.Lib

variable {A B V α β ι : Type} {n : Nat}

namespace Prog

/-- A program with other locations. -/
def rename (g : A → B) : Prog A V α → Prog B V α
  | ret x => ret x
  | load a k => load (g a) fun v => (k v).rename g
  | store a v k => store (g a) v (k.rename g)
  | barrier k => barrier (k.rename g)
  | spin => spin

theorem rename_bind (g : A → B) (p : Prog A V α) (f : α → Prog A V β) :
    (p >>= f).rename g = p.rename g >>= fun x => (f x).rename g := by
  change (p.bind f).rename g = (p.rename g).bind _
  induction p with
  | ret x => rfl
  | load a k ih => exact congrArg (load (g a)) (funext ih)
  | store a v k ih => exact congrArg (store (g a) v) ih
  | barrier k ih => exact congrArg barrier ih
  | spin => rfl

theorem rename_stages (g : A → B) (body : Nat → Prog A V Unit) (k s : Nat) :
    (stages body k s).rename g = stages (fun s => (body s).rename g) k s := by
  induction k generalizing s with
  | zero => rfl
  | succ k ih =>
      rw [stages, stages, rename_bind]
      exact congrArg _ (funext fun _ => congrArg barrier (ih (s + 1)))

/-- The new names of some locations. -/
def Image (g : A → B) (R : A → Prop) (b : B) : Prop := ∃ a, R a ∧ g a = b

end Prog

section Extend

variable {g : A → B} {m : B → V}

theorem extend_view (g : A → B) (m : B → V) : Function.extend g (m ∘ g) m = m := by
  funext b
  by_cases hb : ∃ a, g a = b
  · rw [Function.extend, dif_pos hb]
    exact congrArg m (Classical.choose_spec hb)
  · exact Function.extend_apply' _ _ b hb

theorem view_extend (hg : g.Injective) (m' : A → V) (m : B → V) :
    Function.extend g m' m ∘ g = m' :=
  funext fun a => hg.extend_apply m' m a

/-- What the renamed locations hold is overwritten. -/
theorem extend_over (m' : A → V) {m₁ m₂ : B → V} (h : ∀ b, (¬∃ a, g a = b) → m₁ b = m₂ b) :
    Function.extend g m' m₁ = Function.extend g m' m₂ := by
  funext b
  by_cases hb : ∃ a, g a = b
  · rw [Function.extend, Function.extend, dif_pos hb, dif_pos hb]
  · rw [Function.extend_apply' _ _ b hb, Function.extend_apply' _ _ b hb, h b hb]

theorem extend_extend (m₁ m₂ : A → V) (m : B → V) :
    Function.extend g m₂ (Function.extend g m₁ m) = Function.extend g m₂ m :=
  extend_over m₂ fun b hb => Function.extend_apply' _ _ b hb

end Extend

section Rename

variable [DecidableEq A] [DecidableEq B] {g : A → B} {R W : A → Prop}

theorem Prog.Runs.rename (hg : g.Injective) {p : Prog A V α} {x : α} {m : B → V} {m' : A → V}
    (h : p.Runs R W (m ∘ g) x m') :
    (p.rename g).Runs (Prog.Image g R) (Prog.Image g W) m x (Function.extend g m' m) := by
  induction p generalizing m with
  | ret y =>
      obtain ⟨rfl, rfl⟩ := h
      exact ⟨rfl, (extend_view g m).symm⟩
  | load a k ih => exact ⟨⟨a, h.1, rfl⟩, ih _ h.2⟩
  | store a v k ih =>
      obtain ⟨ha, hk⟩ := h
      refine ⟨⟨a, ha, rfl⟩, ?_⟩
      rw [← Function.update_comp_eq_of_injective m hg a v] at hk
      have hrest := ih hk
      rwa [extend_over m' fun b hb => Function.update_of_ne (fun heq => hb ⟨a, heq.symm⟩) v m]
        at hrest
  | barrier k => exact h.elim
  | spin => exact h.elim

omit [DecidableEq A] [DecidableEq B] in
theorem Local.rename (hg : g.Injective) {f : (A → V) → A → V} (h : Local R W f) :
    Local (Prog.Image g R) (Prog.Image g W) fun m => Function.extend g (f (m ∘ g)) m := by
  refine ⟨fun m b hb => ?_, fun m m' heq b hb => ?_⟩
  · by_cases hrange : ∃ a, g a = b
    · obtain ⟨a, rfl⟩ := hrange
      rw [hg.extend_apply, h.frame _ a fun ha => hb ⟨a, ha, rfl⟩]
      rfl
    · exact Function.extend_apply' _ _ b hrange
  · obtain ⟨a, ha, rfl⟩ := hb
    rw [hg.extend_apply, hg.extend_apply]
    exact h.congr _ _ (fun a' ha' => heq (g a') ⟨a', ha', rfl⟩) a ha

end Rename

variable [DecidableEq A] [DecidableEq B]

namespace Team

/-- Threads that share the tasks of a list: each task is done by one thread, and touches nothing
that another one stores to. All of them may load from `Q`. -/
structure Sharing (Q : A → Prop) (R W : ι → A → Prop) (f : ι → (A → V) → A → V)
    (share : Nat → List ι) (all : List ι) (p : Fin n → Prog A V Unit) : Prop where
  effect : ∀ i ∈ all, Local (R i) (W i) (f i)
  nodup : all.Nodup
  apart : ∀ i ∈ all, ∀ j ∈ all, i ≠ j → Apart R W i j
  common : ∀ i ∈ all, ∀ a, Q a → ¬W i a
  once : ((List.range n).flatMap share).Perm all
  runs : ∀ c m, (p c).Runs (fun a => Q a ∨ ∃ i ∈ share c, R i a) (fun a => ∃ i ∈ share c, W i a)
    m () ((share c).foldl (fun m i => f i m) m)

section Sharing

variable {Q : A → Prop} {R W : ι → A → Prop} {f : ι → (A → V) → A → V} {share : Nat → List ι}
  {all : List ι} {p : Fin n → Prog A V Unit}

theorem Sharing.finally (h : Sharing Q R W f share all p) {P : Team A V α n → Prop}
    {K : Fin n → Prog A V α} {m : A → V}
    (hK : Finally P ⟨all.foldl (fun m i => f i m) m, K⟩) :
    Finally P ⟨m, fun c => p c >>= fun _ => .barrier (K c)⟩ :=
  Finally.shared (x := fun _ => ()) h.effect h.nodup h.apart h.common h.once (fun c => h.runs c m)
    (fun _ => trivial) (Finally.barrier hK)

omit [DecidableEq A] [DecidableEq B] in
theorem foldl_rename {g : A → B} (hg : g.Injective) (f : ι → (A → V) → A → V) (is : List ι)
    (m : B → V) : is.foldl (fun m i => Function.extend g (f i (m ∘ g)) m) m =
      Function.extend g (is.foldl (fun m i => f i m) (m ∘ g)) m := by
  induction is generalizing m with
  | nil => exact (extend_view g m).symm
  | cons i is ih =>
      rw [List.foldl_cons, List.foldl_cons, ih, view_extend hg, extend_extend]

theorem Sharing.rename (h : Sharing Q R W f share all p) {g : A → B} (hg : g.Injective) :
    Sharing (Prog.Image g Q) (fun i => Prog.Image g (R i)) (fun i => Prog.Image g (W i))
      (fun i m => Function.extend g (f i (m ∘ g)) m) share all fun c => (p c).rename g where
  effect i hi := (h.effect i hi).rename hg
  nodup := h.nodup
  apart i hi j hj hne := by
    rintro b ⟨a, ha, rfl⟩
    obtain ⟨hR, hW⟩ := h.apart i hi j hj hne a ha
    constructor
    · rintro ⟨a', ha', heq⟩
      exact hR (hg heq ▸ ha')
    · rintro ⟨a', ha', heq⟩
      exact hW (hg heq ▸ ha')
  common i hi := by
    rintro b ⟨a, ha, rfl⟩ ⟨a', ha', heq⟩
    exact h.common i hi a ha (hg heq ▸ ha')
  once := h.once
  runs c m := by
    rw [foldl_rename hg]
    refine ((h.runs c (m ∘ g)).rename hg).mono ?_ ?_
    · rintro b ⟨a, ha | ⟨i, hi, ha⟩, rfl⟩
      · exact Or.inl ⟨a, ha, rfl⟩
      · exact Or.inr ⟨i, hi, a, ha, rfl⟩
    · rintro b ⟨a, ⟨i, hi, ha⟩, rfl⟩
      exact ⟨i, hi, a, ha, rfl⟩

end Sharing

/-- The rule for stages with something to follow: `M s` is what the memory holds before stage
`s`. -/
theorem Finally.stages_bind {P : Team A V α n → Prop} {body : Fin n → Nat → Prog A V Unit}
    {K : Fin n → Prog A V α} {M : Nat → A → V} {k s : Nat}
    (hstage : ∀ s' < s + k, ∀ K : Fin n → Prog A V α, Finally P ⟨M (s' + 1), K⟩ →
      Finally P ⟨M s', fun c => body c s' >>= fun _ => .barrier (K c)⟩)
    (h : Finally P ⟨M (s + k), K⟩) :
    Finally P ⟨M s, fun c => Prog.stages (body c) k s >>= fun _ => K c⟩ := by
  induction k generalizing s with
  | zero => exact h
  | succ k ih =>
      rw [Nat.add_comm k, ← Nat.add_assoc] at h
      have hrest := hstage s (by omega) _ (ih (fun s' hs' => hstage s' (by omega)) h)
      have hthreads : (fun c => Prog.stages (body c) (k + 1) s >>= fun _ => K c) = fun c =>
          body c s >>= fun _ => .barrier (Prog.stages (body c) k (s + 1) >>= fun _ => K c) :=
        funext fun c => Prog.bind_assoc _ _ _
      rw [hthreads]
      exact hrest

theorem Finally.mono {P P' : Team A V α n → Prop} {t : Team A V α n} (h : Finally P t)
    (himp : ∀ t, P t → P' t) : Finally P' t := by
  induction h with
  | intro _ last ih => exact ⟨ih, fun hstuck => himp _ (last hstuck)⟩

/-- What holds at the end of every run and what else does hold together at the end of one. -/
theorem Finally.both {P P' : Team A V α n → Prop} {t : Team A V α n} (h : Finally P t)
    (h' : Finally P' t) : ∃ t', P t' ∧ P' t' := by
  induction h with
  | @intro t next last ih =>
      obtain ⟨next', last'⟩ := h'
      by_cases hstep : ∃ t', Step t t'
      · obtain ⟨t', ht'⟩ := hstep
        exact ih t' ht' (next' t' ht')
      · have hstuck : ∀ t', ¬Step t t' := fun t' ht' => hstep ⟨t', ht'⟩
        exact ⟨t, last hstuck, last' hstuck⟩

end Team

end TeraNoC.Lib
