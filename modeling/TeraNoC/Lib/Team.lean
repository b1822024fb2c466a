import Mathlib.Algebra.BigOperators.Fin
import Mathlib.Algebra.Order.BigOperators.Group.Finset
import TeraNoC.Lib.Interleave
import TeraNoC.Lib.Program

/-!
# Teams

The threads of a team run on one memory. A step is a load or a store of a thread, or the
barrier, which lets all threads go on once all of them wait at it. What threads do until they
all wait does not depend on the order of their steps if none touches what another one stores to.
-/

namespace TeraNoC.Lib

variable {A V α β ι : Type} {n : Nat}

namespace Prog

/-- The program cannot go on by itself. -/
def Idle : Prog A V α → Prop
  | load _ _ => False
  | store _ _ _ => False
  | _ => True

theorem load_of_bind {p : Prog A V β} {f : β → Prog A V α} {a : A} {k : V → Prog A V α}
    (h : p.bind f = .load a k) :
    (∃ y, p = .ret y ∧ f y = .load a k) ∨ ∃ k', p = .load a k' ∧ k = fun v => (k' v).bind f := by
  cases p with
  | ret y => exact Or.inl ⟨y, rfl, h⟩
  | load a' k' =>
      cases h
      exact Or.inr ⟨k', rfl, rfl⟩
  | store a' v' k' => cases h
  | barrier k' => cases h
  | spin => cases h

theorem store_of_bind {p : Prog A V β} {f : β → Prog A V α} {a : A} {v : V} {k : Prog A V α}
    (h : p.bind f = .store a v k) :
    (∃ y, p = .ret y ∧ f y = .store a v k) ∨ ∃ k', p = .store a v k' ∧ k = k'.bind f := by
  cases p with
  | ret y => exact Or.inl ⟨y, rfl, h⟩
  | load a' k' => cases h
  | store a' v' k' =>
      cases h
      exact Or.inr ⟨k', rfl, rfl⟩
  | barrier k' => cases h
  | spin => cases h

end Prog

variable [DecidableEq A]

structure Team (A V α : Type) (n : Nat) where
  mem : A → V
  threads : Fin n → Prog A V α

namespace Team

inductive Step (t : Team A V α n) : Team A V α n → Prop
  | load {c : Fin n} {a : A} {k : V → Prog A V α} (h : t.threads c = .load a k) :
      Step t ⟨t.mem, Function.update t.threads c (k (t.mem a))⟩
  | store {c : Fin n} {a : A} {v : V} {k : Prog A V α} (h : t.threads c = .store a v k) :
      Step t ⟨Function.update t.mem a v, Function.update t.threads c k⟩
  | barrier {k : Fin n → Prog A V α} (h : ∀ c, t.threads c = .barrier (k c)) : Step t ⟨t.mem, k⟩

/-- Every run of the team ends, in a state that satisfies `P`. -/
inductive Finally (P : Team A V α n → Prop) : Team A V α n → Prop
  | intro {t : Team A V α n} (next : ∀ t', Step t t' → Finally P t')
      (last : (∀ t', ¬Step t t') → P t) : Finally P t

/-- Every thread has returned. -/
def Returned (t : Team A V α n) (x : Fin n → α) : Prop := ∀ c, t.threads c = .ret (x c)

end Team

namespace Prog

/-- What a program leaves. -/
def after (p : Prog A V α) (m : A → V) : A → V := (p.run m).2

variable {R W : A → Prop} {p : Prog A V α} {m m' m'' : A → V} {x : α}

theorem Runs.after (h : p.Runs R W m x m') : p.after m = m' := by
  rw [Prog.after, h.run]

/-- What only loads leaves the memory as it is. -/
theorem Runs.readOnly (h : p.Runs R (fun _ => False) m x m') : m' = m :=
  funext fun _ => h.frame id

/-- A run depends on the locations that it touches, and on no others. -/
theorem Runs.congr (h : p.Runs R W m x m') (heq : ∀ a, R a ∨ W a → m a = m'' a) :
    p.Runs R W m'' x (p.after m'') ∧ ∀ a, R a ∨ W a → m' a = p.after m'' a := by
  induction p generalizing m m'' with
  | ret y =>
      obtain ⟨rfl, rfl⟩ := h
      exact ⟨⟨rfl, rfl⟩, heq⟩
  | load a k ih =>
      obtain ⟨ha, hk⟩ := h
      rw [heq a (Or.inl ha)] at hk
      obtain ⟨hruns, hleft⟩ := ih _ hk heq
      exact ⟨⟨ha, hruns⟩, hleft⟩
  | store a v k ih =>
      obtain ⟨ha, hk⟩ := h
      have hupdate : ∀ b, R b ∨ W b → Function.update m a v b = Function.update m'' a v b := by
        intro b hb
        by_cases hba : b = a
        · rw [hba, Function.update_self, Function.update_self]
        · rw [Function.update_of_ne hba, Function.update_of_ne hba, heq b hb]
      obtain ⟨hruns, hleft⟩ := ih hk hupdate
      exact ⟨⟨ha, hruns⟩, hleft⟩
  | barrier k => exact h.elim
  | spin => exact h.elim

end Prog

namespace Team

section Phase

variable {P : Team A V α n → Prop} {R W : Fin n → A → Prop} {K : Fin n → β → Prog A V α}
  {x : Fin n → β} {left : Fin n → A → V} {m M : A → V}

/-- The threads on their way to the place where they all wait: what each of them still does, and
the memory as it sees it, which is right about what it touches. -/
structure Phase (R W : Fin n → A → Prop) (x : Fin n → β) (left : Fin n → A → V) (M m : A → V)
    (q : Fin n → Prog A V β) (view : Fin n → A → V) : Prop where
  runs : ∀ c, (q c).Runs (R c) (W c) (view c) (x c) (left c)
  sees : ∀ c a, R c a ∨ W c a → m a = view c a
  frame : ∀ a, (∀ c, ¬W c a) → m a = M a

theorem Phase.step_load {q : Fin n → Prog A V β} {view : Fin n → A → V}
    (h : Phase R W x left M m q view) {c : Fin n} {a : A} {k : V → Prog A V β}
    (hc : q c = .load a k) : Phase R W x left M m (Function.update q c (k (m a))) view := by
  have hrun := h.runs c
  rw [hc] at hrun
  refine ⟨fun c' => ?_, h.sees, h.frame⟩
  by_cases hcc : c' = c
  · subst hcc
    rw [Function.update_self, h.sees _ _ (Or.inl hrun.1)]
    exact hrun.2
  · rw [Function.update_of_ne hcc]
    exact h.runs c'

theorem Phase.step_store (hdisj : ∀ c c' a, W c a → R c' a ∨ W c' a → c = c')
    {q : Fin n → Prog A V β} {view : Fin n → A → V} (h : Phase R W x left M m q view) {c : Fin n}
    {a : A} {v : V} {k : Prog A V β} (hc : q c = .store a v k) :
    Phase R W x left M (Function.update m a v) (Function.update q c k)
      (Function.update view c (Function.update (view c) a v)) := by
  have hrun := h.runs c
  rw [hc] at hrun
  refine ⟨fun c' => ?_, fun c' b hb => ?_, fun b hb => ?_⟩
  · by_cases hcc : c' = c
    · subst hcc
      rw [Function.update_self, Function.update_self]
      exact hrun.2
    · rw [Function.update_of_ne hcc, Function.update_of_ne hcc]
      exact h.runs c'
  · by_cases hcc : c' = c
    · subst hcc
      rw [Function.update_self]
      by_cases hba : b = a
      · rw [hba, Function.update_self, Function.update_self]
      · rw [Function.update_of_ne hba, Function.update_of_ne hba, h.sees _ _ hb]
    · have hba : b ≠ a := fun heq => hcc (hdisj c c' a hrun.1 (heq ▸ hb)).symm
      rw [Function.update_of_ne hba, Function.update_of_ne hcc, h.sees _ _ hb]
  · have hba : b ≠ a := fun heq => hb c (heq ▸ hrun.1)
    rw [Function.update_of_ne hba, h.frame b hb]

theorem Phase.done_or {q : Fin n → Prog A V β} {view : Fin n → A → V}
    (h : Phase R W x left M m q view) (c : Fin n) :
    (q c = .ret (x c) ∧ view c = left c) ∨ (∃ a k, q c = .load a k) ∨
      ∃ a v k, q c = .store a v k := by
  have hrun := h.runs c
  cases hq : q c with
  | ret y =>
      rw [hq] at hrun
      obtain ⟨rfl, hleft⟩ := hrun
      exact Or.inl ⟨rfl, hleft⟩
  | load a k => exact Or.inr (Or.inl ⟨a, k, rfl⟩)
  | store a v k => exact Or.inr (Or.inr ⟨a, v, k, rfl⟩)
  | barrier k =>
      rw [hq] at hrun
      exact hrun.elim
  | spin =>
      rw [hq] at hrun
      exact hrun.elim

/-- What is still to be done. -/
def work (q : Fin n → Prog A V β) (view : Fin n → A → V) : Nat := ∑ c, (q c).accesses (view c)

theorem work_lt {q q' : Fin n → Prog A V β} {view view' : Fin n → A → V} (c : Fin n)
    (hc : (q' c).accesses (view' c) < (q c).accesses (view c))
    (hne : ∀ c', c' ≠ c → (q' c').accesses (view' c') = (q c').accesses (view c')) :
    work q' view' < work q view := by
  refine Finset.sum_lt_sum (fun c' _ => ?_) ⟨c, Finset.mem_univ c, hc⟩
  by_cases hcc : c' = c
  · exact hcc ▸ hc.le
  · exact (hne c' hcc).le

omit [DecidableEq A] in
/-- The step of a thread. -/
theorem update_bind (q : Fin n → Prog A V β) (c : Fin n) (r : Prog A V β) :
    Function.update (fun c => (q c).bind (K c)) c (r.bind (K c)) =
      fun c' => (Function.update q c r c').bind (K c') := by
  funext c'
  by_cases hcc : c' = c
  · subst hcc
    rw [Function.update_self, Function.update_self]
  · rw [Function.update_of_ne hcc, Function.update_of_ne hcc]

theorem Finally.of_phase (hdisj : ∀ c c' a, W c a → R c' a ∨ W c' a → c = c')
    (hM : ∀ c a, W c a → M a = left c a) (hidle : ∀ c, (K c (x c)).Idle)
    (h : Finally P ⟨M, fun c => K c (x c)⟩) {q : Fin n → Prog A V β} {view : Fin n → A → V}
    (hphase : Phase R W x left M m q view) : Finally P ⟨m, fun c => (q c).bind (K c)⟩ := by
  induction hN : work q view using Nat.strong_induction_on generalizing m q view with
  | _ N ih =>
      subst hN
      by_cases hdone : ∀ c, q c = .ret (x c) ∧ view c = left c
      · -- everybody is there
        have hmem : m = M := by
          funext a
          by_cases hW : ∃ c, W c a
          · obtain ⟨c, hc⟩ := hW
            rw [hphase.sees c a (Or.inr hc), (hdone c).2, hM c a hc]
          · exact hphase.frame a fun c hc => hW ⟨c, hc⟩
        rw [hmem, show (fun c => (q c).bind (K c)) = fun c => K c (x c) from
          funext fun c => by rw [(hdone c).1]; rfl]
        exact h
      · obtain ⟨d, hd⟩ := not_forall.mp hdone
        have hret : ∀ {c y}, q c = .ret y → (K c y).Idle := fun {c y} hq => by
          have hrun := hphase.runs c
          rw [hq] at hrun
          exact hrun.1 ▸ hidle c
        refine ⟨fun t' hstep => ?_, fun hstuck => ?_⟩
        · cases hstep with
          | @load c a k hc =>
              rcases Prog.load_of_bind hc with ⟨y, hq, hK⟩ | ⟨k', hq, rfl⟩
              · have hidle := hret hq
                rw [hK] at hidle
                exact hidle.elim
              · rw [update_bind]
                refine ih _ (work_lt c ?_ fun c' hcc => ?_) (hphase.step_load hq) rfl
                · have hrun := hphase.runs c
                  rw [hq] at hrun ⊢
                  have hsees : m a = view c a := hphase.sees c a (Or.inl hrun.1)
                  rw [Function.update_self]
                  dsimp only
                  rw [hsees]
                  exact Nat.lt_succ_self _
                · rw [Function.update_of_ne hcc]
          | @store c a v k hc =>
              rcases Prog.store_of_bind hc with ⟨y, hq, hK⟩ | ⟨k', hq, rfl⟩
              · have hidle := hret hq
                rw [hK] at hidle
                exact hidle.elim
              · rw [update_bind]
                refine ih _ (work_lt c ?_ fun c' hcc => ?_) (hphase.step_store hdisj hq) rfl
                · rw [hq, Function.update_self, Function.update_self]
                  exact Nat.lt_succ_self _
                · rw [Function.update_of_ne hcc, Function.update_of_ne hcc]
          | @barrier k hk =>
              -- thread `d` does not wait
              have hwait := hk d
              rcases hphase.done_or d with hdd | ⟨a, k', hq⟩ | ⟨a, v, k', hq⟩
              · exact absurd hdd hd
              · dsimp only at hwait
                rw [hq] at hwait
                cases hwait
              · dsimp only at hwait
                rw [hq] at hwait
                cases hwait
        · rcases hphase.done_or d with hdd | ⟨a, k', hq⟩ | ⟨a, v, k', hq⟩
          · exact absurd hdd hd
          · have hload : (q d).bind (K d) = .load a fun v => (k' v).bind (K d) := by
              rw [hq]
              rfl
            exact absurd (Step.load (t := ⟨m, fun c => (q c).bind (K c)⟩) hload) (hstuck _)
          · have hstore : (q d).bind (K d) = .store a v (k'.bind (K d)) := by
              rw [hq]
              rfl
            exact absurd (Step.store (t := ⟨m, fun c => (q c).bind (K c)⟩) hstore) (hstuck _)

/-- Threads that do not touch what others store to, up to the place where they all wait. -/
theorem Finally.phase {p : Fin n → Prog A V β}
    (hruns : ∀ c, (p c).Runs (R c) (W c) m (x c) (left c))
    (hdisj : ∀ c c' a, W c a → R c' a ∨ W c' a → c = c')
    (hM : ∀ c a, W c a → M a = left c a) (hframe : ∀ a, (∀ c, ¬W c a) → M a = m a)
    (hidle : ∀ c, (K c (x c)).Idle) (h : Finally P ⟨M, fun c => K c (x c)⟩) :
    Finally P ⟨m, fun c => p c >>= K c⟩ :=
  Finally.of_phase hdisj hM hidle h
    ⟨hruns, fun _ _ _ => rfl, fun a ha => (hframe a ha).symm⟩

end Phase

/-- The barrier. -/
theorem Finally.barrier {P : Team A V α n → Prop} {m : A → V} {k : Fin n → Prog A V α}
    (h : Finally P ⟨m, k⟩) : Finally P ⟨m, fun c => .barrier (k c)⟩ := by
  refine ⟨fun t' hstep => ?_, fun hstuck => ?_⟩
  · cases hstep with
    | load hc => cases hc
    | store hc => cases hc
    | barrier hk =>
        rw [show _ = k from funext fun c => (Prog.barrier.inj (hk c)).symm]
        exact h
  · exact absurd (Step.barrier fun _ => rfl) (hstuck _)

/-- The end. -/
theorem Finally.returned {P : Team A V α n → Prop} {m : A → V} {x : Fin n → α} (hn : 0 < n)
    (h : P ⟨m, fun c => .ret (x c)⟩) : Finally P ⟨m, fun c => .ret (x c)⟩ := by
  refine ⟨fun t' hstep => ?_, fun _ => h⟩
  cases hstep with
  | load hc => cases hc
  | store hc => cases hc
  | barrier hk => cases hk ⟨0, hn⟩

end Team

/-! ## Stages -/

/-- A number of stages from `s` on, with the barrier after each. -/
def Prog.stages (body : Nat → Prog A V Unit) : Nat → Nat → Prog A V Unit
  | 0, _ => .ret ()
  | k + 1, s => body s >>= fun _ => .barrier (Prog.stages body k (s + 1))

section StageList

variable (body : Nat → Prog A V Unit) (k s : Nat)

omit [DecidableEq A]

theorem Prog.stages_each :
    Prog.stages body k s =
      Prog.each (fun s => body s >>= fun _ => Prog.wait) (List.range' s k) := by
  induction k generalizing s with
  | zero => rfl
  | succ k ih =>
      rw [Prog.stages, ih, List.range'_succ, Prog.each]
      change Prog.bind _ _ = Prog.bind (Prog.bind _ _) _
      rw [Prog.bind_assoc]
      rfl

/-- The last stage apart. -/
theorem Prog.stages_succ : Prog.stages body (k + 1) s =
    (Prog.stages body k s).bind fun _ => body (s + k) >>= fun _ => Prog.wait := by
  rw [Prog.stages_each, Prog.stages_each, List.range'_1_concat, Prog.each_append,
    Prog.each_singleton]

variable {body s}

theorem Prog.stages_congr {body' : Nat → Prog A V Unit}
    (h : ∀ s' < s + k, body s' = body' s') : Prog.stages body k s = Prog.stages body' k s := by
  rw [Prog.stages_each, Prog.stages_each]
  refine Prog.each_congr fun s' hs' => ?_
  rw [h s' (List.mem_range'_1.mp hs').2]

end StageList

namespace Team

/-- The rule for stages: `M s` is what the memory holds before stage `s`. -/
theorem Finally.stages {P : Team A V Unit n → Prop} {body : Fin n → Nat → Prog A V Unit}
    {M : Nat → A → V} {k s : Nat} (hn : 0 < n)
    (hstage : ∀ s' < s + k, ∀ K : Fin n → Prog A V Unit, Finally P ⟨M (s' + 1), K⟩ →
      Finally P ⟨M s', fun c => body c s' >>= fun _ => .barrier (K c)⟩)
    (h : P ⟨M (s + k), fun _ => .ret ()⟩) :
    Finally P ⟨M s, fun c => Prog.stages (body c) k s⟩ := by
  induction k generalizing s with
  | zero => exact Finally.returned hn h
  | succ k ih =>
      refine hstage s (by omega) _ (ih (fun s' hs' => hstage s' (by omega)) ?_)
      rw [Nat.add_assoc, Nat.add_comm 1]
      exact h

end Team

/-! ## Shared work -/

/-- What a task does to the memory: it changes `W` and depends on `R`. -/
structure Local (R W : A → Prop) (f : (A → V) → A → V) : Prop where
  frame : ∀ m a, ¬W a → f m a = m a
  congr : ∀ m m', (∀ a, R a → m a = m' a) → ∀ a, W a → f m a = f m' a

theorem Local.of_runs {R W : A → Prop} {p : Prog A V α} {x : (A → V) → α} (hWR : ∀ a, W a → R a)
    (h : ∀ m, ∃ m', p.Runs R W m (x m) m') : Local R W p.after := by
  constructor
  · intro m a ha
    obtain ⟨m', hruns⟩ := h m
    rw [hruns.after]
    exact hruns.frame ha
  · intro m m' heq a ha
    obtain ⟨m₁, hruns⟩ := h m
    have heq' : ∀ a, R a ∨ W a → m a = m' a := fun a ha => heq a (ha.elim id (hWR a))
    rw [hruns.after]
    exact (hruns.congr heq').2 a (Or.inr ha)

section Tasks

variable {R W : ι → A → Prop} {f : ι → (A → V) → A → V} {is : List ι} {m : A → V} {a : A}

/-- No task changes what another one touches. -/
def Apart (R W : ι → A → Prop) (i j : ι) : Prop := ∀ a, W i a → ¬R j a ∧ ¬W j a

omit [DecidableEq A] in
/-- Of tasks that are apart each has its own effect, wherever it is in the list. -/
theorem foldl_local (hlocal : ∀ i ∈ is, Local (R i) (W i) (f i)) (hnodup : is.Nodup)
    (hapart : ∀ i ∈ is, ∀ j ∈ is, i ≠ j → Apart R W i j) :
    (∀ i ∈ is, W i a → is.foldl (fun m i => f i m) m a = f i m a) ∧
      ((∀ i ∈ is, ¬W i a) → is.foldl (fun m i => f i m) m a = m a) := by
  induction is generalizing m with
  | nil => exact ⟨fun i hi => absurd hi List.not_mem_nil, fun _ => rfl⟩
  | cons j is ih =>
      obtain ⟨hj, hnodup⟩ := List.nodup_cons.mp hnodup
      obtain ⟨hin, hout⟩ := ih (m := f j m) (fun i hi => hlocal i (List.mem_cons_of_mem j hi))
        hnodup fun i hi i' hi' =>
          hapart i (List.mem_cons_of_mem j hi) i' (List.mem_cons_of_mem j hi')
      have hj' := hlocal j List.mem_cons_self
      have hne : ∀ i ∈ is, j ≠ i := fun i hi heq => hj (heq ▸ hi)
      have hfirst : ∀ i ∈ is, Apart R W j i := fun i hi =>
        hapart j List.mem_cons_self i (List.mem_cons_of_mem j hi) (hne i hi)
      rw [List.foldl_cons]
      constructor
      · intro i hi hW
        rcases List.mem_cons.mp hi with rfl | hi
        · exact hout fun i' hi' => (hfirst i' hi' a hW).2
        · rw [hin i hi hW]
          exact (hlocal i (List.mem_cons_of_mem j hi)).congr _ _ (fun b hb => hj'.frame m b
            fun hWb => (hfirst i hi b hWb).1 hb) a hW
      · intro hno
        rw [hout fun i hi => hno i (List.mem_cons_of_mem j hi)]
        exact hj'.frame m a (hno j List.mem_cons_self)

end Tasks

namespace Team

variable {P : Team A V α n → Prop} {K : Fin n → β → Prog A V α} {p : Fin n → Prog A V β}
  {x : Fin n → β} {m : A → V} {R W : ι → A → Prop} {f : ι → (A → V) → A → V}
  {share : Nat → List ι} {all : List ι} {Q : A → Prop}

/-- Threads that share the tasks of a list, up to the place where they all wait, do what a
single one does that goes through the list. They may all load from `Q`, where no task stores. -/
theorem Finally.shared (hlocal : ∀ i ∈ all, Local (R i) (W i) (f i)) (hnodup : all.Nodup)
    (hapart : ∀ i ∈ all, ∀ j ∈ all, i ≠ j → Apart R W i j) (hQ : ∀ i ∈ all, ∀ a, Q a → ¬W i a)
    (hshare : ((List.range n).flatMap share).Perm all)
    (hruns : ∀ c, (p c).Runs (fun a => Q a ∨ ∃ i ∈ share c, R i a)
      (fun a => ∃ i ∈ share c, W i a) m (x c) ((share c).foldl (fun m i => f i m) m))
    (hidle : ∀ c, (K c (x c)).Idle)
    (h : Finally P ⟨all.foldl (fun m i => f i m) m, fun c => K c (x c)⟩) :
    Finally P ⟨m, fun c => p c >>= K c⟩ := by
  have hall := hshare.nodup_iff.mpr hnodup
  have hmem : ∀ {c : Fin n} {i}, i ∈ share c → i ∈ all := fun {c i} hi =>
    hshare.mem_iff.mp (List.mem_flatMap.mpr ⟨c, List.mem_range.mpr c.isLt, hi⟩)
  have hown : ∀ {c c' : Fin n} {i}, i ∈ share c → i ∈ share c' → c = c' := fun {c c' i} hi hi' => by
    rcases Nat.lt_trichotomy c c' with hlt | heq | hlt
    · exact (nodup_flatMap_range hall hlt c'.isLt hi hi').elim
    · exact Fin.ext heq
    · exact (nodup_flatMap_range hall hlt c.isLt hi' hi).elim
  have hshareNodup : ∀ c : Fin n, (share c).Nodup := fun c =>
    (List.nodup_flatMap.mp hall).1 c (List.mem_range.mpr c.isLt)
  have hmine := fun (c : Fin n) (a : A) => foldl_local (m := m) (a := a)
    (fun i hi => hlocal i (hmem hi)) (hshareNodup c) fun i hi j hj =>
      hapart i (hmem hi) j (hmem hj)
  have hours := fun (a : A) => foldl_local (m := m) (a := a) hlocal hnodup hapart
  refine Finally.phase hruns (fun c c' a hW hRW => ?_) (fun c a hW => ?_) (fun a hno => ?_) hidle h
  · obtain ⟨i, hi, hWi⟩ := hW
    by_contra hne
    have hij : ∀ {j}, j ∈ share c' → Apart R W i j := fun {j} hj =>
      hapart i (hmem hi) j (hmem hj) fun heq => hne (hown hi (heq ▸ hj))
    rcases hRW with (hQa | ⟨j, hj, hRj⟩) | ⟨j, hj, hWj⟩
    · exact hQ i (hmem hi) a hQa hWi
    · exact (hij hj a hWi).1 hRj
    · exact (hij hj a hWi).2 hWj
  · obtain ⟨i, hi, hWi⟩ := hW
    rw [(hours a).1 i (hmem hi) hWi, (hmine c a).1 i hi hWi]
  · refine (hours a).2 fun i hi hWi => ?_
    obtain ⟨c, hc, hi⟩ := List.mem_flatMap.mp (hshare.mem_iff.mpr hi)
    exact hno ⟨c, List.mem_range.mp hc⟩ ⟨i, hi, hWi⟩

end Team

end TeraNoC.Lib
