import TeraNoC.Lib.Team

/-!
# Scattering

Programs that load from one part of the memory and store to another one. A location that is
stored to has a key, and the value that it gets is that of its key: it depends on what was
loaded, and not on what has been stored already or by whom.
-/

namespace TeraNoC.Lib

variable {A V α β ι κ : Type} [DecidableEq A]

namespace Prog

variable {R : A → Prop} {loc : κ → A} {val : κ → V} {m : A → V} {own own' : κ → Prop}

/-- From any memory that agrees with `m` where it loads, the program gives the locations of its
keys their values, and stores to no others. -/
def Scatters (R : A → Prop) (loc : κ → A) (val : κ → V) (m : A → V) (own : κ → Prop)
    (p : Prog A V α) (x : α) : Prop :=
  ∀ m₀, (∀ a, R a → m₀ a = m a) → ∃ m₁,
    p.Runs R (fun a => ∃ k, own k ∧ loc k = a) m₀ x m₁ ∧ ∀ k, own k → m₁ (loc k) = val k

theorem Scatters.congr {p : Prog A V α} {x : α} (h : Scatters R loc val m own p x)
    (heq : ∀ k, own k ↔ own' k) : Scatters R loc val m own' p x := by
  rwa [← show own = own' from funext fun k => propext (heq k)]

theorem Scatters.ret (x : α) : Scatters R loc val m (fun _ => False) (.ret x) x :=
  fun m₀ _ => ⟨m₀, ⟨rfl, rfl⟩, fun _ hk => hk.elim⟩

theorem Scatters.get {a : A} (ha : R a) :
    Scatters R loc val m (fun _ => False) (Prog.get a) (m a) :=
  fun m₀ hm₀ => ⟨m₀, hm₀ a ha ▸ Runs.get ha m₀, fun _ hk => hk.elim⟩

theorem Scatters.set {a : A} {v : V} (k : κ) (ha : a = loc k) (hv : v = val k) :
    Scatters R loc val m (· = k) (Prog.set a v) () := by
  intro m₀ _
  refine ⟨_, Runs.set ⟨k, rfl, ha.symm⟩ v m₀, fun k' hk' => ?_⟩
  rw [hk', ha, Function.update_self, hv]

variable (hside : ∀ k, ¬R (loc k)) (hinj : loc.Injective)

include hside hinj

theorem Scatters.bind {p : Prog A V α} {f : α → Prog A V β} {x : α} {y : β}
    (hp : Scatters R loc val m own p x) (hf : Scatters R loc val m own' (f x) y) :
    Scatters R loc val m (fun k => own k ∨ own' k) (p >>= f) y := by
  intro m₀ hm₀
  obtain ⟨m₁, hruns₁, hval₁⟩ := hp m₀ hm₀
  have hm₁ : ∀ a, R a → m₁ a = m a := fun a ha =>
    (hruns₁.frame fun ⟨k, _, hk⟩ => hside k (hk ▸ ha)).trans (hm₀ a ha)
  obtain ⟨m₂, hruns₂, hval₂⟩ := hf m₁ hm₁
  refine ⟨m₂, (hruns₁.mono (fun _ => id) fun a ⟨k, hk, ha⟩ => ⟨k, Or.inl hk, ha⟩).bind
    (hruns₂.mono (fun _ => id) fun a ⟨k, hk, ha⟩ => ⟨k, Or.inr hk, ha⟩), fun k hk => ?_⟩
  by_cases hk' : own' k
  · exact hval₂ k hk'
  · rw [hruns₂.frame fun ⟨k', hown, heq⟩ => hk' (hinj heq ▸ hown)]
    exact hval₁ k (hk.resolve_right hk')

/-- A load, and what is done with the value. -/
theorem Scatters.get_bind {a : A} {f : V → Prog A V β} {y : β} (ha : R a)
    (hf : Scatters R loc val m own (f (m a)) y) :
    Scatters R loc val m own (Prog.get a >>= f) y :=
  (Scatters.bind hside hinj (Scatters.get ha) hf).congr fun _ => by rw [false_or]

theorem Scatters.each {task : ι → Prog A V Unit} {own : ι → κ → Prop} {is : List ι}
    (h : ∀ i ∈ is, Scatters R loc val m (own i) (task i) ()) :
    Scatters R loc val m (fun k => ∃ i ∈ is, own i k) (Prog.each task is) () := by
  induction is with
  | nil => exact (Scatters.ret ()).congr fun k => ⟨False.elim, fun ⟨_, hi, _⟩ => nomatch hi⟩
  | cons i is ih =>
      refine (Scatters.bind hside hinj (h i List.mem_cons_self)
        (ih fun j hj => h j (List.mem_cons_of_mem i hj))).congr fun k => ?_
      rw [List.exists_mem_cons_iff]

end Prog

namespace Team

variable {n : Nat} {P : Team A V α n → Prop} {K : Fin n → Prog A V α} {p : Fin n → Prog A V Unit}
  {R : A → Prop} {loc : κ → A} {val : κ → V} {m : A → V} {own : Fin n → κ → Prop}

/-- Threads with keys of their own give each of these its value, up to the barrier. -/
theorem Finally.scatter (hside : ∀ k, ¬R (loc k)) (hinj : loc.Injective)
    (hp : ∀ c, (p c).Scatters R loc val m (own c) ())
    (hunique : ∀ c c' k, own c k → own c' k → c = c')
    (h : ∀ m', (∀ c k, own c k → m' (loc k) = val k) →
      (∀ a, (∀ c k, own c k → loc k ≠ a) → m' a = m a) → Finally P ⟨m', K⟩) :
    Finally P ⟨m, fun c => p c >>= fun _ => .barrier (K c)⟩ := by
  have hruns := fun c => hp c m fun _ _ => rfl
  choose left hleft hval using hruns
  let owned := { k // ∃ c, own c k }
  have hinj' : Function.Injective fun k : owned => loc k := fun k k' heq => Subtype.ext (hinj heq)
  have hM : ∀ c k, own c k →
      Function.extend (fun k : owned => loc k) (fun k => val k) m (loc k) = val k :=
    fun c k hk => hinj'.extend_apply (fun k : owned => val k) m ⟨k, c, hk⟩
  have hframe : ∀ a, (∀ c k, own c k → loc k ≠ a) →
      Function.extend (fun k : owned => loc k) (fun k => val k) m a = m a := fun a ha =>
    Function.extend_apply' _ m a fun ⟨⟨k, c, hc⟩, hk⟩ => ha c k hc hk
  refine Finally.phase (K := fun c _ => .barrier (K c)) hleft ?_ ?_ ?_ (fun _ => trivial)
    (Finally.barrier (h _ hM hframe))
  · rintro c c' a ⟨k, hk, rfl⟩ (hR | ⟨k', hk', heq⟩)
    · exact (hside k hR).elim
    · exact hunique c c' k hk (hinj heq ▸ hk')
  · rintro c a ⟨k, hk, rfl⟩
    rw [hM c k hk, hval c k hk]
  · exact fun a ha => hframe a fun c k hk heq => ha c ⟨k, hk, heq⟩

/-- The rule for stages, with what holds of the memory before each. -/
theorem Finally.stages_invariant {P : Team A V Unit n → Prop} {body : Fin n → Nat → Prog A V Unit}
    {I : Nat → (A → V) → Prop} {k s : Nat} (hn : 0 < n)
    (hstage : ∀ s' < s + k, ∀ m, I s' m → ∀ K : Fin n → Prog A V Unit,
      (∀ m', I (s' + 1) m' → Finally P ⟨m', K⟩) →
      Finally P ⟨m, fun c => body c s' >>= fun _ => .barrier (K c)⟩)
    (h : ∀ m', I (s + k) m' → P ⟨m', fun _ => .ret ()⟩) (hm : I s m) :
    Finally P ⟨m, fun c => Prog.stages (body c) k s⟩ := by
  induction k generalizing s m with
  | zero => exact Finally.returned hn (h m hm)
  | succ k ih =>
      refine hstage s (by omega) m hm _ fun m' hm' =>
        ih (fun s' hs' => hstage s' (by omega)) ?_ hm'
      rw [Nat.add_assoc, Nat.add_comm 1]
      exact h

end Team

end TeraNoC.Lib
