import Mathlib.Logic.Function.Basic
import TeraNoC.Lib.While

/-!
# Programs over a memory

A program returns, loads, stores, waits at a barrier, or spins: it never gets any further.
Alone it runs until it does one of the others. `Runs` is what a program that returns does,
with the locations that it may load from and store to.
-/

namespace TeraNoC.Lib

inductive Prog (A V : Type) (α : Type) where
  | ret (x : α)
  | load (a : A) (k : V → Prog A V α)
  | store (a : A) (v : V) (k : Prog A V α)
  | barrier (k : Prog A V α)
  | spin

namespace Prog

variable {A V α β γ τ ι κ : Type}

instance : Inhabited (Prog A V α) := ⟨spin⟩

def bind : Prog A V α → (α → Prog A V β) → Prog A V β
  | ret x, f => f x
  | load a k, f => load a fun v => (k v).bind f
  | store a v k, f => store a v (k.bind f)
  | barrier k, f => barrier (k.bind f)
  | spin, _ => spin

instance : Monad (Prog A V) where
  pure := ret
  bind := bind

theorem bind_ret (p : Prog A V α) : p.bind ret = p := by
  induction p with
  | ret x => rfl
  | load a k ih => rw [bind, funext ih]
  | store a v k ih => rw [bind, ih]
  | barrier k ih => rw [bind, ih]
  | spin => rfl

theorem bind_assoc (p : Prog A V α) (f : α → Prog A V β) (g : β → Prog A V γ) :
    (p.bind f).bind g = p.bind fun x => (f x).bind g := by
  induction p with
  | ret x => rfl
  | load a k ih => rw [bind, bind, bind, funext ih]
  | store a v k ih => rw [bind, bind, bind, ih]
  | barrier k ih => rw [bind, bind, bind, ih]
  | spin => rfl

instance : LawfulMonad (Prog A V) :=
  LawfulMonad.mk' _ bind_ret (fun _ _ => rfl) bind_assoc

/-- The value of a location. -/
def get (a : A) : Prog A V V := load a ret

/-- An assignment to a location. -/
def set (a : A) (v : V) : Prog A V Unit := store a v (ret ())

def wait : Prog A V Unit := barrier (ret ())

/-- A program for each member of a list. -/
def each (f : ι → Prog A V Unit) : List ι → Prog A V Unit
  | [] => ret ()
  | i :: is => (f i).bind fun _ => each f is

theorem each_map (f : ι → Prog A V Unit) (g : κ → ι) (is : List κ) :
    each f (is.map g) = each (fun i => f (g i)) is := by
  induction is with
  | nil => rfl
  | cons i is ih => rw [List.map_cons, each, each, ih]

theorem each_congr {f g : ι → Prog A V Unit} {is : List ι} (h : ∀ i ∈ is, f i = g i) :
    each f is = each g is := by
  induction is with
  | nil => rfl
  | cons i is ih =>
      rw [each, each, h i List.mem_cons_self, ih fun j hj => h j (List.mem_cons_of_mem i hj)]

theorem each_append (f : ι → Prog A V Unit) (is js : List ι) :
    each f (is ++ js) = (each f is).bind fun _ => each f js := by
  induction is with
  | nil => rfl
  | cons i is ih =>
      rw [List.cons_append, each, each, bind_assoc, ih]

theorem each_singleton (f : ι → Prog A V Unit) (i : ι) : each f [i] = f i := bind_ret (f i)

/-- `while (cond) body`, for a number of turns. -/
def whileLoop (cond : τ → Bool) (body : τ → Prog A V τ) (fuel : Nat) (s : τ) : Prog A V τ :=
  if cond s then
    match fuel with
    | 0 => spin
    | fuel + 1 => (body s).bind (whileLoop cond body fuel)
  else ret s

/-- `for (i = start; cond; i = next) body`, for a number of turns. The counter is returned
beside the rest of the state. -/
def forLoop (cond : Nat → Bool) (next : Nat → Nat) (body : Nat → τ → Prog A V τ)
    (fuel start : Nat) (s : τ) : Prog A V (Nat × τ) :=
  whileLoop (fun s => cond s.1) (fun s => (body s.1 s.2).bind fun t => ret (next s.1, t)) fuel
    (start, s)

section For

variable {cond : Nat → Bool} {next : Nat → Nat} {body : Nat → τ → Prog A V τ} {fuel i : Nat} {s : τ}

theorem forLoop_done (h : cond i = false) : forLoop cond next body fuel i s = ret (i, s) := by
  rw [forLoop, whileLoop.eq_def, h, if_neg Bool.false_ne_true]

theorem forLoop_turn (h : cond i = true) : forLoop cond next body (fuel + 1) i s =
    (body i s).bind fun t => forLoop cond next body fuel (next i) t := by
  rw [forLoop, whileLoop, if_pos h, bind_assoc]
  rfl

/-- A loop whose counter takes the values `i 0`, …, `i (n - 1)`, with the state `s k` before turn
`k`, does the task of each turn. -/
theorem forLoop_each {task : Nat → Prog A V Unit} {n : Nat} (i : Nat → Nat) (s : Nat → τ)
    (hcond : ∀ k < n, cond (i k) = true) (hend : cond (i n) = false)
    (hnext : ∀ k < n, next (i k) = i (k + 1))
    (hbody : ∀ k < n, body (i k) (s k) = (task k).bind fun _ => ret (s (k + 1)))
    (hfuel : n ≤ fuel) :
    forLoop cond next body fuel (i 0) (s 0) =
      (each task (List.range n)).bind fun _ => ret (i n, s n) := by
  induction n generalizing i s task fuel with
  | zero => exact forLoop_done hend
  | succ n ih =>
      obtain ⟨fuel, rfl⟩ : ∃ f, fuel = f + 1 := ⟨fuel - 1, by omega⟩
      have hrest := @ih fuel (fun k => task (k + 1)) (fun k => i (k + 1)) (fun k => s (k + 1))
        (fun k hk => hcond (k + 1) (by omega)) hend (fun k hk => hnext (k + 1) (by omega))
        (fun k hk => hbody (k + 1) (by omega)) (Nat.le_of_succ_le_succ hfuel)
      rw [forLoop_turn (hcond 0 (Nat.succ_pos n)), hnext 0 (Nat.succ_pos n),
        hbody 0 (Nat.succ_pos n), bind_assoc, List.range_succ_eq_map, each, each_map, bind_assoc]
      exact congrArg _ (funext fun _ => hrest)

end For

section Counted

variable {cond : Nat → Bool} {next : Nat → Nat} {body : Nat → Unit → Prog A V Unit} {fuel n : Nat}

/-- A loop whose counter takes the values `i 0`, …, `i (n - 1)` does its body for each of them. -/
theorem forLoop_eq (i : Nat → Nat) (hcond : ∀ k < n, cond (i k) = true)
    (hend : cond (i n) = false) (hnext : ∀ k < n, next (i k) = i (k + 1)) (hfuel : n ≤ fuel) :
    forLoop cond next body fuel (i 0) () =
      (each (fun j => body j ()) ((List.range n).map i)).bind fun _ => ret (i n, ()) := by
  rw [each_map]
  exact forLoop_each i (fun _ => ()) hcond hend hnext (fun k _ => (bind_ret _).symm) hfuel

/-- The same for a counter below `M` that grows by `d` and does not wrap. -/
theorem forLoop_add {a b d M : Nat} (hlt : ∀ k < n, a + k * d < b) (hge : b ≤ a + n * d)
    (hwrap : a + n * d < M) (hfuel : n ≤ fuel) :
    forLoop (fun i => i < b) (fun i => (i + d) % M) body fuel a () =
      (each (fun j => body j ()) ((List.range n).map fun k => a + k * d)).bind fun _ =>
        ret (a + n * d, ()) := by
  have hnext : ∀ k < n, (a + k * d + d) % M = a + (k + 1) * d := by
    intro k hk
    have hmul : (k + 1) * d ≤ n * d := Nat.mul_le_mul_right d hk
    rw [Nat.succ_mul] at hmul ⊢
    rw [Nat.mod_eq_of_lt (by omega), Nat.add_assoc]
  have hloop : forLoop (fun i => decide (i < b)) (fun i => (i + d) % M) body fuel (a + 0 * d) () =
      _ :=
    forLoop_eq (fun k => a + k * d) (fun k hk => decide_eq_true (hlt k hk))
      (decide_eq_false (Nat.not_lt.mpr hge)) hnext hfuel
  rw [Nat.zero_mul, Nat.add_zero] at hloop
  exact hloop

end Counted

/-! ## A program alone -/

section Run

variable [DecidableEq A]

/-- Up to the next barrier or the end. -/
def run : Prog A V α → (A → V) → Prog A V α × (A → V)
  | ret x, m => (ret x, m)
  | load a k, m => (k (m a)).run m
  | store a v k, m => k.run (Function.update m a v)
  | barrier k, m => (barrier k, m)
  | spin, m => (spin, m)

/-- The accesses up to the next barrier or the end. -/
def accesses : Prog A V α → (A → V) → Nat
  | load a k, m => (k (m a)).accesses m + 1
  | store a v k, m => k.accesses (Function.update m a v) + 1
  | _, _ => 0

/-- The program loads from `R` and stores to `W` until it returns `x` and leaves `m'`. -/
def Runs (R W : A → Prop) : Prog A V α → (A → V) → α → (A → V) → Prop
  | ret y, m, x, m' => y = x ∧ m = m'
  | load a k, m, x, m' => R a ∧ (k (m a)).Runs R W m x m'
  | store a v k, m, x, m' => W a ∧ k.Runs R W (Function.update m a v) x m'
  | barrier _, _, _, _ => False
  | spin, _, _, _ => False

variable {R W : A → Prop} {p : Prog A V α} {f : α → Prog A V β} {m m' m'' : A → V} {x : α} {y : β}

theorem Runs.ret (x : α) (m : A → V) : (pure x : Prog A V α).Runs R W m x m := ⟨rfl, rfl⟩

theorem Runs.get {a : A} (ha : R a) (m : A → V) : (get a : Prog A V V).Runs R W m (m a) m :=
  ⟨ha, rfl, rfl⟩

theorem Runs.set {a : A} (ha : W a) (v : V) (m : A → V) :
    (set a v : Prog A V Unit).Runs R W m () (Function.update m a v) := ⟨ha, rfl, rfl⟩

theorem Runs.bind (hp : p.Runs R W m x m') (hf : (f x).Runs R W m' y m'') :
    (p >>= f).Runs R W m y m'' := by
  induction p generalizing m with
  | ret x' =>
      obtain ⟨rfl, rfl⟩ := hp
      exact hf
  | load a k ih => exact ⟨hp.1, ih _ hp.2⟩
  | store a v k ih => exact ⟨hp.1, ih hp.2⟩
  | barrier k => exact hp.elim
  | spin => exact hp.elim

theorem Runs.mono {R' W' : A → Prop} (hR : ∀ a, R a → R' a) (hW : ∀ a, W a → W' a)
    (hp : p.Runs R W m x m') : p.Runs R' W' m x m' := by
  induction p generalizing m with
  | ret x' => exact hp
  | load a k ih => exact ⟨hR a hp.1, ih _ hp.2⟩
  | store a v k ih => exact ⟨hW a hp.1, ih hp.2⟩
  | barrier k => exact hp.elim
  | spin => exact hp.elim

theorem Runs.run (hp : p.Runs R W m x m') : p.run m = (Prog.ret x, m') := by
  induction p generalizing m with
  | ret x' =>
      obtain ⟨rfl, rfl⟩ := hp
      rfl
  | load a k ih => exact ih _ hp.2
  | store a v k ih => exact ih hp.2
  | barrier k => exact hp.elim
  | spin => exact hp.elim

/-- What is not stored to stays as it is. -/
theorem Runs.frame (hp : p.Runs R W m x m') {a : A} (ha : ¬ W a) : m' a = m a := by
  induction p generalizing m with
  | ret x' => rw [hp.2]
  | load b k ih => exact ih _ hp.2
  | store b v k ih =>
      rw [ih hp.2]
      refine Function.update_of_ne ?_ v m
      rintro rfl
      exact ha hp.1
  | barrier k => exact hp.elim
  | spin => exact hp.elim

/-! ## Loops -/

/-- Programs one after the other. -/
theorem Runs.each {task : ι → Prog A V Unit} {effect : ι → (A → V) → A → V} {is : List ι}
    (h : ∀ i ∈ is, ∀ m, (task i).Runs R W m () (effect i m)) (m : A → V) :
    (Prog.each task is).Runs R W m () (is.foldl (fun m i => effect i m) m) := by
  induction is generalizing m with
  | nil => exact Runs.ret () m
  | cons i is ih =>
      exact (h i List.mem_cons_self m).bind (ih (fun j hj => h j (List.mem_cons_of_mem i hj)) _)

section Loops

variable {cond : Nat → Bool} {next : Nat → Nat} {body : Nat → τ → Prog A V τ} {fuel n : Nat}
  {s : τ}

/-- The rule of total correctness: every turn keeps the invariant and lowers the variant. -/
theorem Runs.whileLoop {cond : τ → Bool} {body : τ → Prog A V τ} (I : τ → (A → V) → Prop)
    (measure : τ → Nat)
    (hstep : ∀ s m, I s m → cond s = true →
      ∃ s' m', (body s).Runs R W m s' m' ∧ I s' m' ∧ measure s' < measure s)
    (h : I s m) (hfuel : measure s ≤ fuel) :
    ∃ s' m', (whileLoop cond body fuel s).Runs R W m s' m' ∧ I s' m' ∧ cond s' = false := by
  induction fuel generalizing s m with
  | zero =>
      cases hc : cond s with
      | false =>
          rw [Prog.whileLoop, hc, if_neg Bool.false_ne_true]
          exact ⟨s, m, Runs.ret s m, h, hc⟩
      | true =>
          obtain ⟨s', m', -, -, hlt⟩ := hstep s m h hc
          omega
  | succ fuel ih =>
      cases hc : cond s with
      | false =>
          rw [Prog.whileLoop, hc, if_neg Bool.false_ne_true]
          exact ⟨s, m, Runs.ret s m, h, hc⟩
      | true =>
          obtain ⟨s', m', hbody, hI, hlt⟩ := hstep s m h hc
          obtain ⟨s'', m'', hrest, hend⟩ := ih hI (by omega)
          rw [Prog.whileLoop, hc, if_pos rfl]
          exact ⟨s'', m'', hbody.bind hrest, hend⟩

/-- A counter that takes the values `i 0`, …, `i (n - 1)`, and ends the loop with `i n`. -/
theorem Runs.forLoop (i : Nat → Nat) (I : Nat → τ → (A → V) → Prop)
    (hcond : ∀ k < n, cond (i k) = true) (hend : cond (i n) = false)
    (hnext : ∀ k < n, next (i k) = i (k + 1))
    (hstep : ∀ k s m, k < n → I k s m → ∃ s' m', (body (i k) s).Runs R W m s' m' ∧ I (k + 1) s' m')
    (h : I 0 s m) (hfuel : n ≤ fuel) :
    ∃ s' m', (Prog.forLoop cond next body fuel (i 0) s).Runs R W m (i n, s') m' ∧ I n s' m' := by
  induction n generalizing i I fuel s m with
  | zero =>
      refine ⟨s, m, ?_, h⟩
      rw [Prog.forLoop, Prog.whileLoop.eq_def, hend, if_neg Bool.false_ne_true]
      exact Runs.ret _ m
  | succ n ih =>
      obtain ⟨fuel, rfl⟩ : ∃ f, fuel = f + 1 := ⟨fuel - 1, by omega⟩
      obtain ⟨s', m', hbody, hI⟩ := hstep 0 s m (Nat.succ_pos n) h
      obtain ⟨s'', m'', hrest, hend⟩ := ih (fun k => i (k + 1)) (fun k => I (k + 1))
        (fun k hk => hcond (k + 1) (by omega)) hend (fun k hk => hnext (k + 1) (by omega))
        (fun k s m hk => hstep (k + 1) s m (by omega)) hI (Nat.le_of_succ_le_succ hfuel)
      refine ⟨s'', m'', ?_, hend⟩
      rw [Prog.forLoop, Prog.whileLoop, if_pos (hcond 0 (Nat.succ_pos n))]
      refine (hbody.bind (Runs.ret (next (i 0), s') m')).bind ?_
      rw [hnext 0 (Nat.succ_pos n)]
      exact hrest

/-- A counter below `M` that grows by `d` up to a bound, and does not wrap on the way. -/
theorem Runs.forLoop_add {a b d M : Nat} (I : Nat → τ → (A → V) → Prop)
    (hlt : ∀ k < n, a + k * d < b) (hge : b ≤ a + n * d) (hwrap : a + n * d < M)
    (hstep : ∀ k s m, k < n → I k s m →
      ∃ s' m', (body (a + k * d) s).Runs R W m s' m' ∧ I (k + 1) s' m')
    (h : I 0 s m) (hfuel : n ≤ fuel) :
    ∃ s' m', (Prog.forLoop (fun i => i < b) (fun i => (i + d) % M) body fuel a s).Runs R W m
      (a + n * d, s') m' ∧ I n s' m' := by
  have hnext : ∀ k < n, (a + k * d + d) % M = a + (k + 1) * d := by
    intro k hk
    have hmul : (k + 1) * d ≤ n * d := Nat.mul_le_mul_right d hk
    rw [Nat.succ_mul] at hmul ⊢
    rw [Nat.mod_eq_of_lt (by omega), Nat.add_assoc]
  have hloop : ∃ s' m', (Prog.forLoop (fun i => decide (i < b)) (fun i => (i + d) % M) body fuel
      (a + 0 * d) s).Runs R W m (a + n * d, s') m' ∧ I n s' m' :=
    Runs.forLoop (fun k => a + k * d) I (fun k hk => decide_eq_true (hlt k hk))
      (decide_eq_false (Nat.not_lt.mpr hge)) hnext hstep h hfuel
  rw [Nat.zero_mul, Nat.add_zero] at hloop
  exact hloop

/-- The same for a loop that counts by one. -/
theorem Runs.forLoop_range {a b M : Nat} (I : Nat → τ → (A → V) → Prop) (hab : a ≤ b)
    (hwrap : b < M)
    (hstep : ∀ k s m, a ≤ k → k < b → I k s m →
      ∃ s' m', (body k s).Runs R W m s' m' ∧ I (k + 1) s' m')
    (h : I a s m) (hfuel : b - a ≤ fuel) :
    ∃ s' m', (Prog.forLoop (fun i => i < b) (fun i => (i + 1) % M) body fuel a s).Runs R W m
      (b, s') m' ∧ I b s' m' := by
  have hend : a + (b - a) * 1 = b := by omega
  have hloop : ∃ s' m', (Prog.forLoop (fun i => decide (i < b)) (fun i => (i + 1) % M) body fuel
      a s).Runs R W m (a + (b - a) * 1, s') m' ∧ I (a + (b - a)) s' m' := by
    refine Runs.forLoop_add (fun k => I (a + k)) (fun k hk => by omega) (by omega) (by omega)
      (fun k s m hk hI => ?_) h hfuel
    rw [Nat.mul_one]
    exact hstep (a + k) s m (by omega) (by omega) hI
  rw [hend, Nat.add_sub_cancel' hab] at hloop
  exact hloop

end Loops

/-- With enough turns the program alone returns, and what it leaves satisfies `P`. -/
def Leaves (p : Nat → Prog A V α) (m : A → V) (P : (A → V) → Prop) : Prop :=
  ∃ bound, ∀ fuel, bound ≤ fuel → ∃ x m', (p fuel).run m = (Prog.ret x, m') ∧ P m'

theorem leaves_iff {p : Nat → Prog A V α} {P : (A → V) → Prop} {c : Prop} (bound : Nat)
    (h : ∀ fuel, bound ≤ fuel → ∃ x m', (p fuel).run m = (Prog.ret x, m') ∧ (P m' ↔ c)) :
    Leaves p m P ↔ c := by
  constructor
  · rintro ⟨bound', hruns⟩
    obtain ⟨x, m', hrun, hP⟩ := hruns (max bound bound') (Nat.le_max_right _ _)
    obtain ⟨x', m'', hrun', hiff⟩ := h (max bound bound') (Nat.le_max_left _ _)
    rw [hrun'] at hrun
    cases hrun
    exact hiff.mp hP
  · intro hc
    refine ⟨bound, fun fuel hfuel => ?_⟩
    obtain ⟨x, m', hrun, hiff⟩ := h fuel hfuel
    exact ⟨x, m', hrun, hiff.mpr hc⟩

end Run

end Prog

end TeraNoC.Lib
