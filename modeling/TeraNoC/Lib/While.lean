import Mathlib.Data.List.Nodup
import Mathlib.Data.List.Range
import Mathlib.Data.Nat.ModEq
import Mathlib.Order.Basic

/-!
# Loops

A `while` loop on a state of any type, with a bound on its turns: it has a result if it
ends within them. The rules are those of total and partial correctness, with a variant
and an invariant, and one for a loop that never ends. A `for` loop whose counter takes a
known sequence of values does its body for each of them.
-/

namespace TeraNoC.Lib

variable {σ τ : Type}

def whileLoop (cond : σ → Bool) (body : σ → σ) (fuel : Nat) (s : σ) : Option σ :=
  if cond s then
    match fuel with
    | 0 => none
    | fuel + 1 => whileLoop cond body fuel (body s)
  else some s

section While

variable {cond : σ → Bool} {body : σ → σ} {fuel : Nat} {s s' : σ}

theorem whileLoop_done (h : cond s = false) : whileLoop cond body fuel s = some s := by
  rw [whileLoop.eq_def, h, if_neg Bool.false_ne_true]

theorem whileLoop_turn (h : cond s = true) :
    whileLoop cond body (fuel + 1) s = whileLoop cond body fuel (body s) := by
  rw [whileLoop, if_pos h]

/-- What a loop has as a result satisfies its invariant, and ends it. -/
theorem whileLoop_partial (I : σ → Prop) (hstep : ∀ s, I s → cond s = true → I (body s))
    (hs : I s) (h : whileLoop cond body fuel s = some s') : I s' ∧ cond s' = false := by
  induction fuel generalizing s with
  | zero =>
      cases hc : cond s with
      | false =>
          rw [whileLoop_done hc] at h
          cases h
          exact ⟨hs, hc⟩
      | true =>
          rw [whileLoop, if_pos hc] at h
          cases h
  | succ fuel ih =>
      cases hc : cond s with
      | false =>
          rw [whileLoop_done hc] at h
          cases h
          exact ⟨hs, hc⟩
      | true =>
          rw [whileLoop_turn hc] at h
          exact ih (hstep s hs hc) h

/-- A loop whose invariant keeps it going has no result. -/
theorem whileLoop_diverges (I : σ → Prop) (hstep : ∀ s, I s → cond s = true ∧ I (body s))
    (hs : I s) : whileLoop cond body fuel s = none := by
  induction fuel generalizing s with
  | zero => rw [whileLoop, if_pos (hstep s hs).1]
  | succ fuel ih =>
      rw [whileLoop_turn (hstep s hs).1]
      exact ih (hstep s hs).2

/-- The rule of total correctness: every turn keeps the invariant and lowers the variant. -/
theorem whileLoop_ends (I : σ → Prop) (measure : σ → Nat)
    (hstep : ∀ s, I s → cond s = true → I (body s) ∧ measure (body s) < measure s) (hs : I s) :
    ∃ s', ∀ fuel, measure s ≤ fuel → whileLoop cond body fuel s = some s' := by
  induction hn : measure s using Nat.strong_induction_on generalizing s with
  | _ n ih =>
      subst hn
      cases hc : cond s with
      | false => exact ⟨s, fun fuel _ => whileLoop_done hc⟩
      | true =>
          obtain ⟨hI, hlt⟩ := hstep s hs hc
          obtain ⟨s', hs'⟩ := ih _ hlt hI rfl
          refine ⟨s', fun fuel hfuel => ?_⟩
          obtain ⟨fuel, rfl⟩ : ∃ f, fuel = f + 1 := ⟨fuel - 1, by omega⟩
          rw [whileLoop_turn hc]
          exact hs' fuel (by omega)

/-- A loop that goes through known states. -/
theorem whileLoop_through {n : Nat} (states : Nat → σ) (hcond : ∀ k < n, cond (states k) = true)
    (hend : cond (states n) = false) (hnext : ∀ k < n, body (states k) = states (k + 1))
    (hfuel : n ≤ fuel) : whileLoop cond body fuel (states 0) = some (states n) := by
  induction n generalizing states fuel with
  | zero => exact whileLoop_done hend
  | succ n ih =>
      obtain ⟨fuel, rfl⟩ : ∃ f, fuel = f + 1 := ⟨fuel - 1, by omega⟩
      rw [whileLoop_turn (hcond 0 (Nat.succ_pos n)), hnext 0 (Nat.succ_pos n)]
      exact ih (fun k => states (k + 1)) (fun k hk => hcond (k + 1) (by omega)) hend
        (fun k hk => hnext (k + 1) (by omega)) (Nat.le_of_succ_le_succ hfuel)

end While

/-- A computation that has a result if it is given enough turns. -/
def Ends (f : Nat → Option σ) (s : σ) : Prop := ∃ bound, ∀ fuel, bound ≤ fuel → f fuel = some s

theorem Ends.unique {f : Nat → Option σ} {s s' : σ} (h : Ends f s) (h' : Ends f s') : s = s' := by
  obtain ⟨b, hb⟩ := h
  obtain ⟨b', hb'⟩ := h'
  have heq := (hb (max b b') (Nat.le_max_left b b')).symm.trans (hb' _ (Nat.le_max_right b b'))
  exact Option.some.inj heq

theorem Ends.bind {f : Nat → Option σ} {g : σ → Nat → Option τ} {s : σ} {t : τ} (h : Ends f s)
    (h' : Ends (g s) t) : Ends (fun fuel => f fuel >>= fun s => g s fuel) t := by
  obtain ⟨b, hb⟩ := h
  obtain ⟨b', hb'⟩ := h'
  refine ⟨max b b', fun fuel hfuel => ?_⟩
  have hf := hb fuel ((Nat.le_max_left b b').trans hfuel)
  change (f fuel >>= fun s => g s fuel) = some t
  rw [hf]
  exact hb' fuel ((Nat.le_max_right b b').trans hfuel)

/-- `for (i = start; cond; i = next) body`. -/
def forLoop (cond : Nat → Bool) (next : Nat → Nat) (body : Nat → τ → τ) (fuel start : Nat)
    (s : τ) : Option τ :=
  (whileLoop (fun s => cond s.1) (fun s => (next s.1, body s.1 s.2)) fuel (start, s)).map (·.2)

section For

variable {cond : Nat → Bool} {next : Nat → Nat} {body : Nat → τ → τ} {fuel n : Nat} {s : τ}

theorem forLoop_done {i : Nat} (h : cond i = false) :
    forLoop cond next body fuel i s = some s := by
  rw [forLoop, whileLoop_done (s := (i, s)) h]
  rfl

theorem forLoop_turn {i : Nat} (h : cond i = true) :
    forLoop cond next body (fuel + 1) i s = forLoop cond next body fuel (next i) (body i s) := by
  rw [forLoop, whileLoop_turn (s := (i, s)) h]
  rfl

/-- The counter takes the values `i 0`, …, `i (n - 1)`, and ends the loop with `i n`. -/
theorem forLoop_eq (i : Nat → Nat) (hcond : ∀ k < n, cond (i k) = true)
    (hend : cond (i n) = false) (hnext : ∀ k < n, next (i k) = i (k + 1)) (hfuel : n ≤ fuel) :
    forLoop cond next body fuel (i 0) s =
      some ((List.range n).foldl (fun s k => body (i k) s) s) := by
  induction n generalizing i fuel s with
  | zero => exact forLoop_done hend
  | succ n ih =>
      obtain ⟨fuel, rfl⟩ : ∃ f, fuel = f + 1 := ⟨fuel - 1, by omega⟩
      have hrest : forLoop cond next body fuel (i 1) (body (i 0) s) =
          some ((List.range n).foldl (fun s k => body (i (k + 1)) s) (body (i 0) s)) :=
        ih (fun k => i (k + 1)) (fun k hk => hcond (k + 1) (by omega)) hend
          (fun k hk => hnext (k + 1) (by omega)) (by omega)
      rw [forLoop_turn (hcond 0 (by omega)), hnext 0 (by omega), hrest,
        List.range_succ_eq_map, List.foldl_cons, List.foldl_map]

/-- A counter below `m` that grows by `d` up to a bound, and does not wrap on the way. -/
theorem forLoop_add {a b d m : Nat} (hlt : ∀ k < n, a + k * d < b) (hge : b ≤ a + n * d)
    (hwrap : a + n * d < m) (hfuel : n ≤ fuel) :
    forLoop (fun i => i < b) (fun i => (i + d) % m) body fuel a s =
      some ((List.range n).foldl (fun s k => body (a + k * d) s) s) := by
  have hnext : ∀ k < n, (a + k * d + d) % m = a + (k + 1) * d := by
    intro k hk
    have hmul : (k + 1) * d ≤ n * d := Nat.mul_le_mul_right d hk
    rw [Nat.succ_mul] at hmul ⊢
    rw [Nat.mod_eq_of_lt (by omega), Nat.add_assoc]
  have hloop : forLoop (fun i => decide (i < b)) (fun i => (i + d) % m) body fuel (a + 0 * d) s =
      some ((List.range n).foldl (fun s k => body (a + k * d) s) s) :=
    forLoop_eq (fun k => a + k * d) (fun k hk => decide_eq_true (hlt k hk))
      (decide_eq_false (Nat.not_lt.mpr hge)) hnext hfuel
  rw [Nat.zero_mul, Nat.add_zero] at hloop
  exact hloop

/-- What a loop has as a result is what its body makes of the values that its counter took. -/
theorem forLoop_some {t : τ} (i : Nat → Nat) (hnext : ∀ k, next (i k) = i (k + 1))
    (h : forLoop cond next body fuel (i 0) s = some t) :
    ∃ n, (∀ k < n, cond (i k) = true) ∧ cond (i n) = false ∧
      t = (List.range n).foldl (fun s k => body (i k) s) s := by
  induction fuel generalizing i s with
  | zero =>
      cases hc : cond (i 0) with
      | false =>
          rw [forLoop_done hc] at h
          exact ⟨0, fun k hk => absurd hk (Nat.not_lt_zero k), hc, (Option.some.inj h).symm⟩
      | true =>
          rw [forLoop, whileLoop, if_pos hc] at h
          cases h
  | succ fuel ih =>
      cases hc : cond (i 0) with
      | false =>
          rw [forLoop_done hc] at h
          exact ⟨0, fun k hk => absurd hk (Nat.not_lt_zero k), hc, (Option.some.inj h).symm⟩
      | true =>
          rw [forLoop_turn hc, hnext 0] at h
          obtain ⟨n, htrue, hfalse, ht⟩ := ih (fun k => i (k + 1)) (fun k => hnext (k + 1)) h
          refine ⟨n + 1, fun k hk => ?_, hfalse, ?_⟩
          · cases k with
            | zero => exact hc
            | succ k => exact htrue k (Nat.lt_of_succ_lt_succ hk)
          · rw [ht, List.range_succ_eq_map, List.foldl_cons, List.foldl_map]

/-- A loop whose counter never leaves the condition has no result. -/
theorem forLoop_diverges {i : Nat} (I : Nat → Prop)
    (hstep : ∀ i, I i → cond i = true ∧ I (next i)) (hi : I i) :
    forLoop cond next body fuel i s = none := by
  rw [forLoop, whileLoop_diverges (fun s => I s.1) (fun s hs => hstep s.1 hs) hi]
  rfl

end For

/-! ## The turns of a counted loop -/

/-- Every turn appends to an output of the state. -/
theorem foldl_appends {ι α : Type} {body : ι → τ → τ} (out : τ → List α) (f : ι → List α)
    (hbody : ∀ i s, out (body i s) = out s ++ f i) (is : List ι) (s : τ) :
    out (is.foldl (fun s i => body i s) s) = out s ++ is.flatMap f := by
  induction is generalizing s with
  | nil => rw [List.foldl_nil, List.flatMap_nil, List.append_nil]
  | cons i is ih => rw [List.foldl_cons, ih, hbody, List.flatMap_cons, List.append_assoc]

/-- Turns that may fail, and do not. -/
theorem foldl_bind {ι : Type} {body : ι → τ → Option τ} {step : ι → τ → τ} (is : List ι) (s : τ)
    (hbody : ∀ i ∈ is, ∀ s, body i s = some (step i s)) :
    is.foldl (fun s i => s.bind (body i)) (some s) = some (is.foldl (fun s i => step i s) s) := by
  induction is generalizing s with
  | nil => rfl
  | cons i is ih =>
      rw [List.foldl_cons, List.foldl_cons, Option.bind_some, hbody i List.mem_cons_self]
      exact ih _ fun i hi => hbody i (List.mem_cons_of_mem _ hi)

/-- An invariant that counts the turns. -/
theorem foldl_range_inv {body : Nat → τ → τ} (I : Nat → τ → Prop) {n : Nat} {s : τ} (h : I 0 s)
    (hstep : ∀ k s, k < n → I k s → I (k + 1) (body k s)) :
    I n ((List.range n).foldl (fun s k => body k s) s) := by
  induction n with
  | zero => exact h
  | succ n ih =>
      rw [List.range_succ, List.foldl_append]
      exact hstep n _ (Nat.lt_succ_self n) (ih fun k s hk => hstep k s (Nat.lt_succ_of_lt hk))

/-- The turns of a counter that grows by `d` from `a` on while it is below `b`. -/
def turns (a b d : Nat) : Nat := (b - a + (d - 1)) / d

section Turns

variable {a b d k x : Nat}

theorem lt_turns (hd : 0 < d) : k < turns a b d ↔ a + k * d < b := by
  rw [turns, ← Nat.succ_le_iff, Nat.le_div_iff_mul_le hd, Nat.succ_mul]
  omega

theorem le_turns (hd : 0 < d) : b ≤ a + turns a b d * d := by
  have := (lt_turns (a := a) (b := b) (k := turns a b d) hd).not.mp (Nat.lt_irrefl _)
  omega

theorem turns_le (hd : 0 < d) : turns a b d ≤ b := by
  by_contra hlt
  have hturn := (lt_turns (a := a) (b := b) (k := b) hd).mp (by omega)
  have := Nat.le_mul_of_pos_right b hd
  omega

/-- The counter does not get far beyond its bound. -/
theorem turns_lt (hd : 0 < d) : a + turns a b d * d < max (a + 1) (b + d) := by
  cases h : turns a b d with
  | zero =>
      rw [Nat.zero_mul]
      exact lt_max_of_lt_left (Nat.lt_succ_self a)
  | succ n =>
      have := (lt_turns (a := a) (b := b) (k := n) hd).mp (by omega)
      rw [Nat.succ_mul]
      exact lt_max_of_lt_right (by omega)

theorem turns_mul {c : Nat} (hc : 0 < c) (hd : 0 < d) :
    turns (a * c) (b * c) (d * c) = turns a b d := by
  refine eq_of_forall_lt_iff fun k => ?_
  rw [lt_turns hd, lt_turns (Nat.mul_pos hd hc), ← Nat.mul_assoc, ← Nat.add_mul,
    Nat.mul_lt_mul_right hc]

theorem mem_counter (hd : 0 < d) : x ∈ (List.range (turns a b d)).map (fun k => a + k * d) ↔
    x < b ∧ a ≤ x ∧ x % d = a % d := by
  rw [List.mem_map]
  constructor
  · rintro ⟨k, hk, rfl⟩
    exact ⟨(lt_turns hd).mp (List.mem_range.mp hk), Nat.le_add_right a _,
      Nat.add_mul_mod_self_right a k d⟩
  · rintro ⟨hxb, hax, hmod⟩
    obtain ⟨k, hk⟩ := (Nat.modEq_iff_dvd' hax).mp hmod.symm
    have heq : a + k * d = x := by
      rw [Nat.mul_comm k d]
      omega
    exact ⟨k, List.mem_range.mpr ((lt_turns hd).mpr (heq ▸ hxb)), heq⟩

theorem nodup_counter (hd : 0 < d) :
    ((List.range (turns a b d)).map fun k => a + k * d).Nodup := by
  have hinj : Function.Injective fun k => a + k * d := fun k k' h =>
    Nat.eq_of_mul_eq_mul_right hd (Nat.add_left_cancel h)
  exact List.Nodup.map hinj List.nodup_range

end Turns

end TeraNoC.Lib
