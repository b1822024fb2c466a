import Mathlib.Tactic.Ring
import TeraNoC.Kernels.Axpy
import TeraNoC.Proofs.Dotp

/-!
# The parallel AXPYs

An element that one core loads and then stores, and nobody else stores, has had `da * x`
added at the end, however the cores' accesses interleave. So only the elements that a core
stores matter. They are a slice in the first two kernels. In the third one they are every
`numCores`-th group of four, and on core 0 what should be the rest of the vector modulo
four, but begins one element too far.
-/

namespace TeraNoC.Kernels

open TeraNoC.Lib TeraNoC.Runtime

/-! ## Updates -/

/-- A program that loads what it stores before it does, and the elements that it stores. -/
structure Updates (ops : List AxpyOp) (is : List Nat) : Prop where
  loads : ∀ p q i, ops = p ++ AxpyOp.store i :: q → AxpyOp.load i ∈ p
  stores : ops.filterMap AxpyOp.stored = is

section Updates

variable {ops : List AxpyOp} {is js : List Nat} {i : Nat}

theorem Updates.nil : Updates [] [] where
  loads := fun p _ _ h =>
    absurd h.symm (List.append_ne_nil_of_right_ne_nil p (List.cons_ne_nil _ _))
  stores := rfl

theorem axpyUpdate_stores : (axpyUpdate is).filterMap AxpyOp.stored = is := by
  have hloads : (is.map AxpyOp.load).filterMap AxpyOp.stored = [] :=
    List.filterMap_eq_nil_iff.mpr fun op hop => by
      obtain ⟨i, -, rfl⟩ := List.mem_map.mp hop
      rfl
  have hstores : AxpyOp.stored ∘ AxpyOp.store = some := rfl
  rw [axpyUpdate, List.filterMap_append, hloads, List.nil_append, List.filterMap_map, hstores,
    List.filterMap_some]

theorem axpyUpdate_loads {p q : List AxpyOp} (h : axpyUpdate is = p ++ AxpyOp.store i :: q) :
    AxpyOp.load i ∈ p := by
  rcases List.append_eq_append_iff.mp h with ⟨r, rfl, hstores⟩ | ⟨r, hloads, hstores⟩
  · have hmem : AxpyOp.store i ∈ is.map AxpyOp.store := by
      rw [hstores]
      exact List.mem_append_right _ List.mem_cons_self
    obtain ⟨i', hi', heq⟩ := List.mem_map.mp hmem
    cases heq
    exact List.mem_append_left _ (List.mem_map_of_mem hi')
  · cases r with
    | nil =>
        have hmem : AxpyOp.store i ∈ is.map AxpyOp.store := by
          rw [← List.nil_append (is.map AxpyOp.store), ← hstores]
          exact List.mem_cons_self
        obtain ⟨i', hi', heq⟩ := List.mem_map.mp hmem
        cases heq
        rw [List.append_nil] at hloads
        rw [← hloads]
        exact List.mem_map_of_mem hi'
    | cons op r =>
        rw [List.cons_append] at hstores
        obtain ⟨rfl, -⟩ := List.cons.inj hstores
        have hmem : AxpyOp.store i ∈ is.map AxpyOp.load := by
          rw [hloads]
          exact List.mem_append_right _ List.mem_cons_self
        obtain ⟨i', -, heq⟩ := List.mem_map.mp hmem
        cases heq

theorem Updates.append (h : Updates ops is) (js : List Nat) :
    Updates (ops ++ axpyUpdate js) (is ++ js) where
  loads := by
    intro p q i heq
    rcases List.append_eq_append_iff.mp heq with ⟨r, rfl, hupdate⟩ | ⟨r, rfl, hrest⟩
    · exact List.mem_append_right _ (axpyUpdate_loads hupdate)
    · cases r with
      | nil =>
          rw [List.nil_append] at hrest
          exact absurd (axpyUpdate_loads (p := []) hrest.symm) List.not_mem_nil
      | cons op r =>
          rw [List.cons_append] at hrest
          obtain ⟨rfl, -⟩ := List.cons.inj hrest
          exact h.loads p r i rfl
  stores := by rw [List.filterMap_append, h.stores, axpyUpdate_stores]

end Updates

/-! ## Interleaved updates -/

section Run

variable {da : Int32} {x : Nat → Int32} {run : List (Nat × AxpyOp)} {s : AxpyState}
  {prog : Nat → List AxpyOp} {core i n : Nat}

theorem exec_y (h : ∀ core, (core, AxpyOp.store i) ∉ run) :
    (run.foldl (AxpyState.exec da x) s).y i = s.y i := by
  induction run generalizing s with
  | nil => rfl
  | cons e run ih =>
      rw [List.foldl_cons, ih fun core hmem => h core (List.mem_cons_of_mem _ hmem)]
      obtain ⟨c, op⟩ := e
      cases op with
      | load j => rfl
      | store j =>
          have hne : i ≠ j := by
            rintro rfl
            exact h c List.mem_cons_self
          exact Function.update_of_ne hne _ _

theorem exec_acc (h : ∀ core, (core, AxpyOp.store i) ∉ run)
    (hload : s.acc core i = s.y i + da * x i ∨ (core, AxpyOp.load i) ∈ run) :
    (run.foldl (AxpyState.exec da x) s).acc core i = s.y i + da * x i := by
  induction run generalizing s with
  | nil => exact hload.resolve_right List.not_mem_nil
  | cons e run ih =>
      have hrest : ∀ core, (core, AxpyOp.store i) ∉ run :=
        fun core hmem => h core (List.mem_cons_of_mem _ hmem)
      have hy : ([e].foldl (AxpyState.exec da x) s).y i = s.y i := exec_y fun core hmem =>
        h core (List.mem_cons.mpr (Or.inl (List.mem_singleton.mp hmem)))
      rw [List.foldl_cons, List.foldl_nil] at hy
      rw [List.foldl_cons, ← hy]
      refine ih hrest ?_
      rw [hy]
      obtain ⟨c, op⟩ := e
      cases op with
      | store j =>
          refine hload.imp_right fun hmem => ?_
          exact (List.mem_cons.mp hmem).resolve_left fun heq => by cases heq
      | load j =>
          change Function.update s.acc c
            (Function.update (s.acc c) j (s.y j + da * x j)) core i = _ ∨ _
          by_cases hc : core = c
          · subst hc
            rw [Function.update_self]
            by_cases hj : i = j
            · subst hj
              exact Or.inl (Function.update_self _ _ _)
            · rw [Function.update_of_ne hj]
              refine hload.imp_right fun hmem => (List.mem_cons.mp hmem).resolve_left fun heq => ?_
              cases heq
              exact hj rfl
          · rw [Function.update_of_ne hc]
            refine hload.imp_right fun hmem => (List.mem_cons.mp hmem).resolve_left fun heq => ?_
            cases heq
            exact hc rfl

/-- An element is updated as often as a program stores it, if that is at most once. -/
theorem interleaving_y (hrun : Interleaving n prog run)
    (hloads : ∀ core < n, ∀ p q i, prog core = p ++ AxpyOp.store i :: q → AxpyOp.load i ∈ p)
    (hcount : ((List.range n).flatMap fun core =>
      (prog core).filterMap AxpyOp.stored).count i ≤ 1) :
    (run.foldl (AxpyState.exec da x) s).y i =
      if i ∈ (List.range n).flatMap fun core => (prog core).filterMap AxpyOp.stored then
        s.y i + da * x i else s.y i := by
  have hperm := hrun.perm.filterMap AxpyOp.stored
  rw [List.filterMap_flatMap] at hperm
  rw [← hperm.count_eq] at hcount
  have hstored : ∀ core, (core, AxpyOp.store i) ∈ run →
      i ∈ (run.map Prod.snd).filterMap AxpyOp.stored := fun core hmem =>
    List.mem_filterMap.mpr ⟨_, List.mem_map_of_mem hmem, rfl⟩
  by_cases hin : i ∈ (List.range n).flatMap fun core => (prog core).filterMap AxpyOp.stored
  · rw [if_pos hin]
    obtain ⟨op, hop, heq⟩ := List.mem_filterMap.mp (hperm.mem_iff.mpr hin)
    obtain ⟨⟨core, op⟩, hmem, rfl⟩ := List.mem_map.mp hop
    cases op with
    | load j => cases heq
    | store j =>
        cases heq
        -- the only store, and what is before it and after it
        obtain ⟨before, after, rfl⟩ := List.append_of_mem hmem
        rw [List.map_append, List.filterMap_append, List.count_append, List.map_cons,
          List.filterMap_cons_some (rfl : AxpyOp.stored (AxpyOp.store i) = some i),
          List.count_cons_self] at hcount
        have hnone : ∀ part : List (Nat × AxpyOp),
            ((part.map Prod.snd).filterMap AxpyOp.stored).count i = 0 →
              ∀ core, (core, AxpyOp.store i) ∉ part := fun part hzero core hpart =>
          List.count_eq_zero.mp hzero
            (List.mem_filterMap.mpr ⟨_, List.mem_map_of_mem hpart, rfl⟩)
        have hown := hrun.2 core (hrun.1 _ hmem)
        rw [← List.singleton_append, own_append, own_append] at hown
        have hload : AxpyOp.load i ∈ own core before := by
          refine hloads core (hrun.1 _ hmem) _ (own core after) i ?_
          rw [← hown, own, own]
          simp
        rw [List.foldl_append, List.foldl_cons, exec_y (hnone after (by omega))]
        change Function.update _ i _ i = _
        rw [Function.update_self]
        exact exec_acc (hnone before (by omega)) (Or.inr (mem_own.mp hload))
  · rw [if_neg hin]
    exact exec_y fun core hmem => hin (hperm.mem_iff.mp (hstored core hmem))

end Run

/-! ## The serial kernels -/

section Serial

variable {da : Int32} {n start : Nat}

/-- `AXPY` updates `n` elements, unless there is nothing to add. -/
theorem axpy_ends (da : Int32) (start : Nat) (hn : n < 2 ^ 32) :
    ∃ ops, Ends (axpy n da start) ops ∧
      Updates ops (if da = 0 then [] else List.range' start n) := by
  by_cases hda : da = 0
  · exact ⟨[], ⟨0, fun fuel _ => if_pos hda⟩, by rw [if_pos hda]; exact Updates.nil⟩
  · rw [if_neg hda]
    refine ⟨_, ⟨n, fun fuel hfuel => (if_neg hda).trans (forLoop_add (n := n)
      (fun k hk => by omega) (by omega) (by omega) hfuel)⟩, ?_⟩
    refine foldl_range_inv (fun k ops => Updates ops (List.range' start k)) Updates.nil
      fun k ops _ h => ?_
    rw [List.range'_concat, Nat.one_mul, Nat.zero_add, Nat.mul_one]
    exact h.append [start + k]

theorem axpyUnloop_ends (da : Int32) (start : Nat) (hn : n < 2 ^ 32) :
    ∃ ops, Ends (axpyUnloop n da start) ops ∧
      Updates ops (if da = 0 then [] else List.range' start n) := by
  by_cases hda : da = 0
  · exact ⟨[], ⟨0, fun fuel _ => if_pos hda⟩, by rw [if_pos hda]; exact Updates.nil⟩
  · rw [if_neg hda]
    have hmod : n % 4 ≤ n := Nat.mod_le n 4
    have hfours : n / 4 * 4 + n % 4 = n := Nat.div_add_mod' n 4
    have hsub : sub32 n (n % 4) = n / 4 * 4 := by
      rw [sub32_eq hmod hn]
      omega
    -- the groups of four, and then the rest, with the pointer right behind what is done
    obtain ⟨⟨y, ops⟩, hgroups, rfl, hops⟩ : ∃ s : Nat × List AxpyOp,
        Ends (fun fuel => forLoop (fun i => i < n / 4 * 4) (fun i => u32 (i + 4))
          (fun _ s => (s.1 + 4, s.2 ++ axpyUnloopX4 s.1)) fuel 0 (start, [])) s ∧
        s.1 = start + n / 4 * 4 ∧ Updates s.2 (List.range' start (n / 4 * 4)) := by
      refine ⟨_, ⟨n / 4, fun fuel hfuel => forLoop_add (n := n / 4) (fun k hk => by omega)
        (by omega) (by omega) hfuel⟩, ?_⟩
      refine foldl_range_inv (fun k (s : Nat × List AxpyOp) =>
        s.1 = start + k * 4 ∧ Updates s.2 (List.range' start (k * 4)))
        ⟨rfl, Updates.nil⟩ fun k s _ h => ⟨?_, ?_⟩
      · rw [h.1, Nat.add_assoc, ← Nat.succ_mul]
      · rw [Nat.succ_mul, ← List.range'_append_1, ← h.1]
        exact h.2.append (List.range' s.1 4)
    obtain ⟨⟨y, ops'⟩, hrest, -, hops'⟩ : ∃ s : Nat × List AxpyOp,
        Ends (fun fuel => forLoop (fun i => i < n % 4) (fun i => u32 (i + 1))
          (fun _ s => (s.1 + 1, s.2 ++ axpyUpdate [s.1])) fuel 0 (start + n / 4 * 4, ops)) s ∧
        s.1 = start + n / 4 * 4 + n % 4 ∧ Updates s.2 (List.range' start (n / 4 * 4 + n % 4)) := by
      refine ⟨_, ⟨n % 4, fun fuel hfuel => forLoop_add (n := n % 4) (fun k hk => by omega)
        (by omega) (by omega) hfuel⟩, ?_⟩
      refine foldl_range_inv (fun k (s : Nat × List AxpyOp) =>
        s.1 = start + n / 4 * 4 + k ∧ Updates s.2 (List.range' start (n / 4 * 4 + k)))
        ⟨rfl, hops⟩ fun k s _ h => ⟨?_, ?_⟩
      · rw [h.1]
        rfl
      · rw [← Nat.add_assoc, List.range'_concat, Nat.one_mul, ← Nat.add_assoc, ← h.1]
        exact h.2.append [s.1]
    rw [hfours] at hops'
    refine ⟨ops', ?_, hops'⟩
    obtain ⟨b, hb⟩ := hgroups
    obtain ⟨b', hb'⟩ := hrest
    refine ⟨max b b', fun fuel hfuel => (if_neg hda).trans ?_⟩
    dsimp only
    rw [hsub]
    refine (congrArg (· >>= _) (hb fuel ((Nat.le_max_left b b').trans hfuel))).trans ?_
    exact congrArg (· >>= _) (hb' fuel ((Nat.le_max_right b b').trans hfuel))

end Serial

/-! ## All cores -/

section Parallel

variable {da : Int32} {x : Nat → Int32} {elements numCores core : Nat}

theorem exact_of_updates {kernel : Nat → Nat → Option (List AxpyOp)} {prog : Nat → List AxpyOp}
    {is : Nat → List Nat} (hends : ∀ core < numCores, Ends (kernel core) (prog core))
    (hupd : ∀ core < numCores, Updates (prog core) (is core))
    (hle : ∀ i, ((List.range numCores).flatMap is).count i ≤ if i < elements then 1 else 0)
    (hall : da ≠ 0 → ∀ i < elements, ((List.range numCores).flatMap is).count i = 1) :
    AxpyExact da x elements numCores kernel := by
  have hstores : ((List.range numCores).flatMap fun core => (prog core).filterMap AxpyOp.stored) =
      (List.range numCores).flatMap is :=
    List.flatMap_congr fun core hcore => (hupd core (List.mem_range.mp hcore)).stores
  refine ⟨prog, hends, fun run hrun s i => ?_, by rw [hstores]; exact hle,
    by rw [hstores]; exact hall⟩
  have hone : ((List.range numCores).flatMap is).count i ≤ 1 := (hle i).trans (by split <;> decide)
  rw [interleaving_y hrun (fun core hcore p q i => (hupd core hcore).loads p q i)
    (by rw [hstores]; exact hone), hstores]
  by_cases hi : i < elements
  · rw [if_pos hi]
    by_cases hda : da = 0
    · have hzero : s.y i + 0 * x i = s.y i := by simp
      rw [hda, hzero, ite_self]
    · rw [if_pos (List.count_pos_iff.mp (by rw [hall hda i hi]; exact Nat.one_pos))]
  · have hzero := hle i
    rw [if_neg hi] at hzero
    rw [if_neg hi, if_neg (List.count_eq_zero.mp (Nat.le_zero.mp hzero))]

/-- Cores with slices one after the other. -/
theorem exact_of_slices {kernel : Nat → Nat → Option (List AxpyOp)} {prog : Nat → List AxpyOp}
    {slice : Nat → List Nat} (hends : ∀ core < numCores, Ends (kernel core) (prog core))
    (hupd : ∀ core < numCores, Updates (prog core) (if da = 0 then [] else slice core))
    (hslices : (List.range numCores).flatMap slice = List.range elements) :
    AxpyExact da x elements numCores kernel := by
  have hcount : ∀ i, (List.range elements).count i = if i < elements then 1 else 0 := by
    intro i
    rw [List.nodup_range.count]
    simp only [List.mem_range]
  by_cases hda : da = 0
  · simp only [if_pos hda] at hupd
    refine exact_of_updates hends hupd (fun i => ?_) fun hne => absurd hda hne
    rw [List.flatMap_eq_nil_iff.mpr fun _ _ => rfl]
    exact Nat.zero_le _
  · simp only [if_neg hda] at hupd
    refine exact_of_updates hends hupd (fun i => ?_) fun _ i hi => ?_
    · rw [hslices, hcount]
    · rw [hslices, hcount, if_pos hi]

/-- The first cores have one element more. -/
def sliceOf (elements numCores core : Nat) : List Nat :=
  if core < elements % numCores then
    List.range' (core * (elements / numCores + 1)) (elements / numCores + 1)
  else List.range' (core * (elements / numCores) + elements % numCores) (elements / numCores)

theorem flatMap_sliceOf (hpos : 0 < numCores) :
    (List.range numCores).flatMap (sliceOf elements numCores) = List.range elements := by
  have hrun : ∀ n, (List.range n).flatMap (sliceOf elements numCores) =
      List.range (n * (elements / numCores) + min n (elements % numCores)) := by
    intro n
    induction n with
    | zero => rw [Nat.zero_mul, Nat.zero_min]; rfl
    | succ n ih =>
        rw [List.range_succ, List.flatMap_append, ih, List.flatMap_singleton, sliceOf,
          List.range_eq_range', List.range_eq_range', Nat.succ_mul]
        split
        · next h =>
            rw [Nat.mul_succ, Nat.min_eq_left h.le, Nat.min_eq_left h]
            have happ := List.range'_append_1 (s := 0) (m := n * (elements / numCores) + n)
              (n := elements / numCores + 1)
            rw [Nat.zero_add] at happ
            rw [happ]
            congr 1
            omega
        · next h =>
            have h := Nat.not_lt.mp h
            rw [Nat.min_eq_right h, Nat.min_eq_right (h.trans (Nat.le_succ n))]
            have happ := List.range'_append_1 (s := 0)
              (m := n * (elements / numCores) + elements % numCores) (n := elements / numCores)
            rw [Nat.zero_add] at happ
            rw [happ]
            congr 1
            omega
  rw [hrun, Nat.min_eq_right (Nat.mod_lt elements hpos).le, Nat.div_add_mod]

/-- A kernel that gives every core its slice. -/
theorem exact_of_serial {kernel : Nat → Nat → Option (List AxpyOp)}
    (serial : Nat → Nat → Nat → Option (List AxpyOp)) (helements : elements < 2 ^ 32)
    (hpos : 0 < numCores)
    (hserial : ∀ n start, n < 2 ^ 32 → ∃ ops, Ends (serial n start) ops ∧
      Updates ops (if da = 0 then [] else List.range' start n))
    (hkernel : ∀ core fuel, kernel core fuel =
      if core < elements % numCores then serial (u32 (elements / numCores + 1))
        (u32 (core * u32 (elements / numCores + 1))) fuel
      else serial (elements / numCores)
        (u32 (u32 (core * (elements / numCores)) + elements % numCores)) fuel) :
    AxpyExact da x elements numCores kernel := by
  have hdiv : numCores * (elements / numCores) + elements % numCores = elements :=
    Nat.div_add_mod elements numCores
  have hcore : ∀ core < numCores, ∃ ops, Ends (kernel core) ops ∧
      Updates ops (if da = 0 then [] else sliceOf elements numCores core) := by
    intro core hcore
    have hmul := Nat.mul_le_mul_right (elements / numCores) (show core + 1 ≤ numCores from hcore)
    rw [Nat.succ_mul] at hmul
    have hfun := funext (hkernel core)
    unfold sliceOf
    generalize elements / numCores = split at hdiv hmul hfun ⊢
    generalize elements % numCores = rest at hdiv hfun ⊢
    by_cases h : core < rest
    · have hstart : core * (split + 1) = core * split + core := Nat.mul_succ core split
      simp only [if_pos h] at hfun ⊢
      rw [hfun, u32_eq (show split + 1 < 2 ^ 32 by omega), u32_eq (by omega)]
      exact hserial _ _ (by omega)
    · simp only [if_neg h] at hfun ⊢
      rw [hfun, u32_eq (show core * split < 2 ^ 32 by omega), u32_eq (by omega)]
      exact hserial _ _ (by omega)
  choose! prog hends hupd using hcore
  exact exact_of_slices hends hupd (flatMap_sliceOf hpos)

theorem calc_axpy_exact (helements : elements < 2 ^ 32) (hpos : 0 < numCores) :
    AxpyExact da x elements numCores (fun core => calcAxpy da elements core numCores) :=
  exact_of_serial (fun n start => axpy n da start) helements hpos
    (fun _ start hn => axpy_ends da start hn) fun _ _ => rfl

theorem calc_axpy_unloop_exact (helements : elements < 2 ^ 32) (hpos : 0 < numCores) :
    AxpyExact da x elements numCores (fun core => calcAxpyUnloop da elements core numCores) :=
  exact_of_serial (fun n start => axpyUnloop n da start) helements hpos
    (fun _ start hn => axpyUnloop_ends da start hn) fun _ _ => rfl

end Parallel

/-! ## Groups of four -/

section Localbank

variable {da : Int32} {x : Nat → Int32} {elements numCores core m : Nat} {prog : List AxpyOp}

/-- The `k`-th group of four of a core, in numbers of 32 bits. -/
def bankGroup (numCores core k : Nat) : Nat := (core + k * numCores) % 2 ^ 30

/-- The groups below which the loop goes on: those of the vector, but all there are if it
has none. -/
def bankGroups (elements : Nat) : Nat := if elements / 4 = 0 then 2 ^ 30 else elements / 4

/-- What core 0 stores before its loop. -/
def leftover (da : Int32) (elements core : Nat) : List Nat :=
  if core = 0 ∧ elements % 4 ≠ 0 ∧ da ≠ 0 then
    List.range' (elements / 4 * 4 + 1) (elements % 4) else []

/-- The elements of a core that does `m` groups. -/
def bankElements (da : Int32) (elements numCores core m : Nat) : List Nat :=
  leftover da elements core ++
    (List.range m).flatMap fun k => List.range' (4 * bankGroup numCores core k) 4

theorem bankGroup_lt (numCores core k : Nat) : bankGroup numCores core k < 2 ^ 30 :=
  Nat.mod_lt _ (by decide)

theorem four_bankGroup (numCores core k : Nat) :
    4 * bankGroup numCores core k = u32 (4 * (core + k * numCores)) := by
  rw [bankGroup, u32]
  omega

theorem bankGroup_next (numCores core k : Nat) :
    u32 (4 * bankGroup numCores core k + u32 (numCores * 4)) =
      4 * bankGroup numCores core (k + 1) := by
  have hfour : 4 * (core + k * numCores) + numCores * 4 = 4 * (core + (k + 1) * numCores) := by ring
  rw [four_bankGroup, four_bankGroup, ← hfour]
  simp only [u32, Nat.mod_add_mod, Nat.add_mod_mod]

theorem bankGroup_zero (numCores core : Nat) : bankGroup numCores core 0 = core % 2 ^ 30 := by
  rw [bankGroup, Nat.zero_mul, Nat.add_zero]

theorem bankGroup_eq {k : Nat} (h : core + k * numCores < 2 ^ 30) :
    bankGroup numCores core k = core + k * numCores := Nat.mod_eq_of_lt h

theorem totalUnloop_eq (helements : elements < 2 ^ 32) :
    sub32 elements (elements % 4) = elements / 4 * 4 := by
  rw [sub32_eq (Nat.mod_le elements 4) helements]
  omega

theorem group_le_iff (helements : elements < 2 ^ 32) {g : Nat} (hg : g < 2 ^ 30) :
    4 * g ≤ sub32 (elements / 4 * 4) 4 ↔ g < bankGroups elements := by
  rw [bankGroups]
  by_cases hzero : elements / 4 = 0
  · rw [if_pos hzero, hzero, sub32, u32]
    omega
  · rw [if_neg hzero, sub32_eq (by omega) (by omega)]
    omega

theorem leftover_ends (da : Int32) (core : Nat) (helements : elements < 2 ^ 32) :
    ∃ ops, Ends (fun fuel => if core = 0 ∧ elements % 4 ≠ 0 then
        axpy (elements % 4) da (u32 (elements / 4 * 4 + 1)) fuel else some []) ops ∧
      Updates ops (leftover da elements core) := by
  unfold leftover
  by_cases h : core = 0 ∧ elements % 4 ≠ 0
  · obtain ⟨ops, hends, hupd⟩ := axpy_ends (n := elements % 4) da (u32 (elements / 4 * 4 + 1))
      (by omega)
    rw [u32_eq (by omega)] at hends hupd ⊢
    refine ⟨ops, by simpa only [if_pos h] using hends, ?_⟩
    by_cases hda : da = 0
    · rw [if_neg fun hall => hall.2.2 hda]
      rwa [if_pos hda] at hupd
    · rw [if_pos ⟨h.1, h.2, hda⟩]
      rwa [if_neg hda] at hupd
  · refine ⟨[], ⟨0, fun fuel _ => if_neg h⟩, ?_⟩
    rw [if_neg fun hall => h ⟨hall.1, hall.2.1⟩]
    exact Updates.nil

/-- The turns of the loop. -/
theorem groups_updates {ops : List AxpyOp} (h : Updates ops (leftover da elements core)) :
    Updates ((List.range m).foldl
      (fun ops k => ops ++ axpyUnloopX4 (4 * bankGroup numCores core k)) ops)
      (bankElements da elements numCores core m) := by
  refine foldl_range_inv (fun k ops => Updates ops (bankElements da elements numCores core k))
    ?_ fun k ops _ h => ?_
  · rw [bankElements, List.range_zero, List.flatMap_nil, List.append_nil]
    exact h
  · rw [bankElements, List.range_succ, List.flatMap_append, List.flatMap_singleton,
      ← List.append_assoc]
    exact h.append (List.range' (4 * bankGroup numCores core k) 4)

theorem calcAxpyUnloopX4Localbank_eq (helements : elements < 2 ^ 32) (fuel : Nat) :
    calcAxpyUnloopX4Localbank da elements core numCores fuel =
      (if core = 0 ∧ elements % 4 ≠ 0 then
        axpy (elements % 4) da (u32 (elements / 4 * 4 + 1)) fuel else some []) >>= fun ops =>
      forLoop (fun c => c ≤ sub32 (elements / 4 * 4) 4) (fun c => u32 (c + u32 (numCores * 4)))
        (fun c ops => ops ++ axpyUnloopX4 c) fuel (4 * bankGroup numCores core 0) ops := by
  have hstart : u32 (core * 4) = 4 * bankGroup numCores core 0 := by
    rw [four_bankGroup, Nat.zero_mul, Nat.add_zero, Nat.mul_comm]
  unfold calcAxpyUnloopX4Localbank
  dsimp only
  rw [totalUnloop_eq helements, hstart]
  split <;> rfl

/-- A core that returns has done its groups up to one that is beyond the vector. -/
theorem localbank_some (helements : elements < 2 ^ 32)
    (hends : Ends (calcAxpyUnloopX4Localbank da elements core numCores) prog) :
    ∃ m, (∀ k < m, bankGroup numCores core k < bankGroups elements) ∧
      bankGroups elements ≤ bankGroup numCores core m ∧
      Updates prog (bankElements da elements numCores core m) := by
  obtain ⟨ops, ⟨b, hb⟩, hupd⟩ := leftover_ends da core helements
  obtain ⟨b', hb'⟩ := hends
  have hprog := hb' (max b b') (Nat.le_max_right b b')
  have hops := hb (max b b') (Nat.le_max_left b b')
  rw [calcAxpyUnloopX4Localbank_eq helements] at hprog
  dsimp only at hops
  rw [hops, Option.bind_eq_bind, Option.bind_some] at hprog
  obtain ⟨m, hlt, hge, rfl⟩ := forLoop_some (fun k => 4 * bankGroup numCores core k)
    (fun k => bankGroup_next numCores core k) hprog
  refine ⟨m, fun k hk => ?_, ?_, groups_updates hupd⟩
  · exact (group_le_iff helements (bankGroup_lt _ _ k)).mp (of_decide_eq_true (hlt k hk))
  · exact Nat.not_lt.mp fun h => of_decide_eq_false hge
      ((group_le_iff helements (bankGroup_lt _ _ m)).mpr h)

theorem localbank_ends (da : Int32) (numCores core m : Nat) (helements : elements < 2 ^ 32)
    (hlt : ∀ k < m, bankGroup numCores core k < bankGroups elements)
    (hge : bankGroups elements ≤ bankGroup numCores core m) :
    ∃ prog, Ends (calcAxpyUnloopX4Localbank da elements core numCores) prog ∧
      Updates prog (bankElements da elements numCores core m) := by
  obtain ⟨ops, ⟨b, hb⟩, hupd⟩ := leftover_ends da core helements
  refine ⟨_, ⟨max b m, fun fuel hfuel => ?_⟩, groups_updates hupd⟩
  have hops := hb fuel ((Nat.le_max_left b m).trans hfuel)
  dsimp only at hops
  rw [calcAxpyUnloopX4Localbank_eq helements, hops, Option.bind_eq_bind, Option.bind_some]
  refine forLoop_eq (fun k => 4 * bankGroup numCores core k) (fun k hk => ?_) ?_
    (fun k _ => bankGroup_next numCores core k) ((Nat.le_max_right b m).trans hfuel)
  · exact decide_eq_true ((group_le_iff helements (bankGroup_lt _ _ k)).mpr (hlt k hk))
  · exact decide_eq_false fun h =>
      Nat.not_lt.mpr hge ((group_le_iff helements (bankGroup_lt _ _ m)).mp h)

/-- Group `g` is one of core `g % numCores`. -/
def groupsOf (numCores groups core : Nat) : List Nat :=
  (List.range ((groups + numCores - 1 - core) / numCores)).map fun k => core + k * numCores

theorem mem_groupsOf {groups g : Nat} (hcore : core < numCores) :
    g ∈ groupsOf numCores groups core ↔ g < groups ∧ g % numCores = core := by
  have hpos : 0 < numCores := Nat.zero_lt_of_lt hcore
  rw [groupsOf, List.mem_map]
  constructor
  · rintro ⟨k, hk, rfl⟩
    have hk := (Nat.le_div_iff_mul_le hpos).mp (List.mem_range.mp hk)
    rw [Nat.succ_mul] at hk
    exact ⟨by omega, by rw [Nat.add_mul_mod_self_right, Nat.mod_eq_of_lt hcore]⟩
  · rintro ⟨hlt, rfl⟩
    have hdiv : g % numCores + g / numCores * numCores = g := by
      rw [Nat.mul_comm]
      exact Nat.mod_add_div g numCores
    refine ⟨g / numCores, List.mem_range.mpr ((Nat.le_div_iff_mul_le hpos).mpr ?_), hdiv⟩
    rw [Nat.succ_mul]
    omega

theorem flatMap_groupsOf (numCores groups : Nat) (hpos : 0 < numCores) :
    ((List.range numCores).flatMap (groupsOf numCores groups)).Perm (List.range groups) := by
  have hnodup : ((List.range numCores).flatMap (groupsOf numCores groups)).Nodup := by
    refine List.nodup_flatMap.mpr ⟨fun core _ => ?_, ?_⟩
    · refine List.nodup_range.map fun k k' heq => ?_
      exact Nat.eq_of_mul_eq_mul_right hpos (Nat.add_left_cancel heq)
    · refine List.nodup_range.imp_of_mem fun hc hc' hne g hg hg' => hne ?_
      rw [← ((mem_groupsOf (List.mem_range.mp hc)).mp hg).2,
        ((mem_groupsOf (List.mem_range.mp hc')).mp hg').2]
  refine (List.perm_ext_iff_of_nodup hnodup List.nodup_range).mpr fun g => ?_
  rw [List.mem_flatMap, List.mem_range]
  constructor
  · rintro ⟨core, hcore, hg⟩
    exact ((mem_groupsOf (List.mem_range.mp hcore)).mp hg).1
  · intro hlt
    have hmod := Nat.mod_lt g hpos
    exact ⟨g % numCores, List.mem_range.mpr hmod, (mem_groupsOf hmod).mpr ⟨hlt, rfl⟩⟩

theorem localbank_exact (helements : elements < 2 ^ 32) (hpos : 0 < numCores)
    (hfour : 4 ≤ elements) (hrest : elements % 4 = 0 ∨ da = 0)
    (hfit : elements - elements % 4 + 4 * numCores ≤ 2 ^ 32) :
    AxpyExact da x elements numCores
      (fun core => calcAxpyUnloopX4Localbank da elements core numCores) := by
  have hgroups : bankGroups elements = elements / 4 := if_neg (by omega)
  have hsum : elements / 4 + numCores ≤ 2 ^ 30 := by omega
  have hcore : ∀ core < numCores, ∃ prog,
      Ends (calcAxpyUnloopX4Localbank da elements core numCores) prog ∧
      Updates prog ((groupsOf numCores (elements / 4) core).flatMap fun g =>
        List.range' (g * 4) 4) := by
    intro core hcore
    have hturns := Nat.div_mul_le_self (elements / 4 + numCores - 1 - core) numCores
    have hmore := Nat.lt_mul_div_succ (elements / 4 + numCores - 1 - core) hpos
    rw [Nat.mul_comm, Nat.succ_mul] at hmore
    have hgroup : ∀ k ≤ (elements / 4 + numCores - 1 - core) / numCores,
        bankGroup numCores core k = core + k * numCores := by
      intro k hk
      have := Nat.mul_le_mul_right numCores hk
      exact bankGroup_eq (by omega)
    have hlt : ∀ k < (elements / 4 + numCores - 1 - core) / numCores,
        bankGroup numCores core k < bankGroups elements := by
      intro k hk
      have hle := Nat.mul_le_mul_right numCores (show k + 1 ≤ _ from hk)
      rw [Nat.succ_mul] at hle
      rw [hgroup k hk.le, hgroups]
      omega
    obtain ⟨prog, hends, hupd⟩ := localbank_ends da numCores core _ helements hlt
      (by rw [hgroup _ (Nat.le_refl _), hgroups]; omega)
    have hnone : leftover da elements core = [] := if_neg fun h => hrest.elim h.2.1 h.2.2
    have hcongr : ∀ k ∈ List.range ((elements / 4 + numCores - 1 - core) / numCores),
        List.range' (4 * bankGroup numCores core k) 4 =
          List.range' ((core + k * numCores) * 4) 4 := by
      intro k hk
      rw [hgroup k (List.mem_range.mp hk).le, Nat.mul_comm]
    rw [bankElements, hnone, List.nil_append, List.flatMap_congr hcongr] at hupd
    refine ⟨prog, hends, ?_⟩
    rw [groupsOf, List.flatMap_map]
    exact hupd
  choose! prog hends hupd using hcore
  have hperm : ((List.range numCores).flatMap fun core =>
      (groupsOf numCores (elements / 4) core).flatMap fun g => List.range' (g * 4) 4).Perm
        (List.range (elements / 4 * 4)) := by
    rw [← List.flatMap_assoc, ← flatMap_slices]
    exact (flatMap_groupsOf numCores (elements / 4) hpos).flatMap_right _
  have hcount : ∀ i, (List.range (elements / 4 * 4)).count i =
      if i < elements / 4 * 4 then 1 else 0 := by
    intro i
    rw [List.nodup_range.count]
    simp only [List.mem_range]
  refine exact_of_updates hends hupd (fun i => ?_) fun hda i hi => ?_
  · rw [hperm.count_eq, hcount]
    split <;> split <;> omega
  · have := hrest.resolve_right hda
    rw [hperm.count_eq, hcount, if_pos (by omega)]

/-- The first element of a group that the core does. -/
theorem mem_bankElements (da : Int32) (elements numCores core : Nat) {k : Nat} (hk : k < m) :
    4 * bankGroup numCores core k ∈ bankElements da elements numCores core m :=
  List.mem_append_right _ (List.mem_flatMap.mpr
    ⟨k, List.mem_range.mpr hk, List.mem_range'_1.mpr ⟨Nat.le_refl _, by omega⟩⟩)

/-- The groups of a vector are fewer than the counter can tell apart, together with the
step of the loop: otherwise the counter of the core that does the last group wraps around
to the first group of some core. -/
theorem groups_fit {m : Nat → Nat} (hfour : 0 < elements / 4) (helements : elements < 2 ^ 32)
    (hpos : 0 < numCores)
    (hge : ∀ core < numCores, elements / 4 ≤ bankGroup numCores core (m core))
    (hnodup : ((List.range numCores).flatMap fun core =>
      bankElements da elements numCores core (m core)).Nodup) :
    elements / 4 + numCores ≤ 2 ^ 30 := by
  by_contra hlarge
  generalize hT : elements / 4 = T at hfour hge hlarge
  have hturn : ∀ core < numCores, ∀ k, (∀ j ≤ k, bankGroup numCores core j < T) → k < m core := by
    intro core hcore k hall
    by_contra hle
    exact absurd (hall (m core) (Nat.not_lt.mp hle)) (Nat.not_lt.mpr (hge core hcore))
  have hfirst : ∀ core < numCores, ∀ g < T, bankGroup numCores core 0 = g → 0 < m core := by
    intro core hcore g hg heq
    refine hturn core hcore 0 fun j hj => ?_
    rwa [Nat.le_zero.mp hj, heq]
  rcases Nat.lt_or_ge (2 ^ 30) numCores with hmany | hfew
  · -- the counters of cores 0 and `2 ^ 30` start at the same group
    have hzero : bankGroup numCores 0 0 = 0 := bankGroup_zero numCores 0
    have hsame : bankGroup numCores (2 ^ 30) 0 = 0 := bankGroup_zero numCores (2 ^ 30)
    have hin := mem_bankElements da elements numCores 0
      (hfirst 0 (by omega) 0 hfour hzero)
    have hin' := mem_bankElements da elements numCores (2 ^ 30)
      (hfirst (2 ^ 30) hmany 0 hfour hsame)
    rw [hsame, ← hzero] at hin'
    exact nodup_flatMap_range hnodup (by decide) hmany hin hin'
  · -- core `(T - 1) % numCores` does the last group in turn `j`
    have hmod := Nat.mod_lt (T - 1) hpos
    have hdiv : (T - 1) % numCores + (T - 1) / numCores * numCores = T - 1 := by
      rw [Nat.mul_comm]
      exact Nat.mod_add_div (T - 1) numCores
    generalize (T - 1) % numCores = last at hmod hdiv
    generalize (T - 1) / numCores = j at hdiv
    have hgroup : ∀ k ≤ j, bankGroup numCores last k = last + k * numCores := by
      intro k hk
      have := Nat.mul_le_mul_right numCores hk
      exact bankGroup_eq (by omega)
    have hnext : bankGroup numCores last (j + 1) = T - 1 + numCores - 2 ^ 30 := by
      rw [bankGroup, Nat.succ_mul, ← Nat.add_assoc, hdiv]
      omega
    have hjump : j + 1 < m last := by
      refine hturn last hmod (j + 1) fun k hk => ?_
      rcases Nat.lt_or_eq_of_le hk with hlt | rfl
      · have := Nat.mul_le_mul_right numCores (Nat.lt_succ_iff.mp hlt)
        rw [hgroup k (Nat.lt_succ_iff.mp hlt)]
        omega
      · rw [hnext]
        omega
    -- which is the first group of another core, or of the same one
    have hstart : bankGroup numCores (T - 1 + numCores - 2 ^ 30) 0 = T - 1 + numCores - 2 ^ 30 := by
      rw [bankGroup_zero, Nat.mod_eq_of_lt (by omega)]
    have hin := mem_bankElements da elements numCores last hjump
    have hin' := mem_bankElements da elements numCores (T - 1 + numCores - 2 ^ 30)
      (hfirst (T - 1 + numCores - 2 ^ 30) (by omega) _ (by omega) hstart)
    rw [hnext] at hin
    rw [hstart] at hin'
    rcases Nat.lt_trichotomy last (T - 1 + numCores - 2 ^ 30) with h | h | h
    · exact nodup_flatMap_range hnodup h (by omega) hin hin'
    · have hown := (List.nodup_flatMap.mp hnodup).1 last (List.mem_range.mpr hmod)
      have hturns := (List.nodup_append.mp hown).2.1
      have hgroup_mem : ∀ g, 4 * g ∈ List.range' (4 * g) 4 := fun g =>
        List.mem_range'_1.mpr ⟨Nat.le_refl _, by omega⟩
      refine nodup_flatMap_range hturns (Nat.succ_pos j) hjump
        (x := 4 * (T - 1 + numCores - 2 ^ 30)) ?_ ?_
      · rw [h, hstart]
        exact hgroup_mem _
      · rw [hnext]
        exact hgroup_mem _
    · exact nodup_flatMap_range hnodup h hmod hin' hin

theorem localbank_fits (helements : elements < 2 ^ 32) (hpos : 0 < numCores)
    (h : AxpyExact da x elements numCores
      (fun core => calcAxpyUnloopX4Localbank da elements core numCores)) :
    4 ≤ elements ∧ (elements % 4 = 0 ∨ da = 0) ∧
      elements - elements % 4 + 4 * numCores ≤ 2 ^ 32 := by
  obtain ⟨prog, hends, -, hle, hall⟩ := h
  choose! m hlt hge hupd using fun core (hcore : core < numCores) =>
    localbank_some helements (hends core hcore)
  have hstores : ((List.range numCores).flatMap fun core => (prog core).filterMap AxpyOp.stored) =
      (List.range numCores).flatMap fun core => bankElements da elements numCores core (m core) :=
    List.flatMap_congr fun core hcore => (hupd core (List.mem_range.mp hcore)).stores
  rw [hstores] at hle hall
  have hfour : 0 < elements / 4 := by
    by_contra hzero
    -- without a group of four the loop of core 0 does not end
    have hend := hge 0 hpos
    rw [bankGroups, if_pos (by omega)] at hend
    exact absurd (bankGroup_lt numCores 0 (m 0)) (Nat.not_lt.mpr hend)
  have hgroups : bankGroups elements = elements / 4 := if_neg (by omega)
  rw [hgroups] at hlt hge
  refine ⟨by omega, ?_, ?_⟩
  · by_contra hno
    obtain ⟨hrest, hda⟩ := not_or.mp hno
    -- nobody stores the first element after the groups
    have hone := hall hda (elements / 4 * 4) (by omega)
    have hmem := List.count_pos_iff.mp (Nat.lt_of_lt_of_eq Nat.one_pos hone.symm)
    obtain ⟨core, hcore, hin⟩ := List.mem_flatMap.mp hmem
    have hcore := List.mem_range.mp hcore
    rcases List.mem_append.mp hin with hin | hin
    · unfold leftover at hin
      split at hin
      · have := (List.mem_range'_1.mp hin).1
        omega
      · cases hin
    · obtain ⟨k, hk, hin⟩ := List.mem_flatMap.mp hin
      have := hlt core hcore k (List.mem_range.mp hk)
      have := (List.mem_range'_1.mp hin).2
      omega
  · have hnodup := List.nodup_iff_count_le_one.mpr fun i => (hle i).trans (by split <;> decide)
    have := groups_fit hfour helements hpos hge hnodup
    omega

end Localbank

/-- The kernels with slices are exact. The one with groups of four is if there is a group,
all of the vector is in groups or nothing is added, and its counter does not wrap. -/
theorem axpy_exact (da : Int32) (x : Nat → Int32) {elements numCores : Nat}
    (helements : elements < 2 ^ 32) (hpos : 0 < numCores) :
    AxpyExact da x elements numCores (fun core => calcAxpy da elements core numCores) ∧
      AxpyExact da x elements numCores (fun core => calcAxpyUnloop da elements core numCores) ∧
      (AxpyExact da x elements numCores
          (fun core => calcAxpyUnloopX4Localbank da elements core numCores) ↔
        4 ≤ elements ∧ (elements % 4 = 0 ∨ da = 0) ∧
          elements - elements % 4 + 4 * numCores ≤ 2 ^ 32) :=
  ⟨calc_axpy_exact helements hpos, calc_axpy_unloop_exact helements hpos,
    localbank_fits helements hpos, fun h => localbank_exact helements hpos h.1 h.2.1 h.2.2⟩

/-- Eight elements on two cores. -/
theorem axpy_exact_two_cores :
    AxpyExact 3 (fun i => BitVec.ofNat 32 i) 8 2 (fun core => calcAxpy 3 8 core 2) ∧
      AxpyExact 3 (fun i => BitVec.ofNat 32 i) 8 2
        (fun core => calcAxpyUnloopX4Localbank 3 8 core 2) := by
  have h := axpy_exact 3 (fun i => BitVec.ofNat 32 i) (show 8 < 2 ^ 32 by decide)
    (show 0 < 2 by decide)
  exact ⟨h.1, h.2.2.mpr (by decide)⟩

/-- Of five elements nobody updates the last one. -/
theorem axpy_localbank_loses_element :
    ¬ AxpyExact 1 (fun _ => 1) 5 1 (fun core => calcAxpyUnloopX4Localbank 1 5 core 1) :=
  fun h => absurd (localbank_fits (by decide) (by decide) h).2.1 (by decide)

end TeraNoC.Kernels
