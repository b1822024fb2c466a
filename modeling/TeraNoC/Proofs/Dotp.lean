import Mathlib.Algebra.BigOperators.Group.List.Basic
import TeraNoC.Kernels.Dotp

/-!
# The parallel dot products

A core's sum is that of the products of the pairs it has multiplied (`DotpState.Sums`), so
that only the indices matter. The plain kernel gives every core a slice of `step` pairs.
The unrolled one takes fours from the slice, and the rest of it in a loop that runs up to
`step` instead of the end of the slice: on core 0 that is the same, and on the others the
loop does nothing.
-/

namespace TeraNoC.Kernels

open TeraNoC.Lib TeraNoC.Runtime

section Sums

variable {inA inB : Nat → Int32}

/-- The registers hold the products of the pairs. -/
def DotpState.Sums (inA inB : Nat → Int32) (s : DotpState) : Prop :=
  s.reduce = (s.pairs.map fun i => inA i * inB i).sum

theorem DotpState.Sums.mac {s : DotpState} (h : s.Sums inA inB) (i : Nat) :
    (dotpMac inA inB i s).Sums inA inB := by
  rw [DotpState.Sums, dotpMac, DotpState.reduce, List.map_append, List.sum_append, ← h,
    DotpState.reduce]
  simp only [List.map_cons, List.map_nil, List.sum_cons, List.sum_nil]
  ac_rfl

theorem DotpState.Sums.unrolled4 {s : DotpState} (h : s.Sums inA inB) (i : Nat) :
    (dotpUnrolled4Loop inA inB i s).Sums inA inB := by
  rw [DotpState.Sums, dotpUnrolled4Loop, DotpState.reduce, List.map_append, List.sum_append, ← h,
    DotpState.reduce]
  simp only [List.map_cons, List.map_nil, List.sum_cons, List.sum_nil]
  ac_rfl

/-- A loop that does its body for a list of indices. -/
theorem foldl_sums {body : Nat → DotpState → DotpState}
    (hbody : ∀ i s, s.Sums inA inB → (body i s).Sums inA inB) (is : List Nat) {s : DotpState}
    (h : s.Sums inA inB) : (is.foldl (fun s i => body i s) s).Sums inA inB := by
  induction is generalizing s with
  | nil => exact h
  | cons i is ih => exact ih (hbody i s h)

end Sums

/-! ## The pairs of a core -/

section Core

variable {inA inB : Nat → Int32} {len nPE core a b n fuel : Nat} {s : DotpState}

/-- The slices of the cores are inside the vectors. -/
theorem slice_le (len : Nat) (hcore : core < nPE) : core * (len / nPE) + len / nPE ≤ len := by
  rw [← Nat.succ_mul]
  exact (Nat.mul_le_mul_right _ hcore).trans (Nat.mul_div_le len nPE)

theorem u32_start (hlen : len < 2 ^ 32) (hcore : core < nPE) :
    u32 (core * (len / nPE)) = core * (len / nPE) :=
  u32_eq (((Nat.le_add_right _ _).trans (slice_le len hcore)).trans_lt hlen)

theorem u32_end (hlen : len < 2 ^ 32) (hcore : core < nPE) :
    u32 (core * (len / nPE) + len / nPE) = core * (len / nPE) + len / nPE :=
  u32_eq ((slice_le len hcore).trans_lt hlen)

theorem flatMap_fours (a n : Nat) :
    ((List.range n).flatMap fun k => List.range' (a + k * 4) 4) = List.range' a (n * 4) := by
  induction n with
  | zero => rfl
  | succ n ih =>
      rw [List.range_succ, List.flatMap_append, List.flatMap_singleton, ih, Nat.succ_mul]
      exact List.range'_append_1

theorem mac_loop (a : Nat) (hs : s.Sums inA inB) (hb : b < 2 ^ 32) :
    ∃ s', Ends (fun fuel => forLoop (fun i => i < b) (fun i => u32 (i + 1)) (dotpMac inA inB)
        fuel a s) s' ∧
      s'.Sums inA inB ∧ s'.pairs = s.pairs ++ List.range' a (b - a) := by
  rcases Nat.lt_or_ge a b with hab | hab
  · refine ⟨_, ⟨b - a, fun fuel hfuel => forLoop_add (n := b - a) (fun k hk => by omega)
      (by omega) (by omega) hfuel⟩, ?_, ?_⟩
    · exact foldl_sums (fun k s h => DotpState.Sums.mac h (a + k * 1)) _ hs
    · rw [foldl_appends DotpState.pairs (fun k => [a + k * 1]) (fun k s => rfl),
        List.range'_eq_map_range,
        List.map_eq_flatMap]
      simp only [Nat.mul_one]
  · refine ⟨s, ⟨0, fun fuel _ => forLoop_done (decide_eq_false (by omega))⟩, hs, ?_⟩
    rw [Nat.sub_eq_zero_of_le hab, List.range'_zero, List.append_nil]

theorem unrolled4_loop (hs : s.Sums inA inB) (hb : a + n * 4 < 2 ^ 32) :
    ∃ s', Ends (fun fuel => forLoop (fun i => i < a + n * 4) (fun i => u32 (i + 4))
        (dotpUnrolled4Loop inA inB) fuel a s) s' ∧
      s'.Sums inA inB ∧ s'.pairs = s.pairs ++ List.range' a (n * 4) := by
  refine ⟨_, ⟨n, fun fuel hfuel => forLoop_add (fun k hk => by omega) (Nat.le_refl _) hb hfuel⟩,
    ?_, ?_⟩
  · exact foldl_sums (fun k s h => DotpState.Sums.unrolled4 h (a + k * 4)) _ hs
  · rw [foldl_appends DotpState.pairs (fun k => List.range' (a + k * 4) 4) (fun k s => rfl),
      flatMap_fours]

theorem start_sums (inA inB : Nat → Int32) : DotpState.Sums inA inB {} := by
  rw [DotpState.Sums, DotpState.reduce]
  rfl

/-- The pairs of a core in the plain kernel. -/
theorem dotpI32p_ends (inA inB : Nat → Int32) (hlen : len < 2 ^ 32) (hcore : core < nPE) :
    ∃ s, Ends (dotpI32p inA inB len nPE core) s ∧ s.Sums inA inB ∧
      s.pairs = List.range' (core * (len / nPE)) (len / nPE) := by
  have hend := (slice_le len hcore).trans_lt hlen
  obtain ⟨s, hloop, hsums, hpairs⟩ :=
    mac_loop (core * (len / nPE)) (start_sums inA inB) hend
  rw [Nat.add_sub_cancel_left] at hpairs
  refine ⟨s, ?_, hsums, hpairs⟩
  unfold dotpI32p
  dsimp only
  rw [u32_start hlen hcore, u32_end hlen hcore]
  exact hloop

/-- The pairs of a core in the unrolled kernel: the fours of its slice, and on core 0 the
rest of it. -/
theorem dotpI32pUnrolled4_ends (inA inB : Nat → Int32) (hlen : len < 2 ^ 32)
    (hcore : core < nPE) :
    ∃ s, Ends (dotpI32pUnrolled4 inA inB len nPE core) s ∧ s.Sums inA inB ∧
      s.pairs = List.range' (core * (len / nPE)) (len / nPE - len / nPE % 4) ++
        if core = 0 then List.range' (len / nPE - len / nPE % 4) (len / nPE % 4) else [] := by
  have hend := (slice_le len hcore).trans_lt hlen
  have hstart := u32_start hlen hcore
  have hu32 := u32_end hlen hcore
  -- the slice is `n` fours and a rest
  obtain ⟨n, r, hr, hstep⟩ : ∃ n r, r < 4 ∧ len / nPE = n * 4 + r :=
    ⟨len / nPE / 4, len / nPE % 4, Nat.mod_lt _ (by decide), (Nat.div_add_mod' _ 4).symm⟩
  have hmod : (n * 4 + r) % 4 = r := by omega
  rw [hstep] at hend hstart hu32 ⊢
  rw [hmod, Nat.add_sub_cancel]
  have hsub : sub32 (core * (n * 4 + r) + (n * 4 + r)) r = core * (n * 4 + r) + n * 4 := by
    rw [sub32_eq (by omega) hend]
    omega
  obtain ⟨s₁, hloop₁, hsums₁, hpairs₁⟩ := unrolled4_loop (a := core * (n * 4 + r)) (n := n)
    (start_sums inA inB) (by omega)
  obtain ⟨s₂, hloop₂, hsums₂, hpairs₂⟩ :=
    mac_loop (core * (n * 4 + r) + n * 4) hsums₁ (b := n * 4 + r) (by omega)
  refine ⟨s₂, ?_, hsums₂, ?_⟩
  · unfold dotpI32pUnrolled4
    dsimp only
    rw [hstep, hmod, hstart, hu32, hsub]
    exact hloop₁.bind hloop₂
  · rw [hpairs₂, hpairs₁]
    congr 1
    by_cases h0 : core = 0
    · rw [if_pos h0, h0, Nat.zero_mul, Nat.zero_add, Nat.add_sub_cancel_left]
    · have hmul : n * 4 + r ≤ core * (n * 4 + r) := Nat.le_mul_of_pos_left _ (by omega)
      rw [if_neg h0, Nat.sub_eq_zero_of_le (by omega), List.range'_zero]

end Core

/-! ## All cores -/

section Cores

variable {inA inB : Nat → Int32} {len nPE : Nat} {s : Nat → DotpState}

theorem sum_reduce (hsums : ∀ core < nPE, (s core).Sums inA inB) :
    ((List.range nPE).map fun core => (s core).reduce).sum =
      (((List.range nPE).flatMap fun core => (s core).pairs).map fun i => inA i * inB i).sum := by
  induction nPE with
  | zero => rfl
  | succ n ih =>
      have hn := hsums n (Nat.lt_succ_self n)
      rw [DotpState.Sums] at hn
      rw [List.range_succ, List.map_append, List.sum_append, List.flatMap_append, List.map_append,
        List.sum_append, ih fun core hcore => hsums core (Nat.lt_succ_of_lt hcore),
        List.map_singleton, List.flatMap_singleton, ← hn, List.sum_singleton]

theorem flatMap_slices (step n : Nat) :
    ((List.range n).flatMap fun core => List.range' (core * step) step) =
      List.range (n * step) := by
  induction n with
  | zero => rw [Nat.zero_mul]; rfl
  | succ n ih =>
      rw [List.range_succ, List.flatMap_append, ih, List.flatMap_singleton, List.range_eq_range',
        List.range_eq_range', Nat.succ_mul, ← List.range'_append_1, Nat.zero_add]

/-- It is enough that the cores' pairs are all the pairs, one after the other. -/
theorem exact_of_pairs {kernel : Nat → Nat → Option DotpState}
    (hends : ∀ core < nPE, Ends (kernel core) (s core))
    (hsums : ∀ core < nPE, (s core).Sums inA inB)
    (hpairs : ((List.range nPE).flatMap fun core => (s core).pairs) = List.range len) :
    DotpExact inA inB len nPE kernel := by
  refine ⟨s, hends, ?_, fun i => ?_⟩
  · rw [sum_reduce hsums, hpairs]
    rfl
  · rw [hpairs, List.nodup_range.count]
    simp only [List.mem_range]

theorem dotp_i32p_exact (hlen : len < 2 ^ 32) (hdvd : nPE ∣ len) :
    DotpExact inA inB len nPE (dotpI32p inA inB len nPE) := by
  choose! s hends hsums hpairs using fun core (hcore : core < nPE) =>
    dotpI32p_ends inA inB hlen hcore
  refine exact_of_pairs hends hsums ?_
  rw [List.flatMap_congr fun core hcore => hpairs core (List.mem_range.mp hcore), flatMap_slices,
    Nat.mul_div_cancel' hdvd]

/-- The plain kernel is exact; the unrolled one is if there is only one core, or if its slices
have no rest modulo four. -/
theorem dotp_i32p_unrolled4_exact_iff (inA inB : Nat → Int32) (hlen : len < 2 ^ 32)
    (hdvd : nPE ∣ len) :
    DotpExact inA inB len nPE (dotpI32p inA inB len nPE) ∧
      (DotpExact inA inB len nPE (dotpI32pUnrolled4 inA inB len nPE) ↔
        nPE = 1 ∨ len / nPE % 4 = 0) := by
  refine ⟨dotp_i32p_exact hlen hdvd, ?_⟩
  choose! s hends hsums hpairs using fun core (hcore : core < nPE) =>
    dotpI32pUnrolled4_ends inA inB hlen hcore
  have hmul : nPE * (len / nPE) = len := Nat.mul_div_cancel' hdvd
  constructor
  · rintro ⟨s', hends', -, hcount⟩
    by_contra hno
    obtain ⟨hone, hrest⟩ := not_or.mp hno
    have htwo : 2 ≤ nPE := by
      have hpos : nPE ≠ 0 := by
        rintro rfl
        exact hrest (by rw [Nat.div_zero])
      omega
    generalize len / nPE = step at hpairs hmul hrest
    -- the last pair of core 1 is nobody's
    have hlast : 2 * step - 1 < len := by
      have := Nat.mul_le_mul_right step htwo
      omega
    have hzero := hcount (2 * step - 1)
    rw [if_pos hlast] at hzero
    have hmem := List.count_pos_iff.mp (Nat.lt_of_lt_of_eq Nat.zero_lt_one hzero.symm)
    obtain ⟨core, hcore, hin⟩ := List.mem_flatMap.mp hmem
    have hcore := List.mem_range.mp hcore
    rw [(hends' core hcore).unique (hends core hcore), hpairs core hcore, List.mem_append,
      List.mem_range'_1] at hin
    rcases core with _ | _ | core
    · rw [Nat.zero_mul, if_pos rfl, List.mem_range'_1] at hin
      omega
    · rw [if_neg (by omega), Nat.one_mul] at hin
      rcases hin with hin | hin
      · omega
      · cases hin
    · have hge : 2 * step ≤ (core + 1 + 1) * step := Nat.mul_le_mul_right step (by omega)
      rw [if_neg (by omega)] at hin
      rcases hin with hin | hin
      · omega
      · cases hin
  · rintro (rfl | hrest)
    · refine exact_of_pairs hends hsums ?_
      rw [Nat.div_one] at hpairs
      rw [List.range_one, List.flatMap_singleton, hpairs 0 (by decide), if_pos rfl, Nat.zero_mul,
        List.range_eq_range']
      have hsplit : len - len % 4 + len % 4 = len := Nat.sub_add_cancel (Nat.mod_le len 4)
      conv_rhs => rw [← hsplit, ← List.range'_append_1, Nat.zero_add]
    · refine exact_of_pairs hends hsums ?_
      rw [hrest] at hpairs
      have hslice : ∀ core ∈ List.range nPE,
          (s core).pairs = List.range' (core * (len / nPE)) (len / nPE) := by
        intro core hcore
        rw [hpairs core (List.mem_range.mp hcore), Nat.sub_zero, List.range'_zero, ite_self,
          List.append_nil]
      rw [List.flatMap_congr hslice, flatMap_slices, hmul]

/-- Two cores with slices of four. -/
theorem dotp_i32p_unrolled4_exact_two_cores :
    DotpExact (fun i => BitVec.ofNat 32 i) (fun _ => 3) 8 2
      (dotpI32pUnrolled4 (fun i => BitVec.ofNat 32 i) (fun _ => 3) 8 2) :=
  (dotp_i32p_unrolled4_exact_iff _ _ (by decide) (by decide)).2.mpr (Or.inr (by decide))

/-- Two cores with slices of one pair each: the second core does nothing. -/
theorem dotp_i32p_unrolled4_loses_pair :
    ¬ DotpExact (fun _ => 1) (fun _ => 1) 2 2
      (dotpI32pUnrolled4 (fun _ => 1) (fun _ => 1) 2 2) := by
  rintro ⟨s, hends, -, hcount⟩
  have h₀ : Ends (dotpI32pUnrolled4 (fun _ => 1) (fun _ => 1) 2 2 0) ⟨1, 0, 0, 0, [0]⟩ :=
    ⟨1, fun fuel hfuel => by
      obtain ⟨fuel, rfl⟩ : ∃ f, fuel = f + 1 := ⟨fuel - 1, by omega⟩
      cases fuel <;> rfl⟩
  have h₁ : Ends (dotpI32pUnrolled4 (fun _ => 1) (fun _ => 1) 2 2 1) {} :=
    ⟨0, fun fuel _ => by cases fuel <;> rfl⟩
  have hone := hcount 1
  rw [List.range_succ, List.range_one, List.flatMap_append, List.flatMap_singleton,
    List.flatMap_singleton, (hends 0 (by decide)).unique h₀,
    (hends 1 (by decide)).unique h₁] at hone
  exact absurd hone (by decide)

end Cores

end TeraNoC.Kernels
