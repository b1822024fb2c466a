import TeraNoC.Kernels.LinearSolver
import TeraNoC.Proofs.Cholesky

/-!
# The triangular solvers
-/

namespace TeraNoC.Kernels

open TeraNoC.Lib TeraNoC.Runtime

section Lowtri

variable {fixedPoint numBanks n folded i fuel : Nat} {half : Int32} {m : SolverLoc → Int32}

/-- The right-hand side in memory. -/
def vectorAt (m : SolverLoc → Int32) (i : Nat) : Int32 := m (.input i)

/-- The solution of the lower triangular system in memory. -/
def lowerSolution (fixedPoint : Nat) (half : Int32) (offset : Nat) (m : SolverLoc → Int32) :
    Nat → Int32 :=
  forward (mulRound fixedPoint half) (fixDiv fixedPoint) (matrixAt offset .l m) (vectorAt m)

theorem lowtriRow_runs (hi : i < 2 ^ 32) (hfuel : i ≤ fuel) (m : SolverLoc → Int32) :
    let offset := rowOffset numBanks n folded
    (lowtriRow fixedPoint half .l .input numBanks n folded fuel i).Runs (fun _ => True)
      (fun _ => True) m ()
      (Function.update m (.input i) (fixDiv fixedPoint
        (vectorAt m i - ∑ j ∈ Finset.range i,
          mulRound fixedPoint half (vectorAt m j) (matrixAt offset .l m i j))
        (matrixAt offset .l m i i))) := by
  intro offset
  have hmod : 4 * (i / 4) + i % 4 = i := Nat.div_add_mod i 4
  have hsum : (unrolledSum (· - ·) (rowLane (mulRound fixedPoint half) SolverLoc.input
      fun j => SolverLoc.l (matIdx offset i j)) 4 i (i % 4) fuel (vectorAt m i)).Runs
      (fun _ => True) (fun _ => True) m
      (vectorAt m i + ∑ j ∈ Finset.range (4 * (i / 4) + i % 4),
        -mulRound fixedPoint half (vectorAt m j) (matrixAt offset .l m i j)) m :=
    unrolledSum_runs (fun s t => sub_eq_add_neg s t) (fun j _ => rowLane_runs trivial trivial)
      (by omega) hi hfuel
  rw [hmod, Finset.sum_neg_distrib, ← sub_eq_add_neg] at hsum
  exact (Prog.Runs.get trivial m).bind (hsum.bind ((Prog.Runs.get trivial m).bind
    (Prog.Runs.set trivial _ m)))

/-- Before row `i`, the first `i` elements are solved. -/
structure LowerPart (fixedPoint : Nat) (half : Int32) (offset : Nat) (m : SolverLoc → Int32)
    (i : Nat) (m' : SolverLoc → Int32) : Prop where
  frame : ∀ a, (∀ j < i, a ≠ .input j) → m' a = m a
  solved : ∀ j < i, vectorAt m' j = lowerSolution fixedPoint half offset m j

theorem LowerPart.next {offset : Nat} {m' : SolverLoc → Int32}
    (h : LowerPart fixedPoint half offset m i m') :
    LowerPart fixedPoint half offset m (i + 1)
      (Function.update m' (.input i) (fixDiv fixedPoint
        (vectorAt m' i - ∑ j ∈ Finset.range i,
          mulRound fixedPoint half (vectorAt m' j) (matrixAt offset .l m' i j))
        (matrixAt offset .l m' i i))) where
  frame := by
    intro a ha
    rw [Function.update_of_ne (ha i (Nat.lt_succ_self i))]
    exact h.frame a fun j hj => ha j (Nat.lt_succ_of_lt hj)
  solved := by
    intro j hj
    rcases Nat.lt_succ_iff_lt_or_eq.mp hj with hlt | rfl
    · rw [vectorAt, Function.update_of_ne fun heq => hlt.ne (SolverLoc.input.inj heq)]
      exact h.solved j hlt
    · have hrow (k : Nat) : matrixAt offset .l m' j k = matrixAt offset .l m j k :=
        h.frame _ fun _ _ heq => SolverLoc.noConfusion heq
      have hinput : vectorAt m' j = vectorAt m j :=
        h.frame _ fun k hk heq => hk.ne (SolverLoc.input.inj heq).symm
      rw [vectorAt, Function.update_self, lowerSolution, forward_eq, hinput, hrow]
      congr 2
      refine Finset.sum_congr rfl fun k hk => ?_
      rw [h.solved k (Finset.mem_range.mp hk), hrow]
      rfl

theorem lowtri_runs (fixedPoint : Nat) (half : Int32) (numBanks folded : Nat)
    (m : SolverLoc → Int32) (hn : n < 2 ^ 32) (hfuel : n ≤ fuel) :
    ∃ x m', (mempoolLowtrisolverQ32s fixedPoint half .l .input numBanks n folded fuel).Runs
      (fun _ => True) (fun _ => True) m x m' ∧
      LowerPart fixedPoint half (rowOffset numBanks n folded) m n m' := by
  obtain ⟨r, m', hloop, hpart⟩ := Prog.Runs.forLoop_range (R := fun _ => True) (W := fun _ => True)
    (M := 2 ^ 32) (fun i _ m' => LowerPart fixedPoint half (rowOffset numBanks n folded) m i m')
    (Nat.zero_le n) hn
    (fun i _ m' _ hi hI => ⟨(), _, lowtriRow_runs (by omega) (show i ≤ fuel by omega) m', hI.next⟩)
    (⟨fun _ _ => rfl, fun j hj => absurd hj (Nat.not_lt_zero j)⟩ :
      LowerPart fixedPoint half (rowOffset numBanks n folded) m 0 m) (show n - 0 ≤ fuel by omega)
  exact ⟨(), m', hloop.bind (Prog.Runs.ret () m'), hpart⟩

end Lowtri

section Uprtri

variable {fixedPoint numBanks n folded i fuel : Nat} {half : Int32} {m m' : SolverLoc → Int32}

theorem fromEnd_eq (hi : i < n) (hn : n < 2 ^ 32) : fromEnd n i = n - 1 - i := by
  rw [fromEnd, sub32_eq (show 1 ≤ n by omega) hn, sub32_eq (by omega) (by omega)]

/-- The solution of the upper triangular system in memory. -/
def upperSolution (fixedPoint : Nat) (half : Int32) (offset n : Nat) (m : SolverLoc → Int32) :
    Nat → Int32 :=
  backward (mulRound fixedPoint half) (fixDiv fixedPoint) (matrixAt offset .l m) (vectorAt m) n

/-- The lanes that a row of `mempool_uprtrisolver_q32s` takes off. -/
def uprtriLanes (n i : Nat) : Nat := 4 * ((n - 1 - i) / 4) + (n - i) % 4

/-- What a row takes off the right-hand side. -/
def takenOff (fixedPoint : Nat) (half : Int32) (offset n : Nat) (x : Nat → Int32)
    (m : SolverLoc → Int32) (i : Nat) : Int32 :=
  ∑ t ∈ Finset.range (uprtriLanes n i),
    mulRound fixedPoint half (x (n - 1 - t)) (matrixAt offset .l m (n - 1 - t) i)

theorem uprtriLanes_le (hi : i < n) : uprtriLanes n i ≤ n - i := by
  unfold uprtriLanes
  omega

theorem uprtriRow_runs (hi : i < n) (hn : n < 2 ^ 32) (hfuel : n ≤ fuel) (m : SolverLoc → Int32) :
    let offset := rowOffset numBanks n folded
    (uprtriRow fixedPoint half .l .input numBanks n folded fuel i).Runs (fun _ => True)
      (fun _ => True) m ()
      (Function.update m (.input i) (fixDiv fixedPoint
        (vectorAt m i - takenOff fixedPoint half offset n (vectorAt m) m i)
        (matrixAt offset .l m i i))) := by
  intro offset
  have hlanes := uprtriLanes_le hi
  have hsum : (unrolledSum (· - ·) (rowLane (mulRound fixedPoint half)
      (fun j => SolverLoc.input (fromEnd n j)) fun j => SolverLoc.l (matIdx offset (fromEnd n j) i))
      4 (fromEnd n i) (sub32 n i % 4) fuel (vectorAt m i)).Runs (fun _ => True) (fun _ => True) m
      (vectorAt m i + ∑ t ∈ Finset.range (4 * (fromEnd n i / 4) + sub32 n i % 4),
        -mulRound fixedPoint half (vectorAt m (n - 1 - t)) (matrixAt offset .l m (n - 1 - t) i))
      m := by
    rw [fromEnd_eq hi hn, sub32_eq hi.le hn]
    refine unrolledSum_runs (fun s t => sub_eq_add_neg s t) (fun t ht => ?_)
      (by unfold uprtriLanes at hlanes; omega) (by omega) (by omega)
    have ht : t < n := by
      unfold uprtriLanes at hlanes
      omega
    rw [← fromEnd_eq ht hn]
    exact rowLane_runs trivial trivial
  rw [fromEnd_eq hi hn, sub32_eq hi.le hn, Finset.sum_neg_distrib, ← sub_eq_add_neg] at hsum
  refine (Prog.Runs.get trivial m).bind ?_
  rw [fromEnd_eq hi hn, sub32_eq hi.le hn]
  exact hsum.bind ((Prog.Runs.get trivial m).bind (Prog.Runs.set trivial _ m))

/-- With what a row divides: a product too many is taken off, that of the row itself, or in
every fourth row the last three ones are not. -/
def uprtriRest (fixedPoint : Nat) (half : Int32) (offset n : Nat) (m : SolverLoc → Int32)
    (i : Nat) : Int32 :=
  let x := upperSolution fixedPoint half offset n m
  let product := fun j => mulRound fixedPoint half (x j) (matrixAt offset .l m j i)
  let rest := vectorAt m i - ∑ j ∈ Finset.Ico (i + 1) n, product j
  if (n - i) % 4 = 0 then rest + ∑ j ∈ Finset.Ico (i + 1) (i + 4), product j
  else rest - mulRound fixedPoint half (vectorAt m i) (matrixAt offset .l m i i)

/-- The rows from `i` on are right if no quotient after has suffered from the products that are
miscounted. -/
structure UpperPart (fixedPoint : Nat) (half : Int32) (offset n : Nat) (m : SolverLoc → Int32)
    (i : Nat) (m' : SolverLoc → Int32) : Prop where
  frame : ∀ a, (∀ j, i ≤ j → a ≠ .input j) → m' a = m a
  solved : (∀ j, i ≤ j → j < n → vectorAt m' j = upperSolution fixedPoint half offset n m j) ↔
    ∀ j, i ≤ j → j < n →
      fixDiv fixedPoint (uprtriRest fixedPoint half offset n m j) (matrixAt offset .l m j j) =
        upperSolution fixedPoint half offset n m j

section Row

variable {offset : Nat}

theorem UpperPart.matrix (h : UpperPart fixedPoint half offset n m (i + 1) m') (j k : Nat) :
    matrixAt offset .l m' j k = matrixAt offset .l m j k :=
  h.frame _ fun _ _ heq => SolverLoc.noConfusion heq

theorem UpperPart.input (h : UpperPart fixedPoint half offset n m (i + 1) m') :
    vectorAt m' i = vectorAt m i :=
  h.frame _ fun k hk heq => by
    have := SolverLoc.input.inj heq
    omega

/-- What the row divides, if the rows after it are right. -/
theorem UpperPart.rest_eq (h : UpperPart fixedPoint half offset n m (i + 1) m') (hi : i < n)
    (hsolved : ∀ j, i + 1 ≤ j → j < n →
      vectorAt m' j = upperSolution fixedPoint half offset n m j) :
    vectorAt m' i - takenOff fixedPoint half offset n (vectorAt m') m' i =
      uprtriRest fixedPoint half offset n m i := by
  have hterm (t : Nat) (ht : t < n - 1 - i) :
      mulRound fixedPoint half (vectorAt m' (n - 1 - t)) (matrixAt offset .l m' (n - 1 - t) i) =
        mulRound fixedPoint half (upperSolution fixedPoint half offset n m (n - 1 - t))
          (matrixAt offset .l m (n - 1 - t) i) := by
    rw [h.matrix, hsolved _ (by omega) (by omega)]
  unfold uprtriRest takenOff
  dsimp only
  split
  case isTrue hfour =>
    have hlanes : uprtriLanes n i = n - 1 - (i + 3) := by unfold uprtriLanes; omega
    have hsplit := Finset.sum_Ico_consecutive (fun j => mulRound fixedPoint half
      (upperSolution fixedPoint half offset n m j) (matrixAt offset .l m j i))
      (show i + 1 ≤ i + 4 by omega) (show i + 4 ≤ n by omega)
    rw [h.input, hlanes, ← hsplit, ← sum_after (show i + 3 < n by omega)]
    rw [Finset.sum_congr rfl fun t ht => hterm t (by have := Finset.mem_range.mp ht; omega)]
    abel
  case isFalse hother =>
    have hlanes : uprtriLanes n i = n - 1 - i + 1 := by unfold uprtriLanes; omega
    have hlast : n - 1 - (n - 1 - i) = i := by omega
    rw [h.input, hlanes, Finset.sum_range_succ, hlast, h.input, h.matrix, ← sum_after hi]
    rw [Finset.sum_congr rfl fun t ht => hterm t (by have := Finset.mem_range.mp ht; omega)]
    abel

end Row

theorem UpperPart.next (h : UpperPart fixedPoint half (rowOffset numBanks n folded) n m (i + 1) m')
    (hi : i < n) (hn : n < 2 ^ 32) (hfuel : n ≤ fuel) :
    ∃ m'', (uprtriRow fixedPoint half .l .input numBanks n folded fuel i).Runs (fun _ => True)
      (fun _ => True) m' () m'' ∧
      UpperPart fixedPoint half (rowOffset numBanks n folded) n m i m'' := by
  refine ⟨_, uprtriRow_runs hi hn hfuel m', fun a ha => ?_, ?_⟩
  · rw [Function.update_of_ne (ha i (Nat.le_refl i))]
    exact h.frame a fun j hj => ha j (by omega)
  · generalize hv : fixDiv fixedPoint _ _ = v
    have hlater {j : Nat} (hj : i < j) : vectorAt (Function.update m' (.input i) v) j =
        vectorAt m' j := by
      rw [vectorAt, Function.update_of_ne fun heq => hj.ne' (SolverLoc.input.inj heq)]
      rfl
    have hrow (hsolved : ∀ j, i + 1 ≤ j → j < n →
        vectorAt m' j = upperSolution fixedPoint half (rowOffset numBanks n folded) n m j) :
        vectorAt (Function.update m' (.input i) v) i =
          fixDiv fixedPoint (uprtriRest fixedPoint half (rowOffset numBanks n folded) n m i)
            (matrixAt (rowOffset numBanks n folded) .l m i i) := by
      rw [vectorAt, Function.update_self, ← hv, h.rest_eq hi hsolved, h.matrix]
    constructor
    · intro hsolved j hj hjn
      have hafter : ∀ j, i + 1 ≤ j → j < n →
          vectorAt m' j = upperSolution fixedPoint half (rowOffset numBanks n folded) n m j := by
        intro j hj hjn
        rw [← hlater hj]
        exact hsolved j (Nat.le_of_succ_le hj) hjn
      rcases Nat.eq_or_lt_of_le hj with rfl | hlt
      · rw [← hrow hafter]
        exact hsolved i hj hjn
      · exact h.solved.mp hafter j hlt hjn
    · intro hquotients j hj hjn
      have hafter := h.solved.mpr fun j hj hjn => hquotients j (Nat.le_of_succ_le hj) hjn
      rcases Nat.eq_or_lt_of_le hj with rfl | hlt
      · rw [hrow hafter]
        exact hquotients i hj hjn
      · rw [hlater hlt]
        exact hafter j hlt hjn

theorem uprtri_runs (fixedPoint : Nat) (half : Int32) (numBanks folded : Nat)
    (m : SolverLoc → Int32) (hpos : 0 < n) (hn : n < 2 ^ 32) (hfuel : n ≤ fuel) :
    ∃ x m', (mempoolUprtrisolverQ32s fixedPoint half .l .input numBanks n folded fuel).Runs
      (fun _ => True) (fun _ => True) m x m' ∧
      UpperPart fixedPoint half (rowOffset numBanks n folded) n m 0 m' := by
  have hcounter (k : Nat) (hk : k < n) : sub32 (n - 1) k = n - 1 - k :=
    sub32_eq (by omega) (by omega)
  have hend : sub32 (n - 1) n = 2 ^ 32 - 1 := by
    rw [sub32, u32_eq (by omega)]
    omega
  obtain ⟨r, m', hloop, hpart⟩ : ∃ r m', (Prog.forLoop (fun i => i < n) (fun i => sub32 i 1)
      (fun i _ => uprtriRow fixedPoint half .l .input numBanks n folded fuel i) fuel
      (sub32 (n - 1) 0) ()).Runs (fun _ => True) (fun _ => True) m (sub32 (n - 1) n, r) m' ∧
      UpperPart fixedPoint half (rowOffset numBanks n folded) n m (n - n) m' := by
    refine Prog.Runs.forLoop (fun k => sub32 (n - 1) k)
      (fun k _ m' => UpperPart fixedPoint half (rowOffset numBanks n folded) n m (n - k) m')
      (fun k hk => decide_eq_true ?_) (decide_eq_false ?_) (fun k hk => ?_)
      (fun k r m' hk hI => ?_) ⟨fun _ _ => rfl, ?_⟩ hfuel
    · rw [hcounter k hk]
      omega
    · rw [hend]
      omega
    · rw [hcounter k hk, sub32, sub32]
      congr 1
      omega
    · rw [hcounter k hk]
      have hrow : n - k = n - 1 - k + 1 := by omega
      rw [hrow] at hI
      obtain ⟨m'', hrun, hnext⟩ := hI.next (show n - 1 - k < n by omega) hn hfuel
      have hrow' : n - (k + 1) = n - 1 - k := by omega
      rw [hrow']
      exact ⟨(), m'', hrun, hnext⟩
    · exact ⟨fun _ j hj hjn => by omega, fun _ j hj hjn => by omega⟩
  rw [hcounter 0 hpos, Nat.sub_zero] at hloop
  rw [Nat.sub_self] at hpart
  refine ⟨(), m', ?_, hpart⟩
  unfold mempoolUprtrisolverQ32s
  rw [sub32_eq hpos hn]
  exact hloop.bind (Prog.Runs.ret () m')

/-- What the two solvers should leave. -/
structure SolversExact (fixedPoint : Nat) (half : Int32) (numBanks n folded : Nat)
    (m : SolverLoc → Int32) : Prop where
  lower : Prog.Leaves (mempoolLowtrisolverQ32s fixedPoint half .l .input numBanks n folded) m
    fun m' => ∀ i < n, vectorAt m' i =
      lowerSolution fixedPoint half (rowOffset numBanks n folded) m i
  upper : Prog.Leaves (mempoolUprtrisolverQ32s fixedPoint half .l .input numBanks n folded) m
    fun m' => ∀ i < n, vectorAt m' i =
      upperSolution fixedPoint half (rowOffset numBanks n folded) n m i

/-- Forward substitution is right. Backward substitution is right exactly if no quotient
changes with the products that its remainder miscounts. -/
theorem trisolvers_exact_iff (fixedPoint : Nat) (half : Int32) (numBanks folded : Nat)
    (m : SolverLoc → Int32) (hpos : 0 < n) (hn : n < 2 ^ 32) :
    SolversExact fixedPoint half numBanks n folded m ↔ ∀ i < n,
      fixDiv fixedPoint (uprtriRest fixedPoint half (rowOffset numBanks n folded) n m i)
        (matrixAt (rowOffset numBanks n folded) .l m i i) =
          upperSolution fixedPoint half (rowOffset numBanks n folded) n m i := by
  have hlower : Prog.Leaves (mempoolLowtrisolverQ32s fixedPoint half .l .input numBanks n folded) m
      fun m' => ∀ i < n, vectorAt m' i =
        lowerSolution fixedPoint half (rowOffset numBanks n folded) m i :=
    ⟨n, fun fuel hfuel => by
      obtain ⟨x, m', hrun, hpart⟩ := lowtri_runs fixedPoint half numBanks folded m hn hfuel
      exact ⟨x, m', hrun.run, hpart.solved⟩⟩
  have hupper : Prog.Leaves (mempoolUprtrisolverQ32s fixedPoint half .l .input numBanks n folded) m
      (fun m' => ∀ i < n, vectorAt m' i =
        upperSolution fixedPoint half (rowOffset numBanks n folded) n m i) ↔ ∀ i < n,
      fixDiv fixedPoint (uprtriRest fixedPoint half (rowOffset numBanks n folded) n m i)
        (matrixAt (rowOffset numBanks n folded) .l m i i) =
          upperSolution fixedPoint half (rowOffset numBanks n folded) n m i := by
    refine Prog.leaves_iff n fun fuel hfuel => ?_
    obtain ⟨x, m', hrun, hpart⟩ := uprtri_runs fixedPoint half numBanks folded m hpos hn hfuel
    refine ⟨x, m', hrun.run, ⟨fun hsolved i hi => ?_, fun hquotients i hi => ?_⟩⟩
    · exact hpart.solved.mp (fun j _ hj => hsolved j hj) i (Nat.zero_le i) hi
    · exact hpart.solved.mpr (fun j _ hj => hquotients j hj) i (Nat.zero_le i) hi
  exact ⟨fun h => hupper.mp h.upper, fun h => ⟨hlower, hupper.mpr h⟩⟩

/-- Elements that are all one, with ten binary digits, and the first unit vector. -/
def unitSystem : SolverLoc → Int32
  | .src _ => 0
  | .l _ => 1024
  | .input i => if i = 0 then 1024 else 0

theorem trisolvers_exact_unit : SolversExact 10 1023 1024 4 0 unitSystem ∧
    upperSolution 10 1023 (rowOffset 1024 4 0) 4 unitSystem 0 = 1024 :=
  ⟨(trisolvers_exact_iff 10 1023 1024 0 unitSystem (by decide) (by decide)).mpr
    (by decide +kernel), by decide +kernel⟩

/-- A system whose elements are all one, with ten binary digits, and a constant right-hand
side. -/
def onesSystem (y : Int32) : SolverLoc → Int32
  | .src _ => 0
  | .l _ => 1024
  | .input _ => y

/-- The equation `x = 1` is solved by `x = 0`. -/
theorem trisolvers_exact_one : ¬ SolversExact 10 1023 1024 1 0 (onesSystem 1024) := by
  rintro ⟨-, bound, hleaves⟩
  obtain ⟨x, m', hrun, hsolved⟩ := hleaves (max bound 1) (Nat.le_max_left _ _)
  obtain ⟨x', m'', hrun', hpart⟩ := uprtri_runs 10 1023 1024 0 (onesSystem 1024) (n := 1)
    (by decide) (by decide) (Nat.le_max_right bound 1)
  rw [hrun'.run] at hrun
  cases hrun
  exact absurd (hpart.solved.mp (fun j _ hj => hsolved j hj) 0 (Nat.le_refl 0) (by decide))
    (by decide +kernel)

end Uprtri

end TeraNoC.Kernels
