import Mathlib.Tactic.Abel
import TeraNoC.Kernels.Cholesky
import TeraNoC.Proofs.FixedPoint

/-!
# The single-core decompositions
-/

namespace TeraNoC.Kernels

open TeraNoC.Lib TeraNoC.Runtime

/-! ## Blocks of lanes -/

section Blocks

variable {A : Type} [DecidableEq A] {R W : A → Prop} {m : A → Int32}
  {op : Int32 → Int32 → Int32} {g : Int32 → Int32} {term : Nat → Prog A Int32 Int32}
  {t : Nat → Int32} {lanes k bound rest fuel : Nat} {sum : Int32}

theorem accumulate_runs (hop : ∀ s t, op s t = s + g t)
    (hterm : ∀ d < lanes, (term (k + d)).Runs R W m (t (k + d)) m) (hfit : k + lanes < 2 ^ 32) :
    (accumulate op term lanes k sum).Runs R W m (sum + ∑ d ∈ Finset.range lanes, g (t (k + d)))
      m := by
  induction lanes generalizing k sum with
  | zero =>
      rw [Finset.sum_range_zero, add_zero]
      exact Prog.Runs.ret sum m
  | succ lanes ih =>
      have hrest : (accumulate op term lanes (k + 1) (op sum (t (k + 0)))).Runs R W m
          (op sum (t (k + 0)) + ∑ d ∈ Finset.range lanes, g (t (k + 1 + d))) m := by
        refine ih (fun d hd => ?_) (by omega)
        have hnext := hterm (d + 1) (by omega)
        rwa [← Nat.add_assoc, Nat.add_right_comm] at hnext
      have hsum : sum + ∑ d ∈ Finset.range (lanes + 1), g (t (k + d)) =
          op sum (t (k + 0)) + ∑ d ∈ Finset.range lanes, g (t (k + 1 + d)) := by
        rw [Finset.sum_range_succ', hop, add_assoc, add_comm (∑ d ∈ _, _)]
        congr 2
        refine Finset.sum_congr rfl fun d _ => ?_
        rw [Nat.add_right_comm, Nat.add_assoc]
      rw [hsum]
      refine (hterm 0 (Nat.succ_pos lanes)).bind ?_
      rw [u32_eq (by omega)]
      exact hrest

theorem fours_eq (hbound : bound < 2 ^ 32) : u32 (4 * (bound >>> 2)) = 4 * (bound / 4) := by
  rw [Nat.shiftRight_eq_div_pow, u32_eq (by omega)]

/-- Blocks one after the other: every lane is counted once. -/
theorem accumulateLoop_runs {a b n : Nat} (hop : ∀ s t, op s t = s + g t)
    (hterm : ∀ k < b, (term k).Runs R W m (t k) m) (hlanes : 0 < lanes) (hb : b = a + n * lanes)
    (hfit : b < 2 ^ 32) (hfuel : n ≤ fuel) :
    (Prog.forLoop (fun k => k < b) (fun k => u32 (k + lanes)) (accumulate op term lanes) fuel a
      (sum + ∑ x ∈ Finset.range a, g (t x))).Runs R W m
      (b, sum + ∑ x ∈ Finset.range b, g (t x)) m := by
  subst hb
  have hle : ∀ k < n, k * lanes + lanes ≤ n * lanes := by
    intro k hk
    rw [← Nat.succ_mul]
    exact Nat.mul_le_mul_right lanes hk
  obtain ⟨s, m', hloop, rfl, rfl⟩ : ∃ s m', (Prog.forLoop (fun k => k < a + n * lanes)
      (fun k => (k + lanes) % 2 ^ 32) (accumulate op term lanes) fuel a
      (sum + ∑ x ∈ Finset.range a, g (t x))).Runs R W m (a + n * lanes, s) m' ∧
      s = sum + ∑ x ∈ Finset.range (a + n * lanes), g (t x) ∧ m' = m := by
    refine Prog.Runs.forLoop_add
      (fun k s m' => s = sum + ∑ x ∈ Finset.range (a + k * lanes), g (t x) ∧ m' = m)
      (fun k hk => ?_) (Nat.le_refl _) hfit (fun k s m' hk hI => ?_)
      ⟨by rw [Nat.zero_mul]; rfl, rfl⟩
      hfuel
    · have := hle k hk
      omega
    · have := hle k hk
      obtain ⟨rfl, rfl⟩ := hI
      refine ⟨_, _, accumulate_runs (k := a + k * lanes) hop (fun d hd => hterm _ (by omega))
        (by omega), ?_, rfl⟩
      rw [Nat.succ_mul, ← Nat.add_assoc, Finset.sum_range_add _ (a + k * lanes), add_assoc]
  exact hloop

theorem unrolledSum_runs (hop : ∀ s t, op s t = s + g t)
    (hterm : ∀ k < 4 * (bound / 4) + rest, (term k).Runs R W m (t k) m)
    (hfit : 4 * (bound / 4) + rest < 2 ^ 32) (hbound : bound < 2 ^ 32) (hfuel : bound ≤ fuel) :
    (unrolledSum op term 4 bound rest fuel sum).Runs R W m
      (sum + ∑ k ∈ Finset.range (4 * (bound / 4) + rest), g (t k)) m := by
  have hloop : (Prog.forLoop (fun k => k < 4 * (bound / 4)) (fun k => u32 (k + 4))
      (accumulate op term 4) fuel 0 (sum + ∑ x ∈ Finset.range 0, g (t x))).Runs R W m
      (4 * (bound / 4), sum + ∑ x ∈ Finset.range (4 * (bound / 4)), g (t x)) m :=
    accumulateLoop_runs (n := bound / 4) hop (fun k hk => hterm k (Nat.lt_add_right rest hk))
      (by decide) (by omega) (by omega) (by omega)
  rw [Finset.sum_range_zero, add_zero] at hloop
  rw [Finset.sum_range_add, ← add_assoc]
  unfold unrolledSum
  rw [fours_eq hbound]
  exact hloop.bind (accumulate_runs hop (fun d hd => hterm _ (by omega)) hfit)

/-- What a loop over blocks of four adds up if it counts by one. -/
def overlappedSum (t : Nat → Int32) (bound rest : Nat) : Int32 :=
  ∑ k ∈ Finset.range (4 * (bound / 4)), ∑ d ∈ Finset.range 4, t (k + d) +
    ∑ d ∈ Finset.range rest, t (4 * (bound / 4) + d)

theorem overlapped_runs (hterm : ∀ k < 4 * (bound / 4) + 3, (term k).Runs R W m (t k) m)
    (hrest : rest < 4) (hfit : 4 * (bound / 4) + 3 < 2 ^ 32) (hbound : bound < 2 ^ 32)
    (hfuel : bound ≤ fuel) :
    (unrolledSum (· + ·) term 1 bound rest fuel 0).Runs R W m (overlappedSum t bound rest) m := by
  have hop : ∀ s t : Int32, s + t = s + id t := fun _ _ => rfl
  obtain ⟨s, m', hloop, rfl, rfl⟩ : ∃ s m', (Prog.forLoop (fun k => k < 4 * (bound / 4))
      (fun k => (k + 1) % 2 ^ 32) (accumulate (· + ·) term 4) fuel 0 0).Runs R W m
        (4 * (bound / 4), s) m' ∧
      s = ∑ k ∈ Finset.range (4 * (bound / 4)), ∑ d ∈ Finset.range 4, t (k + d) ∧ m' = m := by
    refine Prog.Runs.forLoop_range
      (fun n s m' => s = ∑ k ∈ Finset.range n, ∑ d ∈ Finset.range 4, t (k + d) ∧ m' = m)
      (Nat.zero_le _) (by omega) (fun k s m' _ hk hI => ?_)
      ⟨by rw [Finset.sum_range_zero], rfl⟩ (by omega)
    obtain ⟨rfl, rfl⟩ := hI
    refine ⟨_, _, accumulate_runs (k := k) hop (fun d hd => hterm (k + d) (by omega)) (by omega),
      ?_, rfl⟩
    exact (Finset.sum_range_succ _ k).symm
  unfold unrolledSum overlappedSum
  rw [fours_eq hbound]
  refine hloop.bind ?_
  exact accumulate_runs hop (fun d hd => hterm _ (by omega)) (by omega)

/-- Up to three lanes nothing overlaps. -/
theorem overlappedSum_small (t : Nat → Int32) (h : bound < 4) :
    overlappedSum t bound rest = ∑ d ∈ Finset.range rest, t d := by
  rw [overlappedSum, Nat.div_eq_of_lt h, Nat.mul_zero, Finset.sum_range_zero, zero_add]
  simp only [Nat.zero_add]

end Blocks

/-! ## Lanes and calls -/

section Lanes

variable {A : Type} [DecidableEq A] {R W : A → Prop} {m : A → Int32}
  {mul : Int32 → Int32 → Int32} {row row' : Nat → A} {k fixedPoint fuel : Nat}

theorem rowLane_runs (h : R (row k)) (h' : R (row' k)) :
    (rowLane mul row row' k).Runs R W m (mul (m (row k)) (m (row' k))) m :=
  (Prog.Runs.get h m).bind ((Prog.Runs.get h' m).bind (Prog.Runs.ret _ m))

theorem squareLane_runs (h : R (row k)) :
    (squareLane mul row k).Runs R W m (mul (m (row k)) (m (row k))) m :=
  (Prog.Runs.get h m).bind (Prog.Runs.ret _ m)

theorem sqrtCall_runs (number : Int32) (hfuel : 46343 ≤ fuel) :
    (sqrtCall fixedPoint fuel number : Prog A Int32 Int32).Runs R W m (sqrtQ32s fixedPoint number)
      m := by
  rw [sqrtCall, mempoolSqrtQ32s_eq fixedPoint number hfuel]
  exact Prog.Runs.ret _ m

end Lanes

/-! ## Matrices -/

section Matrices

variable {n i j i' j' : Nat}

theorem index_lt_square (hi : i < n) (hj : j < n) : i * n + j < n * n := by
  have := Nat.mul_le_mul_right n (show i + 1 ≤ n from hi)
  rw [Nat.succ_mul] at this
  omega

theorem matIdx_eq (hfit : n * n ≤ 2 ^ 32) (hi : i < n) (hj : j < n) :
    matIdx n i j = i * n + j := by
  have := index_lt_square hi hj
  rw [matIdx, u32_eq (show i * n < 2 ^ 32 by omega), u32_eq (by omega)]

theorem order_le (hfit : n * n ≤ 2 ^ 32) : n ≤ 2 ^ 16 := by
  by_contra h
  have := Nat.mul_le_mul (Nat.not_le.mp h) (Nat.not_le.mp h)
  omega

theorem matIdx_inj (hfit : n * n ≤ 2 ^ 32) (hi : i < n) (hj : j < n) (hi' : i' < n) (hj' : j' < n)
    (h : matIdx n i j = matIdx n i' j') : i = i' ∧ j = j' := by
  rw [matIdx_eq hfit hi hj, matIdx_eq hfit hi' hj'] at h
  have hpos := Nat.zero_lt_of_lt hi
  have hrow : (j + n * i) / n = i := by
    rw [Nat.add_mul_div_left j i hpos, Nat.div_eq_of_lt hj, Nat.zero_add]
  have hrow' : (j' + n * i') / n = i' := by
    rw [Nat.add_mul_div_left j' i' hpos, Nat.div_eq_of_lt hj', Nat.zero_add]
  have heq : j + n * i = j' + n * i' := by
    rw [Nat.mul_comm n i, Nat.mul_comm n i']
    omega
  rw [heq, hrow'] at hrow
  subst hrow
  omega

end Matrices

/-! ## Banachiewicz -/

section Banachiewicz

variable {fixedPoint n i j fuel : Nat} {m : SolverLoc → Int32} {result : Int32}

/-- The matrix that an array holds. -/
def matrixAt (n : Nat) (p : Nat → SolverLoc) (m : SolverLoc → Int32) (i j : Nat) : Int32 :=
  m (p (matIdx n i j))

theorem banachiewiczSum_runs {R W : SolverLoc → Prop} (hR : ∀ a, R a) {l : Nat}
    (hl : l < 2 ^ 32) (hfuel : l ≤ fuel) :
    (banachiewiczSum fixedPoint .l n fuel i j l).Runs R W m
      (l, ∑ k ∈ Finset.range l, mulTrunc fixedPoint (matrixAt n .l m i k) (matrixAt n .l m j k))
      m := by
  have hop : ∀ s t : Int32, s + t = s + id t := fun _ _ => rfl
  have hlane (k : Nat) : (rowLane (mulTrunc fixedPoint) (fun k => SolverLoc.l (matIdx n i k))
      (fun k => SolverLoc.l (matIdx n j k)) k).Runs R W m
      (mulTrunc fixedPoint (matrixAt n .l m i k) (matrixAt n .l m j k)) m :=
    rowLane_runs (hR _) (hR _)
  have hfours : u32 (4 * (l >>> 2)) = 0 + l / 4 * 4 := by rw [fours_eq hl]; omega
  have htwos : u32 (2 * (l >>> 1)) = u32 (4 * (l >>> 2)) + (l / 2 - 2 * (l / 4)) * 2 := by
    rw [fours_eq hl, Nat.shiftRight_eq_div_pow, u32_eq (by omega)]
    omega
  have hones : l = u32 (2 * (l >>> 1)) + (l - 2 * (l / 2)) * 1 := by
    rw [Nat.shiftRight_eq_div_pow, u32_eq (by omega)]
    omega
  have hzero : (0 : Int32) = 0 + ∑ k ∈ Finset.range 0,
      mulTrunc fixedPoint (matrixAt n .l m i k) (matrixAt n .l m j k) := rfl
  unfold banachiewiczSum
  rw [hzero]
  refine (accumulateLoop_runs hop (fun k _ => hlane k) (by decide) hfours (by omega)
    (by omega)).bind ?_
  refine (accumulateLoop_runs hop (fun k _ => hlane k) (by decide) htwos (by omega)
    (by omega)).bind ?_
  rw [← zero_add (∑ k ∈ Finset.range l, _)]
  exact accumulateLoop_runs hop (fun k _ => hlane k) Nat.one_pos hones hl (by omega)

/-- What the element in row `i` and column `j` leaves out of the pivot: the last product is
not of an element in memory. -/
def pendingSum (fixedPoint : Nat) (L : Nat → Nat → Int32) (i j : Nat) (result : Int32) : Int32 :=
  ∑ k ∈ Finset.range (j - 1), mulTrunc fixedPoint (L i k) (L j k) +
    mulTrunc fixedPoint result (L j (j - 1))

/-- The locations of a row. -/
def RowLoc (n i : Nat) (a : SolverLoc) : Prop := ∃ b ≤ i, a = .l (matIdx n i b)

theorem banachiewiczElement_first (h : 0 < i) :
    (banachiewiczElement fixedPoint .src .l n fuel i 0 result).Runs (fun _ => True) (RowLoc n i) m
      (fixDiv fixedPoint (matrixAt n .src m i 0) (matrixAt n .l m 0 0)) m := by
  unfold banachiewiczElement
  refine (Prog.Runs.get trivial m).bind ((Prog.Runs.get trivial m).bind ?_)
  dsimp only
  rw [if_neg (Nat.lt_irrefl 0)]
  refine (Prog.Runs.ret 0 m).bind ?_
  rw [if_neg h.ne, sub_zero]
  exact Prog.Runs.ret _ m

/-- The store of the element before, and the new one. -/
theorem banachiewiczElement_runs (fixedPoint n : Nat) (m : SolverLoc → Int32) (result : Int32)
    (hj : 0 < j) (hji : j ≤ i) (hi : i < 2 ^ 32) (hfuel : 46343 ≤ fuel) (hfuel' : i ≤ fuel) :
    let pending := Function.update m (.l (matIdx n i (j - 1))) result
    let rest := matrixAt n .src m i j - pendingSum fixedPoint (matrixAt n .l m) i j result
    (banachiewiczElement fixedPoint .src .l n fuel i j result).Runs (fun _ => True) (RowLoc n i) m
      (if j = i then result else fixDiv fixedPoint rest (matrixAt n .l m j j))
      (if j = i then Function.update pending (.l (matIdx n i j)) (sqrtQ32s fixedPoint rest)
        else pending) := by
  intro pending rest
  have hl : sub32 j 1 = j - 1 := sub32_eq hj (by omega)
  unfold banachiewiczElement
  refine (Prog.Runs.get trivial m).bind ((Prog.Runs.get trivial m).bind ?_)
  dsimp only
  rw [if_pos hj, hl]
  refine (banachiewiczSum_runs (fun _ => trivial) (by omega) (by omega)).bind ?_
  refine (Prog.Runs.get trivial m).bind ?_
  refine (Prog.Runs.set ⟨j - 1, by omega, rfl⟩ result m).bind ?_
  refine (Prog.Runs.ret (pendingSum fixedPoint (matrixAt n .l m) i j result) pending).bind ?_
  split
  · exact (sqrtCall_runs rest hfuel).bind
      ((Prog.Runs.set ⟨j, hji, rfl⟩ _ pending).bind (Prog.Runs.ret result _))
  · exact Prog.Runs.ret _ pending

theorem matrixAt_update {i' j' : Nat} (hfit : n * n ≤ 2 ^ 32) (hi : i < n) (hj : j < n)
    (hi' : i' < n) (hj' : j' < n) (m : SolverLoc → Int32) (v : Int32) :
    matrixAt n .l (Function.update m (.l (matIdx n i' j')) v) i j =
      if i = i' ∧ j = j' then v else matrixAt n .l m i j := by
  rw [matrixAt, Function.update_apply]
  refine if_congr ⟨fun h => ?_, ?_⟩ rfl rfl
  · exact matIdx_inj hfit hi hj hi' hj' (SolverLoc.l.inj h)
  · rintro ⟨rfl, rfl⟩
    rfl

/-- The factor of the matrix in memory, with truncated products. -/
def truncFactor (fixedPoint n : Nat) (m : SolverLoc → Int32) : Nat → Nat → Int32 :=
  cholesky (mulTrunc fixedPoint) (fixDiv fixedPoint) (sqrtQ32s fixedPoint) (matrixAt n .src m)

/-- What the kernel takes the root of in row `i`: it reads the element next to the diagonal
before it stores it. -/
def staleSum (fixedPoint n : Nat) (m : SolverLoc → Int32) (i : Nat) : Int32 :=
  let L := truncFactor fixedPoint n m
  ∑ k ∈ Finset.range (i - 1), mulTrunc fixedPoint (L i k) (L i k) +
    mulTrunc fixedPoint (L i (i - 1)) (matrixAt n .l m i (i - 1))

/-- Before column `j`, the elements up to column `j - 2` are stored. -/
structure RowPart (fixedPoint n : Nat) (m : SolverLoc → Int32) (i j : Nat) (result : Int32)
    (m' : SolverLoc → Int32) : Prop where
  frame : ∀ a, (∀ b, b + 1 < j → a ≠ .l (matIdx n i b)) → m' a = m a
  stored : ∀ b, b + 1 < j → matrixAt n .l m' i b = truncFactor fixedPoint n m i b
  result : 0 < j → result = truncFactor fixedPoint n m i (j - 1)

theorem sum_pred {f : Nat → Int32} (hj : 0 < j) :
    ∑ k ∈ Finset.range (j - 1), f k + f (j - 1) = ∑ k ∈ Finset.range j, f k := by
  obtain ⟨d, rfl⟩ : ∃ d, j = d + 1 := ⟨j - 1, by omega⟩
  exact (Finset.sum_range_succ f d).symm

section Row

variable {m' : SolverLoc → Int32} (hfit : n * n ≤ 2 ^ 32) (hi : i < n)
  (hrows : ∀ a < i, ∀ b ≤ a, matrixAt n .l m a b = truncFactor fixedPoint n m a b)

include hfit hi in
theorem RowPart.other_row (h : RowPart fixedPoint n m i j result m') (hji : j ≤ i) {a b : Nat}
    (ha : a < i) (hb : b ≤ a) : matrixAt n .l m' a b = matrixAt n .l m a b := by
  refine h.frame _ fun c hc heq => ?_
  have := (matIdx_inj hfit (by omega) (by omega) hi (by omega) (SolverLoc.l.inj heq)).1
  omega

include hfit hi hrows in
/-- In the columns before the diagonal, what the pivot is less of is the sum of the
recurrence. -/
theorem RowPart.pendingSum_eq (h : RowPart fixedPoint n m i j result m') (hj : 0 < j)
    (hji : j < i) : pendingSum fixedPoint (matrixAt n .l m') i j result =
      ∑ k ∈ Finset.range j, mulTrunc fixedPoint (truncFactor fixedPoint n m i k)
        (truncFactor fixedPoint n m j k) := by
  have hrow (k : Nat) (hk : k ≤ j) :
      matrixAt n .l m' j k = truncFactor fixedPoint n m j k := by
    rw [h.other_row hfit hi hji.le hji hk, hrows j hji k hk]
  rw [pendingSum, ← sum_pred hj, h.result hj, hrow (j - 1) (by omega)]
  congr 1
  refine Finset.sum_congr rfl fun k hk => ?_
  have hk := Finset.mem_range.mp hk
  rw [h.stored k (by omega), hrow k (by omega)]

include hfit hi hrows in
theorem RowPart.next (h : RowPart fixedPoint n m i j result m') (hj : 0 < j) (hji : j < i) :
    RowPart fixedPoint n m i (j + 1)
      (fixDiv fixedPoint
        (matrixAt n .src m' i j - pendingSum fixedPoint (matrixAt n .l m') i j result)
        (matrixAt n .l m' j j))
      (Function.update m' (.l (matIdx n i (j - 1))) result) where
  frame := by
    intro a ha
    rw [Function.update_of_ne (ha (j - 1) (by omega))]
    exact h.frame a fun b hb => ha b (by omega)
  stored := by
    intro b hb
    rw [matrixAt_update hfit hi (by omega) hi (by omega)]
    rcases Nat.lt_or_ge (b + 1) j with hlt | hge
    · rw [if_neg (by omega)]
      exact h.stored b hlt
    · obtain rfl : b = j - 1 := by omega
      rw [if_pos ⟨rfl, rfl⟩]
      exact h.result hj
  result := by
    intro _
    have hsrc : matrixAt n .src m' i j = matrixAt n .src m i j :=
      h.frame _ fun b _ heq => SolverLoc.noConfusion heq
    rw [h.pendingSum_eq hfit hi hrows hj hji, hsrc, h.other_row hfit hi hji.le hji (Nat.le_refl j),
      hrows j hji j (Nat.le_refl j)]
    exact (cholesky_below _ _ _ _ (Nat.ne_of_gt hji)).symm

include hfit hi in
/-- The diagonal. What the loop over the columns has stored by then does not reach the element
next to it. -/
theorem RowPart.last (h : RowPart fixedPoint n m i i result m') (h0 : 0 < i) :
    let rest := matrixAt n .src m' i i - pendingSum fixedPoint (matrixAt n .l m') i i result
    let end_ := Function.update (Function.update m' (.l (matIdx n i (i - 1))) result)
      (.l (matIdx n i i)) (sqrtQ32s fixedPoint rest)
    (∀ b < i, matrixAt n .l end_ i b = truncFactor fixedPoint n m i b) ∧
      matrixAt n .l end_ i i =
        sqrtQ32s fixedPoint (matrixAt n .src m i i - staleSum fixedPoint n m i) := by
  intro rest end_
  constructor
  · intro b hb
    rw [matrixAt_update hfit hi (by omega) hi hi, if_neg (by omega),
      matrixAt_update hfit hi (by omega) hi (by omega)]
    rcases Nat.lt_or_ge (b + 1) i with hlt | hge
    · rw [if_neg (by omega)]
      exact h.stored b hlt
    · obtain rfl : b = i - 1 := by omega
      rw [if_pos ⟨rfl, rfl⟩]
      exact h.result h0
  · have hsrc : matrixAt n .src m' i i = matrixAt n .src m i i :=
      h.frame _ fun b _ heq => SolverLoc.noConfusion heq
    have hstale : matrixAt n .l m' i (i - 1) = matrixAt n .l m i (i - 1) := by
      refine h.frame _ fun b hb heq => ?_
      have := (matIdx_inj hfit hi (by omega) hi (by omega) (SolverLoc.l.inj heq)).2
      omega
    have hsum : pendingSum fixedPoint (matrixAt n .l m') i i result =
        staleSum fixedPoint n m i := by
      rw [pendingSum, staleSum, h.result h0, hstale]
      congr 1
      refine Finset.sum_congr rfl fun k hk => ?_
      have hk := Finset.mem_range.mp hk
      rw [h.stored k (by omega)]
    rw [matrixAt_update hfit hi hi hi hi, if_pos ⟨rfl, rfl⟩, ← hsum, ← hsrc]

end Row

theorem banachiewiczRow_runs (fixedPoint : Nat) (hfit : n * n ≤ 2 ^ 32) (h0 : 0 < i) (hi : i < n)
    (hfuel : 46343 + n ≤ fuel) (m : SolverLoc → Int32) (result : Int32) :
    ∃ r m', (banachiewiczRow fixedPoint .src .l n fuel i result).Runs (fun _ => True) (RowLoc n i)
        m r m' ∧
      ((∀ a < i, ∀ b ≤ a, matrixAt n .l m a b = truncFactor fixedPoint n m a b) →
        (∀ b < i, matrixAt n .l m' i b = truncFactor fixedPoint n m i b) ∧
          matrixAt n .l m' i i =
            sqrtQ32s fixedPoint (matrixAt n .src m i i - staleSum fixedPoint n m i)) := by
  have hn := order_le hfit
  obtain ⟨r, m', hloop, hI⟩ : ∃ r m', (Prog.forLoop (fun j => j < i + 1)
      (fun j => (j + 1) % 2 ^ 32) (banachiewiczElement fixedPoint .src .l n fuel i) fuel 0
      result).Runs (fun _ => True) (RowLoc n i) m (i + 1, r) m' ∧
      ((∀ a < i, ∀ b ≤ a, matrixAt n .l m a b = truncFactor fixedPoint n m a b) →
        (i + 1 ≤ i → RowPart fixedPoint n m i (i + 1) r m') ∧
          (i + 1 = i + 1 → (∀ b < i, matrixAt n .l m' i b = truncFactor fixedPoint n m i b) ∧
            matrixAt n .l m' i i =
              sqrtQ32s fixedPoint (matrixAt n .src m i i - staleSum fixedPoint n m i))) := by
    refine Prog.Runs.forLoop_range
      (fun j r m' => (∀ a < i, ∀ b ≤ a, matrixAt n .l m a b = truncFactor fixedPoint n m a b) →
        (j ≤ i → RowPart fixedPoint n m i j r m') ∧
          (j = i + 1 → (∀ b < i, matrixAt n .l m' i b = truncFactor fixedPoint n m i b) ∧
            matrixAt n .l m' i i =
              sqrtQ32s fixedPoint (matrixAt n .src m i i - staleSum fixedPoint n m i)))
      (Nat.zero_le _) (by omega) (fun j r m' _ hj hI => ?_) (fun _ => ⟨fun _ => ?_, ?_⟩) (by omega)
    · rcases Nat.eq_zero_or_pos j with rfl | hpos
      · refine ⟨_, _, banachiewiczElement_first h0, fun hrows => ⟨fun _ => ?_, ?_⟩⟩
        · have hpart := (hI hrows).1 (Nat.zero_le i)
          refine ⟨fun a _ => hpart.frame a fun b hb => absurd hb (by omega),
            fun b hb => absurd hb (by omega), fun _ => ?_⟩
          have hsrc : matrixAt n .src m' i 0 = matrixAt n .src m i 0 :=
            hpart.frame _ fun b _ heq => SolverLoc.noConfusion heq
          rw [hsrc, hpart.other_row hfit hi (Nat.zero_le i) h0 (Nat.le_refl 0),
            hrows 0 h0 0 (Nat.le_refl 0), truncFactor, cholesky_below _ _ _ _ h0.ne',
            Finset.sum_range_zero, sub_zero]
        · intro h
          omega
      · have hrun := banachiewiczElement_runs fixedPoint n m' r hpos (Nat.le_of_lt_succ hj)
          (by omega) (show 46343 ≤ fuel by omega) (show i ≤ fuel by omega)
        refine ⟨_, _, hrun, fun hrows => ?_⟩
        have hpart := (hI hrows).1 (Nat.le_of_lt_succ hj)
        rcases Nat.lt_or_eq_of_le (Nat.le_of_lt_succ hj) with hlt | rfl
        · rw [if_neg hlt.ne, if_neg hlt.ne]
          exact ⟨fun _ => hpart.next hfit hi hrows hpos hlt, fun h => by omega⟩
        · rw [if_pos rfl, if_pos rfl]
          exact ⟨fun h => by omega, fun _ => hpart.last hfit hi h0⟩
    · exact ⟨fun _ _ => rfl, fun b hb => absurd hb (Nat.not_lt_zero _),
        fun h => absurd h (Nat.lt_irrefl 0)⟩
    · intro h
      omega
  refine ⟨r, m', ?_, fun hrows => (hI hrows).2 rfl⟩
  have hcond : (fun j => decide (j ≤ i)) = fun j => decide (j < i + 1) :=
    funext fun j => decide_eq_decide.mpr Nat.lt_succ_iff.symm
  unfold banachiewiczRow
  rw [hcond]
  exact hloop.bind (Prog.Runs.ret r m')

theorem truncFactor_congr {m' : SolverLoc → Int32} (h : ∀ x, m' (.src x) = m (.src x)) :
    truncFactor fixedPoint n m' = truncFactor fixedPoint n m := by
  have hsrc : matrixAt n .src m' = matrixAt n .src m := funext fun i => funext fun j => h _
  rw [truncFactor, truncFactor, hsrc]

/-- The rows up to row `i` of the factor are right if the root of no row before has suffered
from the element that is read too early. -/
structure RowsDone (fixedPoint n : Nat) (m : SolverLoc → Int32) (i : Nat)
    (m' : SolverLoc → Int32) : Prop where
  frame : ∀ a, (∀ b < i, ¬ RowLoc n b a) → m' a = m a
  rows : (∀ a < i, ∀ b ≤ a, matrixAt n .l m' a b = truncFactor fixedPoint n m a b) ↔
    ∀ a, 0 < a → a < i → sqrtQ32s fixedPoint (matrixAt n .src m a a - staleSum fixedPoint n m a) =
      truncFactor fixedPoint n m a a

theorem RowsDone.next {m' : SolverLoc → Int32} (hfit : n * n ≤ 2 ^ 32) (h0 : 0 < i) (hi : i < n)
    (hfuel : 46343 + n ≤ fuel) (h : RowsDone fixedPoint n m i m') (result : Int32) :
    ∃ r m'', (banachiewiczRow fixedPoint .src .l n fuel i result).Runs (fun _ => True)
        (fun _ => True) m' r m'' ∧ RowsDone fixedPoint n m (i + 1) m'' := by
  obtain ⟨r, m'', hrun, hrow⟩ := banachiewiczRow_runs fixedPoint hfit h0 hi hfuel m' result
  have hsrc : ∀ x, m' (.src x) = m (.src x) := fun x =>
    h.frame _ fun b _ hloc => by obtain ⟨c, -, heq⟩ := hloc; cases heq
  have hother {a b : Nat} (ha : a < i) (hb : b ≤ a) :
      matrixAt n .l m'' a b = matrixAt n .l m' a b := by
    refine hrun.frame ?_
    rintro ⟨c, hc, heq⟩
    have := (matIdx_inj hfit (by omega) (by omega) hi (by omega) (SolverLoc.l.inj heq)).1
    omega
  have hstale : staleSum fixedPoint n m' i = staleSum fixedPoint n m i := by
    have helem : matrixAt n .l m' i (i - 1) = matrixAt n .l m i (i - 1) := by
      refine h.frame _ fun b hb hloc => ?_
      obtain ⟨c, hc, heq⟩ := hloc
      have := (matIdx_inj hfit hi (by omega) (by omega) (by omega) (SolverLoc.l.inj heq)).1
      omega
    rw [staleSum, staleSum, truncFactor_congr hsrc, helem]
  have hpivot : matrixAt n .src m' i i = matrixAt n .src m i i := hsrc _
  rw [truncFactor_congr hsrc, hstale, hpivot] at hrow
  refine ⟨r, m'', hrun.mono (fun _ _ => trivial) fun _ _ => trivial, fun a ha => ?_, ?_⟩
  · rw [hrun.frame (ha i (Nat.lt_succ_self i))]
    exact h.frame a fun b hb => ha b (Nat.lt_succ_of_lt hb)
  · constructor
    · intro hrows a ha hai
      have hbefore : ∀ a < i, ∀ b ≤ a, matrixAt n .l m' a b = truncFactor fixedPoint n m a b := by
        intro a ha b hb
        rw [← hother ha hb]
        exact hrows a (Nat.lt_succ_of_lt ha) b hb
      rcases Nat.lt_succ_iff_lt_or_eq.mp hai with hlt | rfl
      · exact h.rows.mp hbefore a ha hlt
      · rw [← (hrow hbefore).2]
        exact hrows a hai a (Nat.le_refl a)
    · intro hroots a ha b hb
      have hbefore := h.rows.mpr fun a ha hai => hroots a ha (Nat.lt_succ_of_lt hai)
      rcases Nat.lt_succ_iff_lt_or_eq.mp ha with hlt | rfl
      · rw [hother hlt hb]
        exact hbefore a hlt b hb
      · rcases Nat.lt_or_eq_of_le hb with hlt | rfl
        · exact (hrow hbefore).1 b hlt
        · rw [(hrow hbefore).2]
          exact hroots b h0 (Nat.lt_succ_self b)

theorem banachiewicz_runs (fixedPoint : Nat) (m : SolverLoc → Int32) (hpos : 0 < n)
    (hfit : n * n ≤ 2 ^ 32) (fuel : Nat) (hfuel : 46343 + n ≤ fuel) :
    ∃ x m', (mempoolCholeskyBanachiewiczQ32s fixedPoint .src .l n fuel).Runs (fun _ => True)
      (fun _ => True) m x m' ∧ RowsDone fixedPoint n m n m' := by
  have hn := order_le hfit
  have hzero : matIdx n 0 0 = 0 := by rw [matIdx_eq hfit hpos hpos, Nat.zero_mul]
  have hfirst : RowsDone fixedPoint n m 1
      (Function.update m (.l 0) (sqrtQ32s fixedPoint (m (.src 0)))) := by
    refine ⟨fun a ha => Function.update_of_ne ?_ _ m, ⟨fun _ a ha hai => by omega, fun _ => ?_⟩⟩
    · rintro rfl
      exact ha 0 Nat.one_pos ⟨0, Nat.le_refl 0, by rw [hzero]⟩
    · intro a ha b hb
      obtain rfl : a = 0 := by omega
      obtain rfl : b = 0 := by omega
      rw [matrixAt, hzero, Function.update_self, truncFactor, cholesky_diag, Finset.sum_range_zero,
        sub_zero, matrixAt, hzero]
  obtain ⟨r, m', hloop, hdone⟩ := Prog.Runs.forLoop_range (R := fun _ => True) (W := fun _ => True)
    (M := 2 ^ 32) (fun i _ m' => RowsDone fixedPoint n m i m') (show 1 ≤ n from hpos) (by omega)
    (fun i result m' h1 hi hI => hI.next hfit h1 hi hfuel result) hfirst
    (show n - 1 ≤ fuel by omega)
  refine ⟨(), m', ?_, hdone⟩
  unfold mempoolCholeskyBanachiewiczQ32s
  exact (Prog.Runs.get trivial m).bind ((sqrtCall_runs _ (by omega)).bind
    ((Prog.Runs.set trivial _ m).bind (hloop.bind (Prog.Runs.ret () m'))))

/-- What the kernel should leave. -/
def BanachiewiczExact (fixedPoint n : Nat) (m : SolverLoc → Int32) : Prop :=
  Prog.Leaves (mempoolCholeskyBanachiewiczQ32s fixedPoint .src .l n) m fun m' =>
    ∀ i < n, ∀ j ≤ i, matrixAt n .l m' i j = truncFactor fixedPoint n m i j

/-- The kernel computes the factor exactly if no root changes when the last product of its row
is made with the element that memory held before. -/
theorem banachiewicz_exact_iff (fixedPoint : Nat) (m : SolverLoc → Int32) (hpos : 0 < n)
    (hfit : n * n ≤ 2 ^ 32) :
    BanachiewiczExact fixedPoint n m ↔ ∀ i, 0 < i → i < n →
      sqrtQ32s fixedPoint (matrixAt n .src m i i - staleSum fixedPoint n m i) =
        truncFactor fixedPoint n m i i := by
  refine Prog.leaves_iff (46343 + n) fun fuel hfuel => ?_
  obtain ⟨x, m', hrun, hdone⟩ := banachiewicz_runs fixedPoint m hpos hfit fuel hfuel
  exact ⟨x, m', hrun.run, hdone.rows⟩

/-- A matrix of order two, `((4, 2), (2, 2))` with ten binary digits, and what the factor's array
held before. -/
def twoByTwo (held : Int32) : SolverLoc → Int32
  | .src i => if i = 0 then 4096 else 2048
  | .l _ => held
  | .input _ => 0

/-- The array held the element that is read too early. -/
theorem banachiewicz_exact_warm : BanachiewiczExact 10 2 (twoByTwo 1024) := by
  refine (banachiewicz_exact_iff 10 (twoByTwo 1024) (by decide) (by decide)).mpr fun i h0 hi => ?_
  obtain rfl : i = 1 := by omega
  decide +kernel

/-- The array was cleared. -/
theorem banachiewicz_exact_cleared : ¬ BanachiewiczExact 10 2 (twoByTwo 0) := by
  rintro ⟨bound, hleaves⟩
  obtain ⟨x, m', hrun, hexact⟩ := hleaves (max bound 46345) (Nat.le_max_left _ _)
  obtain ⟨x', m'', hrun', hdone⟩ := banachiewicz_runs 10 (twoByTwo 0) (n := 2) (by decide)
    (by decide) (max bound 46345) (Nat.le_max_right _ _)
  rw [hrun'.run] at hrun
  cases hrun
  exact absurd (hdone.rows.mp hexact 1 (by decide) (by decide)) (by decide +kernel)

end Banachiewicz

/-! ## Crout -/

section Crout

variable {fixedPoint n i j fuel : Nat} {half : Int32} {m : SolverLoc → Int32} {result : Int32}

/-- The factor of the matrix in memory, with rounded products. -/
def roundFactor (fixedPoint : Nat) (half : Int32) (n : Nat) (m : SolverLoc → Int32) :
    Nat → Nat → Int32 :=
  cholesky (mulRound fixedPoint half) (fixDiv fixedPoint) (sqrtQ32s fixedPoint) (matrixAt n .src m)

/-- What the loop over the squares of row `j` adds up. -/
def squareSum (fixedPoint : Nat) (half : Int32) (row : Nat → Int32) (j : Nat) : Int32 :=
  overlappedSum (fun k => mulRound fixedPoint half (row k) (row k)) j (j % 4)

/-- The locations of a column of the factor. -/
def ColLoc (n j : Nat) (a : SolverLoc) : Prop := ∃ i, j ≤ i ∧ i < n ∧ a = .l (matIdx n i j)

theorem croutDiagonal_runs (hj : j < n) (hn : n + 3 < 2 ^ 32) (hfuel : 46343 + n ≤ fuel)
    (m : SolverLoc → Int32) :
    (croutDiagonal fixedPoint half .src .l n fuel j).Runs (fun _ => True) (ColLoc n j) m ()
      (Function.update m (.l (matIdx n j j)) (sqrtQ32s fixedPoint
        (matrixAt n .src m j j - squareSum fixedPoint half (matrixAt n .l m j) j))) := by
  have hsum : (unrolledSum (· + ·) (squareLane (mulRound fixedPoint half) fun k =>
      SolverLoc.l (matIdx n j k)) 1 j (j % 4) fuel 0).Runs (fun _ => True) (ColLoc n j) m
      (squareSum fixedPoint half (matrixAt n .l m j) j) m :=
    overlapped_runs (fun k _ => squareLane_runs trivial) (Nat.mod_lt j (by decide)) (by omega)
      (by omega) (by omega)
  exact (Prog.Runs.get trivial m).bind (hsum.bind ((sqrtCall_runs _ (by omega)).bind
    (Prog.Runs.set ⟨j, Nat.le_refl j, hj, rfl⟩ _ m)))

/-- What an element below the diagonal becomes. -/
def belowDiagonal (fixedPoint : Nat) (half : Int32) (n : Nat) (m : SolverLoc → Int32) (i j : Nat) :
    Int32 :=
  fixDiv fixedPoint
    (matrixAt n .src m i j -
      ∑ k ∈ Finset.range j, mulRound fixedPoint half (matrixAt n .l m i k) (matrixAt n .l m j k))
    (matrixAt n .l m j j)

theorem croutElement_runs (hji : j < i) (hi : i < n) (hn : n < 2 ^ 32) (hfuel : n ≤ fuel)
    (m : SolverLoc → Int32) (result : Int32) :
    (croutElement fixedPoint half .src .l n fuel j i result).Runs (fun _ => True) (ColLoc n j) m
      (belowDiagonal fixedPoint half n m i j)
      (if j + 1 < i then Function.update m (.l (matIdx n (i - 1) j)) result else m) := by
  have hmod : 4 * (j / 4) + j % 4 = j := Nat.div_add_mod j 4
  have hsum : (unrolledSum (· + ·) (rowLane (mulRound fixedPoint half)
      (fun k => SolverLoc.l (matIdx n i k)) fun k => SolverLoc.l (matIdx n j k)) 4 j (j % 4) fuel
      0).Runs (fun _ => True) (ColLoc n j) m
      (0 + ∑ k ∈ Finset.range (4 * (j / 4) + j % 4), id (mulRound fixedPoint half
        (matrixAt n .l m i k) (matrixAt n .l m j k))) m :=
    unrolledSum_runs (fun _ _ => rfl) (fun k _ => rowLane_runs trivial trivial) (by omega)
      (by omega) (by omega)
  rw [hmod, zero_add] at hsum
  unfold croutElement
  refine (Prog.Runs.get trivial m).bind ((Prog.Runs.get trivial m).bind (hsum.bind ?_))
  rw [u32_eq (show j + 1 < 2 ^ 32 by omega), sub32_eq (by omega) (by omega)]
  split
  · exact (Prog.Runs.set ⟨i - 1, by omega, by omega, rfl⟩ result m).bind (Prog.Runs.ret _ _)
  · exact Prog.Runs.ret _ m

/-- Before row `i`, the elements of column `j` up to row `i - 2` are stored. -/
structure ColumnPart (fixedPoint : Nat) (half : Int32) (n : Nat) (m : SolverLoc → Int32)
    (j i : Nat) (result : Int32) (m' : SolverLoc → Int32) : Prop where
  frame : ∀ a, (∀ b, j < b → b + 1 < i → a ≠ .l (matIdx n b j)) → m' a = m a
  stored : ∀ b, j < b → b + 1 < i → matrixAt n .l m' b j = belowDiagonal fixedPoint half n m b j
  result : j + 1 < i → result = belowDiagonal fixedPoint half n m (i - 1) j

section Column

variable {m' : SolverLoc → Int32} (hfit : n * n ≤ 2 ^ 32)

include hfit in
/-- The elements of a column are computed from the columns before it and its diagonal. -/
theorem ColumnPart.belowDiagonal_eq (h : ColumnPart fixedPoint half n m j i result m')
    (hji : j < i) (hi : i ≤ n) {a : Nat} (ha : a < n) :
    belowDiagonal fixedPoint half n m' a j = belowDiagonal fixedPoint half n m a j := by
  have hsrc : matrixAt n .src m' a j = matrixAt n .src m a j :=
    h.frame _ fun b _ _ heq => SolverLoc.noConfusion heq
  have hbefore {r c : Nat} (hr : r < n) (hc : c ≤ j) (hne : c ≠ j ∨ r = j) :
      matrixAt n .l m' r c = matrixAt n .l m r c := by
    refine h.frame _ fun b hb _ heq => ?_
    have := matIdx_inj hfit hr (by omega) (by omega) (by omega) (SolverLoc.l.inj heq)
    omega
  rw [belowDiagonal, belowDiagonal, hsrc, hbefore (by omega) (Nat.le_refl j) (Or.inr rfl)]
  congr 2
  refine Finset.sum_congr rfl fun k hk => ?_
  have hk := Finset.mem_range.mp hk
  rw [hbefore ha hk.le (Or.inl hk.ne), hbefore (by omega) hk.le (Or.inl hk.ne)]

include hfit in
theorem ColumnPart.store (h : ColumnPart fixedPoint half n m j i result m') (hji : j + 1 < i)
    (hi : i ≤ n) {a : Nat} (hja : j < a) (hai : a < i) :
    matrixAt n .l (Function.update m' (.l (matIdx n (i - 1) j)) result) a j =
      belowDiagonal fixedPoint half n m a j := by
  rw [matrixAt_update hfit (by omega) (by omega) (by omega) (by omega)]
  rcases Nat.lt_or_ge (a + 1) i with hlt | hge
  · rw [if_neg (by omega)]
    exact h.stored a hja hlt
  · obtain rfl : a = i - 1 := by omega
    rw [if_pos ⟨rfl, rfl⟩]
    exact h.result hji

include hfit in
theorem ColumnPart.next (h : ColumnPart fixedPoint half n m j i result m') (hji : j < i)
    (hi : i < n) : ColumnPart fixedPoint half n m j (i + 1) (belowDiagonal fixedPoint half n m' i j)
      (if j + 1 < i then Function.update m' (.l (matIdx n (i - 1) j)) result else m') := by
  have hvalue := h.belowDiagonal_eq hfit hji hi.le hi
  split
  case isTrue hlt =>
    refine ⟨fun a ha => ?_, fun b hb hbi => ?_, fun _ => hvalue⟩
    · rw [Function.update_of_ne (ha (i - 1) (by omega) (by omega))]
      exact h.frame a fun b hb hbi => ha b hb (by omega)
    · exact h.store hfit hlt hi.le hb (by omega)
  case isFalse hge =>
    exact ⟨fun a ha => h.frame a fun b hb hbi => ha b hb (by omega),
      fun b hb hbi => absurd hbi (by omega), fun _ => hvalue⟩

end Column

theorem croutColumn_runs (fixedPoint : Nat) (half : Int32) (hfit : n * n ≤ 2 ^ 32) (hj : j < n)
    (hfuel : 46343 + n ≤ fuel) (m : SolverLoc → Int32)
    (result : Int32) :
    let root := sqrtQ32s fixedPoint
      (matrixAt n .src m j j - squareSum fixedPoint half (matrixAt n .l m j) j)
    let rooted := Function.update m (.l (matIdx n j j)) root
    ∃ r m', (croutColumn fixedPoint half .src .l n fuel j result).Runs (fun _ => True) (ColLoc n j)
        m r m' ∧ matrixAt n .l m' j j = root ∧
      ∀ i, j < i → i < n → matrixAt n .l m' i j = belowDiagonal fixedPoint half n rooted i j := by
  intro root rooted
  have hn := order_le hfit
  obtain ⟨r, m', hloop, hpart⟩ : ∃ r m', (Prog.forLoop (fun i => i < n) (fun i => (i + 1) % 2 ^ 32)
      (croutElement fixedPoint half .src .l n fuel j) fuel (j + 1) result).Runs (fun _ => True)
        (ColLoc n j) rooted (n, r) m' ∧ ColumnPart fixedPoint half n rooted j n r m' := by
    refine Prog.Runs.forLoop_range (fun i r m' => ColumnPart fixedPoint half n rooted j i r m') hj
      (by omega) (fun i r m' hji hi hI => ?_) ?_ (by omega)
    · exact ⟨_, _, croutElement_runs hji hi (by omega) (by omega) m' r, hI.next hfit hji hi⟩
    · exact ⟨fun _ _ => rfl, fun b hb hbj => absurd hbj (by omega), fun h => absurd h (by omega)⟩
  have hdiag : matrixAt n .l m' j j = root := by
    have hself : rooted (.l (matIdx n j j)) = root := by
      change Function.update m _ root _ = root
      rw [Function.update_self]
    refine (hpart.frame _ fun b hb hbn heq => ?_).trans hself
    have := (matIdx_inj hfit hj hj (by omega) hj (SolverLoc.l.inj heq)).1
    omega
  have hrun : (croutColumn fixedPoint half .src .l n fuel j result).Runs (fun _ => True)
      (ColLoc n j) m r
      (if j < n - 1 then Function.update m' (.l (matIdx n (n - 1) j)) r else m') := by
    unfold croutColumn
    refine (croutDiagonal_runs hj (by omega) hfuel m).bind ?_
    rw [u32_eq (show j + 1 < 2 ^ 32 by omega), sub32_eq (by omega) (by omega)]
    refine hloop.bind ?_
    split
    · exact (Prog.Runs.set ⟨n - 1, by omega, by omega, rfl⟩ r m').bind (Prog.Runs.ret r _)
    · exact Prog.Runs.ret r m'
  refine ⟨r, _, hrun, ?_⟩
  split
  case isTrue hlt =>
    refine ⟨?_, fun i hji hi => hpart.store hfit (by omega) (Nat.le_refl n) hji hi⟩
    rw [matrixAt_update hfit hj hj (by omega) hj, if_neg (by omega), hdiag]
  case isFalse hge =>
    exact ⟨hdiag, fun i hji hi => absurd hi (by omega)⟩

/-- The row of the diagonal element as the loop over it finds it: an element of the columns
before is the factor's, any other is what the array held. -/
def rowBefore (L : Nat → Nat → Int32) (n : Nat) (m : SolverLoc → Int32) (j k : Nat) : Int32 :=
  let x := matIdx n j k
  if x < n * n ∧ x % n < j ∧ x % n ≤ x / n then L (x / n) (x % n) else m (.l x)

/-- The columns before column `j` are right if no root before has suffered from the lanes that
the loop over the squares counts too often. -/
structure ColumnsDone (fixedPoint : Nat) (half : Int32) (n : Nat) (m : SolverLoc → Int32) (j : Nat)
    (m' : SolverLoc → Int32) : Prop where
  frame : ∀ a, (∀ b < j, ¬ ColLoc n b a) → m' a = m a
  columns : (∀ b < j, ∀ a, b ≤ a → a < n →
      matrixAt n .l m' a b = roundFactor fixedPoint half n m a b) ↔
    ∀ b < j, sqrtQ32s fixedPoint (matrixAt n .src m b b - squareSum fixedPoint half
      (rowBefore (roundFactor fixedPoint half n m) n m b) b) = roundFactor fixedPoint half n m b b

section Columns

variable {m' : SolverLoc → Int32} (hfit : n * n ≤ 2 ^ 32) (h : ColumnsDone fixedPoint half n m j m')
  (hcols : ∀ b < j, ∀ a, b ≤ a → a < n →
    matrixAt n .l m' a b = roundFactor fixedPoint half n m a b)

theorem matIdx_div_mod {a b : Nat} (hfit : n * n ≤ 2 ^ 32) (ha : a < n) (hb : b < n) :
    matIdx n a b / n = a ∧ matIdx n a b % n = b := by
  rw [matIdx_eq hfit ha hb, Nat.mul_comm]
  exact (Nat.div_mod_unique (Nat.zero_lt_of_lt hb)).mpr ⟨Nat.add_comm b (n * a), hb⟩

include hfit h hcols in
theorem ColumnsDone.row (k : Nat) : matrixAt n .l m' j k =
    rowBefore (roundFactor fixedPoint half n m) n m j k := by
  rw [rowBefore, matrixAt]
  generalize matIdx n j k = x
  split
  case isTrue hin =>
    obtain ⟨hx, hcol, hrow⟩ := hin
    have hxn : x / n < n := Nat.div_lt_of_lt_mul hx
    rw [← hcols (x % n) hcol (x / n) hrow hxn, matrixAt,
      matIdx_eq hfit hxn (hrow.trans_lt hxn), Nat.div_add_mod']
  case isFalse hout =>
    refine h.frame _ fun b hb hloc => hout ?_
    obtain ⟨a, hba, ha, heq⟩ := hloc
    obtain rfl := SolverLoc.l.inj heq
    obtain ⟨hdiv, hmod⟩ := matIdx_div_mod hfit ha (hba.trans_lt ha)
    rw [hdiv, hmod]
    refine ⟨?_, hb, hba⟩
    rw [matIdx_eq hfit ha (hba.trans_lt ha)]
    exact index_lt_square ha (hba.trans_lt ha)

include hfit h hcols in
/-- A column with the right root is right altogether. -/
theorem ColumnsDone.below (hj : j < n) {root : Int32}
    (hroot : root = roundFactor fixedPoint half n m j j)
    {i : Nat} (hji : j < i) (hi : i < n) :
    belowDiagonal fixedPoint half n (Function.update m' (.l (matIdx n j j)) root) i j =
      roundFactor fixedPoint half n m i j := by
  have hbefore {a k : Nat} (ha : a < n) (hja : j ≤ a) (hk : k < j) :
      matrixAt n .l (Function.update m' (.l (matIdx n j j)) root) a k =
        roundFactor fixedPoint half n m a k := by
    rw [matrixAt_update hfit ha (by omega) hj hj, if_neg (by omega)]
    exact hcols k hk a (by omega) ha
  have hsrc : matrixAt n .src (Function.update m' (.l (matIdx n j j)) root) i j =
      matrixAt n .src m i j := by
    rw [matrixAt, Function.update_of_ne (fun heq => SolverLoc.noConfusion heq)]
    exact h.frame _ fun b _ hloc => by obtain ⟨c, -, -, heq⟩ := hloc; cases heq
  have hsum : ∑ k ∈ Finset.range j, mulRound fixedPoint half
      (matrixAt n .l (Function.update m' (.l (matIdx n j j)) root) i k)
      (matrixAt n .l (Function.update m' (.l (matIdx n j j)) root) j k) =
        ∑ k ∈ Finset.range j, mulRound fixedPoint half (roundFactor fixedPoint half n m i k)
          (roundFactor fixedPoint half n m j k) := by
    refine Finset.sum_congr rfl fun k hk => ?_
    have hk := Finset.mem_range.mp hk
    rw [hbefore hi hji.le hk, hbefore hj (Nat.le_refl j) hk]
  rw [belowDiagonal, hsrc, hsum, matrixAt_update hfit hj hj hj hj, if_pos ⟨rfl, rfl⟩, hroot]
  exact (cholesky_below _ _ _ _ hji.ne').symm

end Columns

theorem ColumnsDone.next {m' : SolverLoc → Int32} (hfit : n * n ≤ 2 ^ 32) (hj : j < n)
    (hfuel : 46343 + n ≤ fuel) (h : ColumnsDone fixedPoint half n m j m') (result : Int32) :
    ∃ r m'', (croutColumn fixedPoint half .src .l n fuel j result).Runs (fun _ => True)
      (fun _ => True) m' r m'' ∧ ColumnsDone fixedPoint half n m (j + 1) m'' := by
  obtain ⟨r, m'', hrun, hdiag, hbelow⟩ := croutColumn_runs fixedPoint half hfit hj hfuel m' result
  have hother {a b : Nat} (hb : b < j) (hba : b ≤ a) (ha : a < n) :
      matrixAt n .l m'' a b = matrixAt n .l m' a b := by
    refine hrun.frame ?_
    rintro ⟨c, hjc, hc, heq⟩
    have := (matIdx_inj hfit ha (by omega) hc hj (SolverLoc.l.inj heq)).2
    omega
  have hpivot : matrixAt n .src m' j j = matrixAt n .src m j j :=
    h.frame _ fun b _ hloc => by obtain ⟨c, -, -, heq⟩ := hloc; cases heq
  rw [hpivot] at hdiag hbelow
  have hroot (hcols : ∀ b < j, ∀ a, b ≤ a → a < n →
      matrixAt n .l m' a b = roundFactor fixedPoint half n m a b) :
      matrixAt n .l m' j = rowBefore (roundFactor fixedPoint half n m) n m j :=
    funext fun k => h.row hfit hcols k
  refine ⟨r, m'', hrun.mono (fun _ _ => trivial) fun _ _ => trivial, fun a ha => ?_, ?_⟩
  · rw [hrun.frame (ha j (Nat.lt_succ_self j))]
    exact h.frame a fun b hb => ha b (Nat.lt_succ_of_lt hb)
  · constructor
    · intro hcols b hb
      have hbefore : ∀ b < j, ∀ a, b ≤ a → a < n →
          matrixAt n .l m' a b = roundFactor fixedPoint half n m a b := by
        intro b hb a hba ha
        rw [← hother hb hba ha]
        exact hcols b (Nat.lt_succ_of_lt hb) a hba ha
      rcases Nat.lt_succ_iff_lt_or_eq.mp hb with hlt | rfl
      · exact h.columns.mp hbefore b hlt
      · rw [← hroot hbefore, ← hdiag]
        exact hcols b hb b (Nat.le_refl b) hj
    · intro hroots b hb a hba ha
      have hbefore := h.columns.mpr fun b hb => hroots b (Nat.lt_succ_of_lt hb)
      rcases Nat.lt_succ_iff_lt_or_eq.mp hb with hlt | rfl
      · rw [hother hlt hba ha]
        exact hbefore b hlt a hba ha
      · have hright := hroots b (Nat.lt_succ_self b)
        rw [← hroot hbefore] at hright
        rcases Nat.lt_or_eq_of_le hba with hlt | rfl
        · rw [hbelow a hlt ha]
          exact h.below hfit hbefore hj hright hlt ha
        · rw [hdiag, hright]

theorem crout_runs (fixedPoint : Nat) (half : Int32) (m : SolverLoc → Int32)
    (hfit : n * n ≤ 2 ^ 32) (fuel : Nat) (hfuel : 46343 + n ≤ fuel) :
    ∃ x m', (mempoolCholeskyCroutQ32s fixedPoint half .src .l n fuel).Runs (fun _ => True)
      (fun _ => True) m x m' ∧ ColumnsDone fixedPoint half n m n m' := by
  have hn := order_le hfit
  obtain ⟨r, m', hloop, hdone⟩ := Prog.Runs.forLoop_range (R := fun _ => True) (W := fun _ => True)
    (M := 2 ^ 32) (fun j _ m' => ColumnsDone fixedPoint half n m j m') (Nat.zero_le n) (by omega)
    (fun j result m' _ hj hI => hI.next hfit hj hfuel result)
    (⟨fun _ _ => rfl, ⟨fun _ b hb => absurd hb (Nat.not_lt_zero b),
      fun _ b hb => absurd hb (Nat.not_lt_zero b)⟩⟩ : ColumnsDone fixedPoint half n m 0 m)
    (show n - 0 ≤ fuel by omega)
  exact ⟨(), m', hloop.bind (Prog.Runs.ret () m'), hdone⟩

/-- What the kernel should leave. -/
def CroutExact (fixedPoint : Nat) (half : Int32) (n : Nat) (m : SolverLoc → Int32) : Prop :=
  Prog.Leaves (mempoolCholeskyCroutQ32s fixedPoint half .src .l n) m fun m' =>
    ∀ i < n, ∀ j ≤ i, matrixAt n .l m' i j = roundFactor fixedPoint half n m i j

/-- Up to the fourth column no lane is counted twice. -/
theorem squareSum_small (row : Nat → Int32) (hj : j < 4) :
    squareSum fixedPoint half row j =
      ∑ k ∈ Finset.range j, mulRound fixedPoint half (row k) (row k) := by
  rw [squareSum, overlappedSum_small _ hj, Nat.mod_eq_of_lt hj]

theorem rowBefore_eq {L : Nat → Nat → Int32} {k : Nat} (hfit : n * n ≤ 2 ^ 32) (hj : j < n)
    (hk : k < j) : rowBefore L n m j k = L j k := by
  obtain ⟨hdiv, hmod⟩ := matIdx_div_mod hfit hj (hk.trans hj)
  rw [rowBefore, hdiv, hmod, matIdx_eq hfit hj (hk.trans hj)]
  exact if_pos ⟨index_lt_square hj (hk.trans hj), hk, hk.le⟩

/-- The kernel computes the factor exactly if from the fifth column on no root changes when the
lanes of its row are counted as often as the loop counts them. -/
theorem crout_exact_iff (fixedPoint : Nat) (half : Int32) (m : SolverLoc → Int32)
    (hfit : n * n ≤ 2 ^ 32) :
    CroutExact fixedPoint half n m ↔ ∀ j, 4 ≤ j → j < n →
      sqrtQ32s fixedPoint (matrixAt n .src m j j - squareSum fixedPoint half
        (rowBefore (roundFactor fixedPoint half n m) n m j) j) =
          roundFactor fixedPoint half n m j j := by
  refine Prog.leaves_iff (46343 + n) fun fuel hfuel => ?_
  obtain ⟨x, m', hrun, hdone⟩ := crout_runs fixedPoint half m hfit fuel hfuel
  refine ⟨x, m', hrun.run, ⟨fun hexact j _ hj => ?_, fun hroots i hi j hji => ?_⟩⟩
  · exact hdone.columns.mp (fun b hb a hba ha => hexact a ha b hba) j hj
  · refine hdone.columns.mpr (fun b hb => ?_) j (by omega) i hji hi
    rcases Nat.lt_or_ge b 4 with hsmall | hlarge
    · rw [squareSum_small _ hsmall, roundFactor, cholesky_diag]
      congr 2
      refine Finset.sum_congr rfl fun k hk => ?_
      rw [rowBefore_eq hfit hb (Finset.mem_range.mp hk)]
    · exact hroots b hlarge hb

/-- A matrix of order five with ten binary digits. The array of the factor was cleared. -/
def dense : SolverLoc → Int32
  | .src i =>
      1024 * [4, 2, 2, 2, 2, 2, 5, 3, 3, 1, 2, 3, 6, 4, 1, 2, 3, 4, 7, 1, 2, 1, 1, 1, 5].getD i 0
  | _ => 0

/-- The last row of the factor is `1, 0, 0, 0, 2`, and the first lane is counted once. -/
theorem crout_exact_dense : CroutExact 10 1023 5 dense ∧
    roundFactor 10 1023 5 dense 4 0 = 1024 ∧ roundFactor 10 1023 5 dense 3 2 = 1024 := by
  refine ⟨(crout_exact_iff 10 1023 dense (by decide)).mpr fun j h4 hj => ?_,
    by decide +kernel, by decide +kernel⟩
  obtain rfl : j = 4 := by omega
  decide +kernel

/-- A matrix of order five with ten binary digits: `4` on the diagonal, `8` at its end, and `e`
in the last row before it. The array of the factor was cleared. -/
def arrowhead (e : Int32) : SolverLoc → Int32
  | .src i => if i = 24 then 8192 else if i / 5 = i % 5 then 4096 else if i / 5 = 4 then e else 0
  | _ => 0

/-- The squares of the last row are taken off one, two, three and four times. -/
theorem crout_exact_arrowhead : ¬ CroutExact 10 1023 5 (arrowhead 2048) := by
  rintro ⟨bound, hleaves⟩
  obtain ⟨x, m', hrun, hexact⟩ := hleaves (max bound 46348) (Nat.le_max_left _ _)
  obtain ⟨x', m'', hrun', hdone⟩ := crout_runs 10 1023 (arrowhead 2048) (n := 5) (by decide)
    (max bound 46348) (Nat.le_max_right _ _)
  rw [hrun'.run] at hrun
  cases hrun
  exact absurd (hdone.columns.mp (fun b hb a hba ha => hexact a ha b hba) 4 (by decide))
    (by decide +kernel)

end Crout

end TeraNoC.Kernels
