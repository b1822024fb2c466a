import TeraNoC.Proofs.FoldedKernels

/-!
# The folded transforms leave the vector of the unfolded one

A core goes through its columns from layout to layout, and its stores are those of the keys of
its columns. So every run of the cores leaves the vectors in the last layout.
-/

namespace TeraNoC.Kernels

open TeraNoC.Lib TeraNoC.Runtime

/-! ## A stage of a core -/

section Stage

variable {NB nROW nCOL m s c k i0 fuel : Nat} {foldedTwiddles : Bool} {W : Nat → V2s}
  {X : Nat → Nat → Nat → V2s} {mem : FftLoc → V2s} {layout : Nat → Layout NB nCOL m}
  {first middle : Buffers → Twiddles → Nat → Nat → Prog FftLoc V2s Unit}
  {last : Buffers → Nat → Prog FftLoc V2s Unit}

/-- The butterfly of stage `s` with some twiddle factors. -/
def kernelButterfly (m s : Nat) (w : Twiddles) : V2s → V2s → V2s → V2s → V2s × V2s × V2s × V2s :=
  if s = 0 then butterflyFirst w
  else if s + 1 < m then butterflyMiddle w
  else butterflyLast

/-- The twiddle factors of column `c` of the transforms. -/
def coefAt (foldedTwiddles : Bool) (m c : Nat) (p : Nat → FftLoc) : Nat → FftLoc :=
  if foldedTwiddles then shift p (c * 4 ^ (m - 1) * 2) else p

/-- The butterflies of a core that works for column `c` of the transforms: those of all rows, from
layout to layout. -/
def GoesThrough (layout : Nat → Layout NB nCOL m) (nROW c : Nat) (foldedTwiddles : Bool)
    (first middle : Buffers → Twiddles → Nat → Nat → Prog FftLoc V2s Unit)
    (last : Buffers → Nat → Prog FftLoc V2s Unit) : Prop :=
  ∀ s < m, ∀ i0 < 4 ^ (m - 1), ∀ w, ∃ part : Nat → Prog FftLoc V2s Unit,
    kernelColumn first middle last (bufferAt foldedTwiddles (coefAt foldedTwiddles m c) s)
      m s i0 w =
      Prog.each part (List.range nROW) ∧
    ∀ r < nROW, IsColumn (layout s) (layout (s + 1)) (kernelButterfly m s w) s r c i0 (part r)

theorem loadColumn_scatters (h : Holds (layout s) nROW foldedTwiddles W X s mem)
    (hcols : nCOL * 4 ^ (m - 1) ≤ NB) (hfit : NB ≤ 2 ^ 28) (hmid : s + 1 < m) (hc : c < nCOL)
    (hi0 : i0 < 4 ^ (m - 1)) :
    (loadColumn NB foldedTwiddles (coefAt foldedTwiddles m c) m s i0).Scatters
      (StageReads foldedTwiddles s) (keyLoc (layout (s + 1)) foldedTwiddles s) (keyVal W X s) mem
      (OwnsFactors foldedTwiddles m s c i0 : Key nROW nCOL m → Prop)
      (twiddlesOf W (i0 % 4 ^ (m - 1 - s) * 4 ^ s)) := by
  have hs : s < m := by omega
  unfold loadColumn
  rw [if_pos hmid]
  cases foldedTwiddles with
  | true =>
      exact loadStoreTwiddlefact_folded h hcols hfit hmid hc hi0 (fun _ => rfl) fun _ => rfl
  | false =>
      have hle := quarter_fits hcols hc
      exact loadTwiddlefact_plain h hcols (by omega) hs rfl

/-- The columns of a core in a stage. -/
theorem foldedStage_scatters (h : Holds (layout s) nROW foldedTwiddles W X s mem) (hm : 2 ≤ m)
    (hcols : nCOL * 4 ^ (m - 1) ≤ NB) (hfit : NB ≤ 2 ^ 28) (hs : s < m) (hc : c < nCOL)
    (hk : k < 4 ^ (m - 2)) (hfuel : 4 ≤ fuel)
    (hparts : GoesThrough layout nROW c foldedTwiddles first middle last) :
    (foldedStage NB foldedTwiddles (coefAt foldedTwiddles m c) first middle last
      m k fuel s).Scatters
      (StageReads foldedTwiddles s) (keyLoc (layout (s + 1)) foldedTwiddles s) (keyVal W X s) mem
      (fun key : Key nROW nCOL m => Active foldedTwiddles m s key ∧
        stageOwner m s key = c * 4 ^ (m - 2) + k) () := by
  have hle := quarter_fits hcols hc
  have hlen := quarter (show 0 < m by omega)
  rw [foldedStage_eq hm hs (by omega) hk hfuel]
  refine core_scatters hcols hm hk fun i0 hi0 => ?_
  choose part heq hpart using hparts s hs i0 hi0
  have hbutterfly : ∀ w, kernelButterfly m s w = butterflyAt W m s (i0 % 4 ^ (m - 1 - s)) →
      ∀ r < nROW, (part w r).Scatters (StageReads foldedTwiddles s)
        (keyLoc (layout (s + 1)) foldedTwiddles s) (keyVal W X s) mem
        (OwnsColumn m s r c i0 : Key nROW nCOL m → Prop) () := fun w hw r hr => by
    obtain ⟨pIn, pOut, inp, out, hcolumn, hin, hout⟩ := hpart w r hr
    rw [hcolumn, hw]
    exact radix4Column_scatters h hcols hs hr hc hi0 hin hout
  rw [show kernelColumn first middle last _ m s i0 = fun w => Prog.each (part w) (List.range nROW)
    from funext heq]
  by_cases hmid : s + 1 < m
  · refine task_scatters hcols hmid (loadColumn_scatters h hcols hfit hmid hc hi0)
      (hbutterfly _ ?_)
    unfold kernelButterfly butterflyAt
    rfl
  · have hload : loadColumn NB foldedTwiddles (coefAt foldedTwiddles m c) m s i0 =
        pure (shuffleTwiddlefact 0 0 0) := if_neg hmid
    rw [hload]
    refine lastTask_scatters hcols hmid (hbutterfly _ ?_)
    unfold kernelButterfly butterflyAt
    rw [if_neg hmid, if_neg (show ¬s = 0 by omega), if_neg (show ¬s = 0 by omega), if_neg hmid]

end Stage

/-! ## The layouts of the kernels -/

section Kernels

variable {NB nROW nCOL m r c fuel : Nat} {foldedTwiddles : Bool} {p : Nat → FftLoc}

/-- The layouts of the kernel of one transform, which ends in the order of the unfolded one. -/
def Layout.ofKernel (hm : 0 < m) (hcols : nCOL * 4 ^ (m - 1) ≤ NB) (s : Nat) : Layout NB nCOL m :=
  if s = 0 then .contiguous hm hcols
  else if s < m then .folded hm hcols s
  else .contiguous hm hcols

/-- Those of the scheduler, which ends with the reversal of the bits. -/
def Layout.ofScheduler (hm : 0 < m) (hcols : nCOL * 4 ^ (m - 1) ≤ NB) (s : Nat) :
    Layout NB nCOL m :=
  if s = 0 then .contiguous hm hcols
  else if s ≤ m then .folded hm hcols s
  else .reversed hm hcols

theorem cells_zero (len : Nat) (p : Nat → FftLoc) : cells NB 0 0 len p = p := by
  funext i
  rw [cells, Nat.zero_mul, Nat.zero_mul, Nat.zero_mul, Nat.zero_add, Nat.zero_add]

/-- The kernel of one transform has one row and one column. -/
theorem folded_goesThrough (hm : 2 ≤ m) (hcols : 1 * 4 ^ (m - 1) ≤ NB) (hfit : NB ≤ 2 ^ 28) :
    GoesThrough (.ofKernel (by omega) hcols) 1 0 foldedTwiddles
      (fun b w => radix4ButterflyFirstFolded NB w b.pSrc16 b.pDst16)
      (fun b w => radix4ButterflyMiddleFolded NB w b.pSrc16 b.pDst16)
      (fun b => radix4ButterflyLastFolded NB b.pSrc16 b.pDst16) := by
  intro s hs i0 hi0 w
  have hone : ∀ p : Prog FftLoc V2s Unit, p = Prog.each (fun _ => p) (List.range 1) := fun p =>
    (Prog.each_singleton (fun _ => p) 0).symm
  refine ⟨_, hone _, fun r hr => ?_⟩
  obtain rfl : r = 0 := by omega
  unfold kernelColumn kernelButterfly Layout.ofKernel bufferAt
  dsimp only
  by_cases h0 : s = 0
  · subst h0
    have hcolumn := @firstFolded_isColumn NB 1 m 0 0 i0 w hm hcols hfit (by decide) hi0
    rw [cells_zero, cells_zero] at hcolumn
    rw [if_pos rfl, if_pos rfl, if_pos rfl, if_neg (Nat.succ_ne_zero 0), if_pos (by omega)]
    exact hcolumn
  · rw [if_neg h0, if_neg h0, if_neg h0, if_pos hs, if_neg (Nat.succ_ne_zero s)]
    by_cases hmid : s + 1 < m
    · have hcolumn := @middleFolded_isColumn NB 1 m s 0 0 i0 w hm hcols hfit hmid (by decide) hi0
      rw [cells_zero, cells_zero] at hcolumn
      rw [if_pos hmid, if_pos hmid, if_pos hmid]
      exact hcolumn
    · obtain rfl : s = m - 1 := by omega
      have hcolumn := @lastFolded_isColumn NB 1 m 0 0 i0 hm hcols hfit (by decide) hi0
      rw [cells_zero, cells_zero] at hcolumn
      rw [if_neg hmid, if_neg hmid, if_neg hmid]
      exact hcolumn

theorem rows_eq {body : Nat → Prog FftLoc V2s Unit} (hrows : nROW < 2 ^ 32) (hfuel : nROW ≤ fuel) :
    rows nROW fuel body = Prog.each body (List.range nROW) := by
  unfold rows
  rw [loop_eq body (n := nROW) (fun k hk => by omega) (by omega) (by omega) hfuel, Prog.each_map]
  exact Prog.each_congr fun r _ => by rw [Nat.mul_one, Nat.zero_add]

theorem banks_fit (hbanks : 16 * NB * nROW ≤ 2 ^ 32) (hrow : 0 < nROW) (hNB : 0 < NB) :
    NB ≤ 2 ^ 28 ∧ nROW < 2 ^ 32 := by
  have hone := Nat.le_mul_of_pos_right (16 * NB) hrow
  have htwo := Nat.mul_le_mul_right nROW (show 16 ≤ 16 * NB by omega)
  omega

theorem scheduler_column (hm : 2 ≤ m) (hcols : nCOL * 4 ^ (m - 1) ≤ NB)
    (hbanks : 16 * NB * nROW ≤ 2 ^ 32) (hrow : 0 < nROW) (hc : c < nCOL) :
    u32 (u32 (2 * c) * 4 ^ m) = c * 4 ^ m * 2 ∧
      u32 (u32 (2 * c) * (4 ^ m / 4)) = c * 4 ^ (m - 1) * 2 := by
  have hpow := quarter (show 0 < m by omega)
  have hpos : 0 < 4 ^ (m - 1) := Nat.pow_pos (by decide)
  have hcolumn : c * 4 ^ (m - 1) < NB := (block_lt hc hpos).trans_le hcols
  obtain ⟨hfit, -⟩ := banks_fit hbanks hrow (show 0 < NB by omega)
  have hc' : c < 2 ^ 28 := (Nat.le_mul_of_pos_right c hpos).trans_lt (hcolumn.trans_le hfit)
  have hlen : c * 4 ^ m = 4 * (c * 4 ^ (m - 1)) := by rw [hpow, Nat.mul_left_comm]
  have hdiv : 4 ^ m / 4 = 4 ^ (m - 1) := by omega
  have htwice : ∀ n, 2 * c * n = c * n * 2 := fun n => by rw [Nat.mul_assoc, Nat.mul_comm]
  rw [hdiv, u32_eq (show 2 * c < 2 ^ 32 by omega), htwice, htwice]
  exact ⟨u32_eq (by omega), u32_eq (by omega)⟩

/-- The pointers of the scheduler, with the row added first or the column. -/
theorem scheduler_cells (hm : 2 ≤ m) (hcols : nCOL * 4 ^ (m - 1) ≤ NB)
    (hbanks : 16 * NB * nROW ≤ 2 ^ 32) (hr : r < nROW) (hc : c < nCOL) (p : Nat → FftLoc) :
    let row := u32 (r * u32 (NB * 8))
    let col := u32 (u32 (2 * c) * 4 ^ m)
    let colFolded := u32 (u32 (2 * c) * (4 ^ m / 4))
    shift (shift p row) col = cells NB r c (4 ^ m) p ∧
      shift (shift p row) colFolded = cells NB r c (4 ^ (m - 1)) p ∧
      shift (shift p col) row = cells NB r c (4 ^ m) p ∧
      shift (shift p colFolded) row = cells NB r c (4 ^ (m - 1)) p := by
  have hNB : 0 < NB := (Nat.pow_pos (by decide)).trans_le (quarter_fits hcols hc)
  have hrow : u32 (r * u32 (NB * 8)) = r * (NB * 8) := by
    obtain ⟨hfit, -⟩ := banks_fit hbanks (by omega) hNB
    have hlt :=
      calc r * (NB * 8) ≤ r * (16 * NB) := Nat.mul_le_mul_left r (by omega)
        _ = 16 * NB * r := Nat.mul_comm _ _
        _ < 16 * NB * nROW := Nat.mul_lt_mul_of_pos_left hr (by omega)
        _ ≤ 2 ^ 32 := hbanks
    rw [u32_eq (show NB * 8 < 2 ^ 32 by omega), u32_eq hlt]
  obtain ⟨hcol, hcolFolded⟩ := scheduler_column hm hcols hbanks (by omega) hc
  dsimp only
  rw [hrow, hcol, hcolFolded]
  unfold shift cells
  exact ⟨rfl, rfl, funext fun i => congrArg p (by omega), funext fun i => congrArg p (by omega)⟩

/-- The scheduler has the rows of a column one after the other. -/
theorem scheduler_goesThrough (hm : 2 ≤ m) (hcols : nCOL * 4 ^ (m - 1) ≤ NB)
    (hbanks : 16 * NB * nROW ≤ 2 ^ 32) (hrow : 0 < nROW) (hc : c < nCOL) (hfuel : nROW ≤ fuel) :
    let row idxRow := u32 (idxRow * u32 (NB * 8))
    let col := u32 (u32 (2 * c) * 4 ^ m)
    let colFolded := u32 (u32 (2 * c) * (4 ^ m / 4))
    GoesThrough (.ofScheduler (by omega) hcols) nROW c foldedTwiddles
      (fun b w i0 n2 => rows nROW fuel fun idxRow =>
        radix4ButterflyFirstFolded NB w (shift (shift b.pSrc16 (row idxRow)) col)
          (shift (shift b.pDst16 (row idxRow)) colFolded) i0 n2)
      (fun b w i0 n2 => rows nROW fuel fun idxRow =>
        radix4ButterflyMiddleFolded NB w (shift (shift b.pSrc16 (row idxRow)) colFolded)
          (shift (shift b.pDst16 (row idxRow)) colFolded) i0 n2)
      (fun b i0 => rows nROW fuel fun idxRow =>
        radix4ButterflyLastScheduled NB (shift (shift b.pSrc16 (row idxRow)) colFolded)
          (shift (shift b.pDst16 (row idxRow)) colFolded) i0) := by
  have hpos : 0 < 4 ^ (m - 1) := Nat.pow_pos (by decide)
  obtain ⟨hfit, hrows⟩ := banks_fit hbanks hrow (hpos.trans_le (quarter_fits hcols hc))
  have hcells := fun r hr => @scheduler_cells NB nROW nCOL m r c hm hcols hbanks hr hc
  intro row col colFolded s hs i0 hi0 w
  unfold kernelColumn kernelButterfly Layout.ofScheduler bufferAt
  dsimp only
  by_cases h0 : s = 0
  · subst h0
    rw [if_pos rfl, if_pos rfl, if_pos rfl, if_neg (Nat.succ_ne_zero 0), if_pos (by omega)]
    refine ⟨_, rows_eq hrows hfuel, fun r hr => ?_⟩
    rw [(hcells r hr _).1, (hcells r hr _).2.1]
    exact firstFolded_isColumn hm hcols hfit hc hi0
  · rw [if_neg h0, if_neg h0, if_neg h0, if_pos hs.le, if_neg (Nat.succ_ne_zero s),
      if_pos (show s + 1 ≤ m from hs)]
    by_cases hmid : s + 1 < m
    · rw [if_pos hmid, if_pos hmid]
      refine ⟨_, rows_eq hrows hfuel, fun r hr => ?_⟩
      rw [(hcells r hr _).2.1, (hcells r hr _).2.1]
      exact middleFolded_isColumn hm hcols hfit hmid hc hi0
    · obtain rfl : s = m - 1 := by omega
      rw [if_neg hmid, if_neg hmid]
      refine ⟨_, rows_eq hrows hfuel, fun r hr => ?_⟩
      rw [(hcells r hr _).2.1, (hcells r hr _).2.1]
      exact lastScheduled_isColumn hm hcols hfit hc hi0

end Kernels

/-! ## The reversal of the bits -/

section Reversal

variable {NB nROW nCOL m r c k fuel : Nat} {foldedTwiddles : Bool} {W : Nat → V2s}
  {X : Nat → Nat → Nat → V2s} {mem : FftLoc → V2s}

/-- The loop shifts in the bits from the lowest on. -/
theorem reverseLoop_eq {acc x : Nat} (hfit : (acc + 1) * 2 ^ k ≤ 2 ^ 32) :
    reverseLoop k acc x = acc * 2 ^ k + bitReversed k x := by
  induction k generalizing acc x with
  | zero => rw [reverseLoop, bitReversed, Nat.pow_zero, Nat.mul_one, Nat.add_zero]
  | succ k ih =>
      have hpos := Nat.two_pow_pos k
      have hbit : x % 2 < 2 ^ 1 := Nat.mod_lt x (by decide)
      have hpow : (acc + 1) * 2 ^ (k + 1) = (acc * 2 + 2) * 2 ^ k := by
        rw [Nat.pow_succ', ← Nat.mul_assoc, Nat.add_mul]
      have hmul := Nat.mul_le_mul_right (2 ^ k) (show acc * 2 + x % 2 + 1 ≤ acc * 2 + 2 by omega)
      have hacc : acc * 2 < 2 ^ 32 := by
        have := Nat.le_mul_of_pos_right (acc * 2 + 2) hpos
        omega
      have hnext : u32 (acc <<< 1) ||| x &&& 1 = acc * 2 + x % 2 := by
        have hor := Nat.shiftLeft_add_eq_or_of_lt hbit acc
        rw [Nat.shiftLeft_eq, Nat.pow_one] at hor
        rw [Nat.and_one_is_mod, Nat.shiftLeft_eq, Nat.pow_one, u32_eq hacc, hor]
      rw [reverseLoop, hnext, ih (by omega), bitReversed, Nat.shiftRight_one, Nat.add_mul,
        Nat.pow_succ', Nat.mul_assoc, Nat.mul_comm (2 ^ k), Nat.add_assoc]

/-- Four elements of a transform from one layout to the other. -/
def reversePart (L L' : Layout NB nCOL m) (r c ic : Nat) : Prog FftLoc V2s Unit :=
  Prog.each (fun j => copy (dataBuffer (m + 1) (L'.cell r c (ic + j)))
    (dataBuffer m (L.cell r c (ic + j)))) (List.range 4)

/-- What the reversal of a core starts from, a column of each block of the last stage. -/
def reverseColumns (m k : Nat) : List Nat := (List.range 4).map fun t => k * 4 + t * 4 ^ (m - 1)

theorem fold_last (NB m e : Nat) : fold NB (4 ^ (m - 1 - m)) e = e / 4 + e % 4 * NB := by
  rw [show m - 1 - m = 0 by omega, Nat.pow_zero, fold, column, butterflyOn, wing, Nat.mul_one,
    Nat.mul_one, Nat.mod_one, Nat.add_zero, Nat.div_one]

theorem mem_reverseColumns (hm : 2 ≤ m) (hk : k < 4 ^ (m - 2)) {ic : Nat}
    (hic : ic ∈ reverseColumns m k) : ic % 4 = 0 ∧ ic + 3 < 4 ^ m := by
  have hquarter := sixteenth hm
  have hpow := quarter (show 0 < m by omega)
  obtain ⟨t, ht, rfl⟩ := List.mem_map.mp hic
  have ht := List.mem_range.mp ht
  have hmul := Nat.mul_le_mul_right (4 ^ (m - 1)) (Nat.le_of_lt_succ ht)
  refine ⟨?_, by omega⟩
  rw [hquarter, Nat.mul_left_comm]
  omega

theorem bitReversal_eq (hm : 2 ≤ m) (hcols : nCOL * 4 ^ (m - 1) ≤ NB)
    (hbanks : 16 * NB * nROW ≤ 2 ^ 32) (hrow : 0 < nROW) (hc : c < nCOL) (hk : k < 4 ^ (m - 2))
    (hfuel : nROW ≤ fuel) (hfuel' : 4 ≤ fuel) {b : Buffers} (hsrc : b.pSrc16 = dataBuffer m)
    (hdst : b.pDst16 = dataBuffer (m + 1)) :
    bitReversal NB b (4 ^ m) nROW (2 * m) (4 ^ (m - 2)) k c fuel =
      Prog.each (fun ic => Prog.each (fun r => reversePart (Layout.folded (by omega) hcols m)
        (Layout.reversed (by omega) hcols) r c ic) (List.range nROW)) (reverseColumns m k) := by
  have hquarter := sixteenth hm
  have hpow := quarter (show 0 < m by omega)
  have hle := quarter_fits hcols hc
  have hpos : 0 < 4 ^ (m - 1) := Nat.pow_pos (by decide)
  obtain ⟨hfit, hrows⟩ := banks_fit hbanks hrow (hpos.trans_le hle)
  have hstep : u32 (4 ^ (m - 2) * 4) = 4 ^ (m - 1) := by rw [u32_eq (by omega)]; omega
  unfold bitReversal
  rw [hsrc, hdst, hstep, u32_eq (show k * 4 < 2 ^ 32 by omega),
    loop_eq _ (n := 4) (fun t ht => ?_) (by omega) (by omega) hfuel']
  swap
  · have hmul := Nat.mul_le_mul_right (4 ^ (m - 1)) (Nat.le_of_lt_succ ht)
    omega
  refine Prog.each_congr fun ic hic => ?_
  obtain ⟨h4, hic⟩ := mem_reverseColumns hm hk hic
  dsimp only
  rw [rows_eq hrows hfuel]
  refine Prog.each_congr fun r hr => ?_
  have hr := List.mem_range.mp hr
  have hcells := @scheduler_cells NB nROW nCOL m r c hm hcols hbanks hr hc
  have hrev : ∀ {e}, reverseLoop (2 * m) 0 e = bitReversed (2 * m) e := fun {e} => by
    rw [reverseLoop_eq, Nat.zero_mul, Nat.zero_add]
    rw [Nat.zero_add, Nat.one_mul, Nat.pow_mul]
    change 4 ^ m ≤ _
    omega
  have hlt : ∀ e, bitReversed (2 * m) e < 4 ^ m := fun e =>
    Nat.pow_mul 2 2 m ▸ bitReversed_lt (2 * m) e
  have hfolded : ∀ j < 4, fold NB (4 ^ (m - 1 - m)) (ic + j) = ic / 4 + j * NB := fun j hj => by
    rw [fold_last, show (ic + j) / 4 = ic / 4 by omega, show (ic + j) % 4 = j by omega]
  have hcopy : ∀ j < 4, ∀ i, i = ic / 4 + j * NB →
      copy (cells NB r c (4 ^ m) (dataBuffer (m + 1))
        (u32 (2 * reverseLoop (2 * m) 0 (ic + j))))
        (cells NB r c (4 ^ (m - 1)) (dataBuffer m) (u32 (2 * i))) =
      copy (dataBuffer (m + 1) ((Layout.reversed (by omega) hcols).cell r c (ic + j)))
        (dataBuffer m ((Layout.folded (by omega) hcols m).cell r c (ic + j))) := fun j hj i hi => by
    have hmul := Nat.mul_le_mul_right NB (Nat.le_of_lt_succ hj)
    have hto : bitReversed (2 * m) (ic + j) * 2 < 2 ^ 32 := by
      have := hlt (ic + j)
      omega
    have hfrom : (ic / 4 + j * NB) * 2 < 2 ^ 32 := by omega
    rw [hrev, Nat.mul_comm 2 (bitReversed _ _), Nat.mul_comm 2 i, hi]
    exact congrArg₂ copy (cells_index rfl hto)
      (cells_index (congrArg (c * 4 ^ (m - 1) + ·) (hfolded j hj)) hfrom)
  rw [(hcells (dataBuffer m)).2.2.2, (hcells (dataBuffer (m + 1))).2.2.1,
    u32_eq (show ic + 1 < 2 ^ 32 by omega), u32_eq (show ic + 2 < 2 ^ 32 by omega),
    u32_eq (show ic + 3 < 2 ^ 32 by omega), u32_eq (show ic / 4 + NB < 2 ^ 32 by omega),
    u32_eq (show 2 * NB < 2 ^ 32 by omega), u32_eq (show 3 * NB < 2 ^ 32 by omega),
    u32_eq (show ic / 4 + 2 * NB < 2 ^ 32 by omega),
    u32_eq (show ic / 4 + 3 * NB < 2 ^ 32 by omega)]
  have hcopy0 := hcopy 0 (by decide) (ic / 4) (by omega)
  simp only [Nat.add_zero] at hcopy0
  rw [hcopy0, hcopy 1 (by decide) _ (by omega), hcopy 2 (by decide) _ rfl,
    hcopy 3 (by decide) _ rfl]
  rfl

/-- The core that copies an element. -/
def reverseOwner (m : Nat) : Key nROW nCOL m → Nat
  | .inl key => key.2.1 * 4 ^ (m - 2) + key.2.2 / 4 % 4 ^ (m - 2)
  | .inr _ => 0

section Copies

variable {L L' : Layout NB nCOL m} {e ic : Nat} (h : Holds L nROW foldedTwiddles W X m mem)
  (hm : 2 ≤ m) (hcols : nCOL * 4 ^ (m - 1) ≤ NB)

include h hcols

theorem copy_scatters (hr : r < nROW) (hc : c < nCOL) (he : e < 4 ^ m) :
    (copy (dataBuffer (m + 1) (L'.cell r c e)) (dataBuffer m (L.cell r c e))).Scatters
      (StageReads foldedTwiddles m) (keyLoc L' foldedTwiddles m) (keyVal W X m) mem
      (· = (.inl (⟨r, hr⟩, ⟨c, hc⟩, ⟨e, he⟩) : Key nROW nCOL m)) () := by
  have hside := fun key : Key nROW nCOL m => @keyLoc_side NB nROW nCOL m m foldedTwiddles L' key
  have hinj := @keyLoc_injective NB nROW nCOL m m foldedTwiddles L' hcols
  refine Prog.Scatters.get_bind hside hinj (Or.inl ⟨_, rfl⟩) (Prog.Scatters.set _ rfl ?_)
  rw [h.data r hr c hc e he]
  -- the last stage changes nothing
  change stageData W m X m r c e = stageData W m X (m + 1) r c e
  rw [stageData, stageData, Nat.min_self, Nat.min_eq_right (Nat.le_succ m)]

include hm

theorem reversal_scatters (hc : c < nCOL) (hk : k < 4 ^ (m - 2)) :
    (Prog.each (fun ic => Prog.each (fun r => reversePart L L' r c ic) (List.range nROW))
      (reverseColumns m k)).Scatters (StageReads foldedTwiddles m) (keyLoc L' foldedTwiddles m)
      (keyVal W X m) mem (fun key : Key nROW nCOL m => Active foldedTwiddles m m key ∧
        reverseOwner m key = c * 4 ^ (m - 2) + k) () := by
  have hquarter := sixteenth hm
  have hpow := quarter (show 0 < m by omega)
  have hside := fun key : Key nROW nCOL m => @keyLoc_side NB nROW nCOL m m foldedTwiddles L' key
  have hinj := @keyLoc_injective NB nROW nCOL m m foldedTwiddles L' hcols
  let own (ic : Nat) (key : Key nROW nCOL m) : Prop := ∃ r ∈ List.range nROW, ∃ j ∈ List.range 4,
    ∃ hr : r < nROW, ∃ he : ic + j < 4 ^ m, key = .inl (⟨r, hr⟩, ⟨c, hc⟩, ⟨ic + j, he⟩)
  refine (@Prog.Scatters.each _ _ _ _ _ _ _ _ _ hside hinj _ own _ fun ic hic =>
    Prog.Scatters.each hside hinj fun r hr => Prog.Scatters.each hside hinj fun j hj => ?_).congr
    fun key => ?_
  · obtain ⟨-, hic⟩ := mem_reverseColumns hm hk hic
    have hr := List.mem_range.mp hr
    have hj := List.mem_range.mp hj
    refine (copy_scatters h hcols hr hc (show ic + j < 4 ^ m by omega)).congr fun key =>
      ⟨fun heq => ⟨hr, by omega, heq⟩, ?_⟩
    rintro ⟨_, _, heq⟩
    exact heq
  · have hturn : ∀ t, k * 4 + t * 4 ^ (m - 1) = 4 * (k + t * 4 ^ (m - 2)) := fun t => by
      rw [hquarter, Nat.mul_left_comm]
      omega
    constructor
    · rintro ⟨ic, hic, r, -, j, hj, hr, he, rfl⟩
      obtain ⟨t, -, rfl⟩ := List.mem_map.mp hic
      have hj := List.mem_range.mp hj
      refine ⟨trivial, ?_⟩
      dsimp only [reverseOwner]
      rw [hturn, Nat.mul_add_div (by decide), Nat.div_eq_of_lt hj, Nat.add_zero,
        Nat.add_mul_mod_self_right, Nat.mod_eq_of_lt hk]
    · cases key with
      | inl key =>
          obtain ⟨⟨r, hr⟩, ⟨c', hc'⟩, ⟨e, he⟩⟩ := key
          rintro ⟨-, howner⟩
          obtain ⟨rfl, hplace⟩ := block_inj (Nat.mod_lt _ (by omega)) hk howner
          have hdiv := Nat.div_add_mod' (e / 4) (4 ^ (m - 2))
          have ht : e / 4 / 4 ^ (m - 2) < 4 := Nat.div_lt_of_lt_mul (by omega)
          have hsplit : k * 4 + e / 4 / 4 ^ (m - 2) * 4 ^ (m - 1) + e % 4 = e := by
            rw [hturn]
            dsimp only at hplace
            omega
          refine ⟨_, List.mem_map.mpr ⟨_, List.mem_range.mpr ht, rfl⟩,
            r, List.mem_range.mpr hr, e % 4,
            List.mem_range.mpr (Nat.mod_lt e (by decide)), hr, hsplit.symm ▸ he, ?_⟩
          exact congrArg Sum.inl (congrArg (Prod.mk _) (congrArg (Prod.mk _)
            (Fin.ext hsplit.symm)))
      | inr key =>
          rintro ⟨⟨-, hno⟩, -⟩
          omega

end Copies

end Reversal

/-! ## Every run -/

section Runs

variable {NB nROW nCOL m stages c k fuel n : Nat} {foldedTwiddles : Bool} {W : Nat → V2s}
  {X : Nat → Nat → Nat → V2s} {mem : FftLoc → V2s} {layout : Nat → Layout NB nCOL m}

/-- Stages in which every key has its core go from layout to layout. -/
theorem layouts_run {body : Fin n → Nat → Prog FftLoc V2s Unit}
    {owner : Nat → Key nROW nCOL m → Nat} (hn : 0 < n) (hcols : nCOL * 4 ^ (m - 1) ≤ NB)
    (howner : ∀ s < stages, ∀ key, Active foldedTwiddles m s key → owner s key < n)
    (hbody : ∀ s < stages, ∀ mem, Holds (layout s) nROW foldedTwiddles W X s mem → ∀ core : Fin n,
      (body core s).Scatters (StageReads foldedTwiddles s)
      (keyLoc (layout (s + 1)) foldedTwiddles s)
        (keyVal W X s) mem (fun key => Active foldedTwiddles m s key ∧ owner s key = core) ())
    (h : Holds (layout 0) nROW foldedTwiddles W X 0 mem) :
    Team.Finally (fun t => t.Returned (fun _ => ()) ∧
      Holds (layout stages) nROW foldedTwiddles W X stages t.mem)
      ⟨mem, fun core => Prog.stages (body core) stages 0⟩ := by
  refine Team.Finally.stages_invariant (I := fun s => Holds (layout s) nROW foldedTwiddles W X s) hn
    (fun s hs mem hmem K hnext => ?_) (fun mem' hmem' => ⟨fun _ => rfl, ?_⟩) h
  · rw [Nat.zero_add] at hs
    exact hmem.finally hcols (howner s hs) (hbody s hs mem hmem) hnext
  · rwa [Nat.zero_add] at hmem'

theorem coefAt_zero (p : Nat → FftLoc) : coefAt foldedTwiddles m 0 p = p := by
  unfold coefAt
  split
  · funext i
    rw [shift, Nat.zero_mul, Nat.zero_mul, Nat.zero_add]
  · rfl

theorem folded_eq (hm : 2 ≤ m) (hfuel : 4 ^ m ≤ fuel) :
    mempoolRadix4CfftQ16pFolded NB foldedTwiddles (4 ^ m) k fuel =
      Prog.stages (foldedStage NB foldedTwiddles (coefAt foldedTwiddles m 0)
        (fun b w => radix4ButterflyFirstFolded NB w b.pSrc16 b.pDst16)
        (fun b w => radix4ButterflyMiddleFolded NB w b.pSrc16 b.pDst16)
        (fun b => radix4ButterflyLastFolded NB b.pSrc16 b.pDst16) m k fuel) m 0 := by
  have hstart := @bufferAt_zero foldedTwiddles (coefAt foldedTwiddles m 0)
  rw [coefAt_zero, coefAt_zero] at hstart
  unfold mempoolRadix4CfftQ16pFolded
  rw [← hstart, cfftFolded_eq hm hfuel]
  change Prog.bind (Prog.bind _ _) _ = _
  rw [Prog.bind_assoc]
  exact Prog.bind_ret _

/-- The stages of the scheduler for core `k` of column `c`; the last one reverses the bits. -/
def schedulerStage (NB nROW : Nat) (foldedTwiddles : Bool) (m c k fuel s : Nat)
    (reversal : Prog FftLoc V2s Unit) : Prog FftLoc V2s Unit :=
  let row idxRow := u32 (idxRow * u32 (NB * 8))
  let col := u32 (u32 (2 * c) * 4 ^ m)
  let colFolded := u32 (u32 (2 * c) * (4 ^ m / 4))
  if s < m then
    foldedStage NB foldedTwiddles (coefAt foldedTwiddles m c)
      (fun b w i0 n2 => rows nROW fuel fun idxRow =>
        radix4ButterflyFirstFolded NB w (shift (shift b.pSrc16 (row idxRow)) col)
          (shift (shift b.pDst16 (row idxRow)) colFolded) i0 n2)
      (fun b w i0 n2 => rows nROW fuel fun idxRow =>
        radix4ButterflyMiddleFolded NB w (shift (shift b.pSrc16 (row idxRow)) colFolded)
          (shift (shift b.pDst16 (row idxRow)) colFolded) i0 n2)
      (fun b i0 => rows nROW fuel fun idxRow =>
        radix4ButterflyLastScheduled NB (shift (shift b.pSrc16 (row idxRow)) colFolded)
          (shift (shift b.pDst16 (row idxRow)) colFolded) i0) m k fuel s
  else reversal

theorem scheduler_eq (hm : 2 ≤ m) (hcols : nCOL * 4 ^ (m - 1) ≤ NB)
    (hbanks : 16 * NB * nROW ≤ 2 ^ 32) (hrow : 0 < nROW) (hc : c < nCOL) (hk : k < 4 ^ (m - 2))
    (hfuel : 4 ^ m ≤ fuel) (hfuel' : nROW ≤ fuel) :
    mempoolRadix4CfftQ16pScheduler NB foldedTwiddles (4 ^ m) nROW (2 * m) true (4 ^ (m - 2))
      (c * 4 ^ (m - 2) + k) fuel =
      Prog.stages (fun s => schedulerStage NB nROW foldedTwiddles m c k fuel s
        (Prog.each (fun ic => Prog.each (fun r => reversePart (Layout.folded (by omega) hcols m)
          (Layout.reversed (by omega) hcols) r c ic) (List.range nROW)) (reverseColumns m k)))
        (m + 1) 0 := by
  have hshift : 4 ^ m >>> 4 = 4 ^ (m - 2) := by
    rw [show m = m - 2 + 2 by omega, Nat.pow_add, Nat.shiftRight_eq_div_pow]
    exact Nat.mul_div_cancel _ (by decide)
  have hcore : (c * 4 ^ (m - 2) + k) % 4 ^ (m - 2) = k := by
    rw [Nat.mul_add_mod_self_right, Nat.mod_eq_of_lt hk]
  have hcol : (c * 4 ^ (m - 2) + k) / 4 ^ (m - 2) = c := by
    rw [Nat.mul_comm, Nat.mul_add_div (by omega), Nat.div_eq_of_lt hk, Nat.add_zero]
  have hcoef : ∀ p : Nat → FftLoc, (if foldedTwiddles = true then
      shift p (u32 (u32 (2 * c) * 4 ^ m) / 4) else p) = coefAt foldedTwiddles m c p := fun p => by
    rw [(scheduler_column hm hcols hbanks hrow hc).1,
      show c * 4 ^ m * 2 / 4 = c * 4 ^ (m - 1) * 2 by
      rw [quarter (show 0 < m by omega), Nat.mul_left_comm]
      omega]
    rfl
  have hstart := @bufferAt_zero foldedTwiddles (coefAt foldedTwiddles m c)
  let b := bufferAt foldedTwiddles (coefAt foldedTwiddles m c) (m - 1)
  have hsrc : b.pDst16 = dataBuffer m := congrArg dataBuffer (show m - 1 + 1 = m by omega)
  have hdst : b.pSrc16 = dataBuffer (m + 1) := (dataBuffer_succ_succ (m - 1)).symm.trans
    (congrArg dataBuffer (show m - 1 + 1 + 1 = m + 1 by omega))
  have hreverse := bitReversal_eq (b := { b with pSrc16 := b.pDst16, pDst16 := b.pSrc16 }) hm hcols
    hbanks hrow hc hk hfuel' (by omega) hsrc hdst
  unfold mempoolRadix4CfftQ16pScheduler
  dsimp only
  rw [hshift, hcore, hcol, hcoef, hcoef, ← hstart, cfftFolded_eq hm hfuel]
  change Prog.bind (Prog.bind _ _) _ = _
  rw [Prog.bind_assoc, Prog.stages_succ, Nat.zero_add]
  refine congrArg₂ Prog.bind (Prog.stages_congr m fun s hs => ?_) (funext fun _ => ?_)
  · rw [schedulerStage, if_pos (by omega)]
  · rw [schedulerStage, if_neg (Nat.lt_irrefl m), ← hreverse]
    rfl

end Runs

/-! ## Transforms apart -/

section Separate

variable {NB nROW nCOL m c k fuel : Nat} {foldedTwiddles : Bool}

/-- The twiddle factors of both buffers. -/
def Factor (a : FftLoc) : Prop := ∃ i, a = .coefSrc i ∨ a = .coefDst i

/-- What the cores of the scheduler do. The butterflies and the copies of a transform load its
numbers from where a layout has them, and store them where the next one has them. -/
structure Separate (layout : Nat → Layout NB nCOL m) (nROW : Nat)
    (kernel : Nat → Prog FftLoc V2s Unit) : Prop where
  starts : ∀ c e, (layout 0).index c e = c * 4 ^ m + e
  ends : ∀ c e, (layout (m + 1)).index c e = c * 4 ^ m + bitReversed (2 * m) e
  parts : ∀ c < nCOL, ∀ k < 4 ^ (m - 2), ∃ (tasks : Nat → List Nat)
    (load : Nat → Nat → Prog FftLoc V2s Twiddles)
    (part : Nat → Nat → Twiddles → Nat → Prog FftLoc V2s Unit),
    kernel (c * 4 ^ (m - 2) + k) = Prog.stages (fun s => Prog.each (fun i => load s i >>= fun w =>
      Prog.each (part s i w) (List.range nROW)) (tasks s)) (m + 1) 0 ∧
    (∀ s ≤ m, ∀ i ∈ tasks s, ∀ mem, ∃ w mem', (load s i).Runs Factor Factor mem w mem') ∧
    ∀ s ≤ m, ∀ i ∈ tasks s, ∀ w, ∀ r < nROW, ∀ mem, ∃ mem',
      (part s i w r).Runs (Own (layout s) s r c) (Own (layout (s + 1)) (s + 1) r c) mem () mem'
  apart : ∀ s, ∀ r, ∀ c < nCOL, ∀ r', ∀ c' < nCOL, ∀ a, Own (layout s) s r c a →
    Own (layout s) s r' c' a → r = r' ∧ c = c'
  fresh : ∀ s r c r' c' a, Own (layout s) s r c a → ¬Own (layout (s + 1)) (s + 1) r' c' a

theorem storeTwiddlefact_runs {p : Nat → FftLoc} (hp : ∀ i, Factor (p i)) (v : V2s) (i n : Nat)
    (mem : FftLoc → V2s) : ∃ mem', (storeTwiddlefact p v i n).Runs Factor Factor mem () mem' :=
  ⟨_, (Prog.Runs.set (hp _) _ _).bind ((Prog.Runs.set (hp _) _ _).bind
    ((Prog.Runs.set (hp _) _ _).bind (Prog.Runs.set (hp _) _ _)))⟩

theorem loadStoreTwiddlefact_runs {b : Buffers} (hsrc : ∀ i, Factor (b.pCoefSrc i))
    (hdst : ∀ i, Factor (b.pCoefDst i)) (ic i n : Nat) (mem : FftLoc → V2s) : ∃ w mem',
      (loadStoreTwiddlefact NB foldedTwiddles b ic i n).Runs Factor Factor mem w mem' := by
  unfold loadStoreTwiddlefact
  cases foldedTwiddles with
  | false =>
      exact ⟨_, _, (Prog.Runs.get (hsrc _) mem).bind ((Prog.Runs.get (hsrc _) mem).bind
        ((Prog.Runs.get (hsrc _) mem).bind (Prog.Runs.ret _ mem)))⟩
  | true =>
      rw [if_pos rfl]
      by_cases h4 : ic % 4 = 0
      · simp only [if_pos h4]
        obtain ⟨mem₁, h₁⟩ := storeTwiddlefact_runs hdst (mem (b.pCoefSrc (u32 (2 * ic)))) i n mem
        obtain ⟨mem₂, h₂⟩ := storeTwiddlefact_runs hdst
          (mem (b.pCoefSrc (u32 (2 * u32 (ic + u32 (1 * NB)))))) (u32 (i + NB)) n mem₁
        obtain ⟨mem₃, h₃⟩ := storeTwiddlefact_runs hdst
          (mem (b.pCoefSrc (u32 (2 * u32 (ic + u32 (2 * NB)))))) (u32 (u32 (i + NB) + NB)) n mem₂
        exact ⟨_, mem₃, (Prog.Runs.get (hsrc _) mem).bind ((Prog.Runs.get (hsrc _) mem).bind
          ((Prog.Runs.get (hsrc _) mem).bind (h₁.bind (h₂.bind (h₃.bind
            (Prog.Runs.ret _ mem₃))))))⟩
      · simp only [if_neg h4]
        exact ⟨_, _, (Prog.Runs.get (hsrc _) mem).bind ((Prog.Runs.get (hsrc _) mem).bind
          ((Prog.Runs.get (hsrc _) mem).bind (Prog.Runs.ret _ mem)))⟩

/-- The twiddle factors of a column come from their buffers and go to them. -/
theorem loadColumn_runs (s i0 : Nat) (mem : FftLoc → V2s) : ∃ w mem',
    (loadColumn NB foldedTwiddles (coefAt foldedTwiddles m c) m s i0).Runs Factor Factor mem w
      mem' := by
  have hcoef : ∀ {p : Nat → FftLoc}, (∀ i, Factor (p i)) → ∀ i,
      Factor (coefAt foldedTwiddles m c p i) := fun {p} hp i => by
    unfold coefAt
    split
    · exact hp _
    · exact hp i
  have hsrc : ∀ i, Factor (.coefSrc i) := fun i => ⟨i, Or.inl rfl⟩
  have hdst : ∀ i, Factor (.coefDst i) := fun i => ⟨i, Or.inr rfl⟩
  unfold loadColumn
  split
  · refine loadStoreTwiddlefact_runs (hcoef ?_) (hcoef ?_) _ _ _ mem
    · rcases coefBuffer_cases foldedTwiddles s with ⟨h, -⟩ | ⟨h, -⟩
      · rwa [h]
      · rwa [h]
    · rcases coefBuffer_cases foldedTwiddles s with ⟨-, h⟩ | ⟨-, h⟩
      · rwa [h]
      · rwa [h]
  · exact ⟨_, mem, Prog.Runs.ret _ mem⟩

/-- A copy of a number. -/
theorem reversePart_runs {L L' : Layout NB nCOL m} {r ic : Nat} (hic : ic + 3 < 4 ^ m)
    (mem : FftLoc → V2s) :
    ∃ mem', (reversePart L L' r c ic).Runs (Own L m r c) (Own L' (m + 1) r c) mem () mem' := by
  let effect (j : Nat) (mem : FftLoc → V2s) : FftLoc → V2s := Function.update mem
    (dataBuffer (m + 1) (L'.cell r c (ic + j))) (mem (dataBuffer m (L.cell r c (ic + j))))
  refine ⟨_, @Prog.Runs.each _ _ _ _ _ _ _ effect _ (fun j hj mem => ?_) mem⟩
  have hj := List.mem_range.mp hj
  exact (Prog.Runs.get ⟨ic + j, by omega, rfl⟩ mem).bind
    (Prog.Runs.set ⟨ic + j, by omega, rfl⟩ _ mem)

/-- The stages of a core are its tasks, with those of the reversal last. -/
theorem schedulerStage_eq (hm : 2 ≤ m) (hcols : nCOL * 4 ^ (m - 1) ≤ NB)
    (hbanks : 16 * NB * nROW ≤ 2 ^ 32) (hrow : 0 < nROW) (hc : c < nCOL) (hk : k < 4 ^ (m - 2))
    (hfuel : 4 ^ m ≤ fuel) (hfuel' : nROW ≤ fuel) :
    ∃ part : Nat → Nat → Twiddles → Nat → Prog FftLoc V2s Unit,
      (∀ s < m, ∀ reversal, schedulerStage NB nROW foldedTwiddles m c k fuel s reversal =
        Prog.each (fun i0 => loadColumn NB foldedTwiddles (coefAt foldedTwiddles m c) m s i0 >>=
          fun w => Prog.each (part s i0 w) (List.range nROW)) (coreColumns k)) ∧
      ∀ s < m, ∀ i0 < 4 ^ (m - 1), ∀ w, ∀ r < nROW,
        IsColumn (Layout.ofScheduler (by omega) hcols s) (.ofScheduler (by omega) hcols (s + 1))
          (kernelButterfly m s w) s r c i0 (part s i0 w r) := by
  have hquarter := sixteenth hm
  have hpos : 0 < 4 ^ (m - 1) := Nat.pow_pos (by decide)
  have hNB := hpos.trans_le (quarter_fits hcols hc)
  obtain ⟨hfit, -⟩ := banks_fit hbanks hrow hNB
  have hlen := quarter (show 0 < m by omega)
  have hle := quarter_fits hcols hc
  have hparts := @scheduler_goesThrough NB nROW nCOL m c fuel foldedTwiddles hm hcols hbanks hrow hc
    hfuel'
  choose! part hpart using hparts
  refine ⟨part, fun s hs reversal => ?_, fun s hs i0 hi0 w r hr => (hpart s hs i0 hi0 w).2 r hr⟩
  rw [schedulerStage, if_pos hs, foldedStage_eq hm hs (by omega) hk (by omega)]
  refine Prog.each_congr fun i0 hi0 => ?_
  have hi0 : i0 < 4 ^ (m - 1) := by
    have := mem_coreColumns.mp hi0
    omega
  exact congrArg _ (funext fun w => (hpart s hs i0 hi0 w).1)

section Ends

variable (hm : 2 ≤ m) (hcols : nCOL * 4 ^ (m - 1) ≤ NB)

theorem ofScheduler_zero : Layout.ofScheduler (by omega) hcols 0 = .contiguous (by omega) hcols :=
  if_pos rfl

theorem ofScheduler_last : Layout.ofScheduler (by omega) hcols m = .folded (by omega) hcols m :=
  (if_neg (by omega)).trans (if_pos (Nat.le_refl m))

theorem ofScheduler_reversed :
    Layout.ofScheduler (by omega) hcols (m + 1) = .reversed (by omega) hcols :=
  (if_neg (Nat.succ_ne_zero m)).trans (if_neg (Nat.not_succ_le_self m))

end Ends

theorem scheduler_separate (hm : 2 ≤ m) (hcols : nCOL * 4 ^ (m - 1) ≤ NB)
    (hbanks : 16 * NB * nROW ≤ 2 ^ 32) (hrow : 0 < nROW) (hfuel : 4 ^ m ≤ fuel)
    (hfuel' : nROW ≤ fuel) :
    Separate (Layout.ofScheduler (by omega) hcols) nROW fun core =>
      mempoolRadix4CfftQ16pScheduler NB foldedTwiddles (4 ^ m) nROW (2 * m) true (4 ^ (m - 2)) core
        fuel where
  starts c e := by rw [ofScheduler_zero hm hcols]; rfl
  ends c e := by rw [ofScheduler_reversed hm hcols]; rfl
  parts c hc k hk := by
    obtain ⟨part, hstage, hpart⟩ :=
      @schedulerStage_eq NB nROW nCOL m c k fuel foldedTwiddles hm hcols
      hbanks hrow hc hk hfuel hfuel'
    have hquarter := sixteenth hm
    refine ⟨fun s => if s < m then coreColumns k else reverseColumns m k,
      fun s i0 => if s < m then loadColumn NB foldedTwiddles (coefAt foldedTwiddles m c) m s i0
        else pure (shuffleTwiddlefact 0 0 0),
      fun s i0 w r => if s < m then part s i0 w r
        else reversePart (Layout.folded (by omega) hcols m)
          (Layout.reversed (by omega) hcols) r c i0,
      ?_, fun s hs i0 hi0 mem => ?_, fun s hs i0 hi0 w r hr mem => ?_⟩
    · rw [scheduler_eq hm hcols hbanks hrow hc hk hfuel hfuel']
      refine Prog.stages_congr (m + 1) fun s hs => ?_
      by_cases hlt : s < m
      · simp only [if_pos hlt]
        exact hstage s hlt _
      · simp only [if_neg hlt]
        exact if_neg hlt
    · by_cases hlt : s < m
      · simp only [if_pos hlt]
        exact loadColumn_runs s i0 mem
      · simp only [if_neg hlt]
        exact ⟨_, mem, Prog.Runs.ret _ mem⟩
    · by_cases hlt : s < m
      · simp only [if_pos hlt] at hi0 ⊢
        have hi0 : i0 < 4 ^ (m - 1) := by
          have := mem_coreColumns.mp hi0
          omega
        exact (hpart s hlt i0 hi0 w r hr).runs hlt hi0 mem
      · simp only [if_neg hlt] at hi0 ⊢
        obtain rfl : s = m := by omega
        rw [ofScheduler_last hm hcols, ofScheduler_reversed hm hcols]
        exact reversePart_runs (mem_reverseColumns hm hk hi0).2 mem
  apart s r c hc r' c' hc' a := by
    rintro ⟨e, he, rfl⟩ ⟨e', he', heq⟩
    obtain ⟨hr, hcc, -⟩ := Layout.cell_inj _ hc he hc' he' (dataBuffer_inj heq)
    exact ⟨hr, hcc⟩
  fresh s r c r' c' a := by
    rintro ⟨e, -, rfl⟩ ⟨e', -, heq⟩
    exact dataBuffer_succ_ne heq.symm

end Separate

/-! ## The refinement -/

section Refinement

variable {NB nROW nCOL m : Nat} {foldedTwiddles : Bool} {W : Nat → V2s}
  {X : Nat → Nat → Nat → V2s} {mem : FftLoc → V2s}

/-- The numbers of the transforms in their rows, and the table: with folded twiddle factors each
column of transforms has its own, in three rows of banks. -/
structure Inputs (NB nROW nCOL m : Nat) (foldedTwiddles : Bool) (W : Nat → V2s)
    (X : Nat → Nat → Nat → V2s) (mem : FftLoc → V2s) : Prop where
  data : ∀ r < nROW, ∀ c < nCOL, ∀ e < 4 ^ m,
    mem (.src (r * (NB * 8) + (c * 4 ^ m + e) * 2)) = X r c e
  plain : foldedTwiddles = false → HoldsTable W m mem
  folded : foldedTwiddles = true → ∀ c < nCOL, ∀ k < 3, ∀ x < 4 ^ (m - 1),
    mem (.coefSrc ((c * 4 ^ (m - 1) + x + k * NB) * 2)) = W ((k + 1) * x)

theorem Inputs.holds (h : Inputs NB nROW nCOL m foldedTwiddles W X mem) (hm : 0 < m)
    (hcols : nCOL * 4 ^ (m - 1) ≤ NB) :
    Holds (.contiguous hm hcols) nROW foldedTwiddles W X 0 mem where
  data := h.data
  plain := h.plain
  folded hf _ c hc k hk x hx := by
    have hcell : coefCell NB m c k x = (c * 4 ^ (m - 1) + x + k * NB) * 2 := by
      unfold coefCell
      omega
    have hbuffer : coefBuffer true 0 = .coefSrc := if_neg fun hno => absurd hno.2 (by decide)
    rw [hcell, hbuffer, h.folded hf c hc k hk x hx, stageCoef, Nat.sub_zero, Nat.mod_eq_of_lt hx,
      Nat.pow_zero, Nat.mul_one]

/-- The kernel of one transform. -/
theorem folded_run {fuel : Nat} {x : Nat → V2s} (hm : 2 ≤ m) (hcols : 4 ^ (m - 1) ≤ NB)
    (hbanks : 16 * NB ≤ 2 ^ 32) (hfuel : 4 ^ m ≤ fuel)
    (h : Inputs NB 1 1 m foldedTwiddles W (fun _ _ => x) mem) :
    Team.Finally (fun t => t.Returned (fun _ => ()) ∧
      ∀ e < 4 ^ m, t.mem (dataBuffer m (e * 2)) = fftVector W m x m e)
      (⟨mem, fun core => mempoolRadix4CfftQ16pFolded NB foldedTwiddles (4 ^ m) core fuel⟩ :
        Team FftLoc V2s Unit (4 ^ (m - 2))) := by
  have hcols' : 1 * 4 ^ (m - 1) ≤ NB := by rwa [Nat.one_mul]
  have hfit : NB ≤ 2 ^ 28 := by omega
  have hQ : 0 < 4 ^ (m - 2) := Nat.pow_pos (by decide)
  have hfuel' : 4 ≤ fuel := (Nat.pow_le_pow_right (n := 4) (by decide)
    (show 1 ≤ m by omega)).trans hfuel
  have hlayout : Layout.ofKernel (by omega) hcols' m = .contiguous (by omega) hcols' :=
    (if_neg (by omega)).trans (if_neg (Nat.lt_irrefl m))
  have hgoes := @folded_goesThrough NB m foldedTwiddles hm hcols' hfit
  simp only [folded_eq hm hfuel]
  refine (@layouts_run NB 1 1 m m _ foldedTwiddles W _ mem (Layout.ofKernel (by omega) hcols') _
    (stageOwner m) hQ hcols'
    (fun s _ key hkey => (stageOwner_lt hm key hkey).trans_le (Nat.one_mul _).le)
    (fun s hs mem hmem core => ?_) (h.holds (by omega) hcols')).mono fun t ht =>
    ⟨ht.1, fun e he => ?_⟩
  · have hscatters := foldedStage_scatters hmem hm hcols' hfit hs (by decide) core.isLt hfuel' hgoes
    rwa [Nat.zero_mul, Nat.zero_add] at hscatters
  · have hdata := ht.2.data 0 (by decide) 0 (by decide) e he
    rw [hlayout, stageData, Nat.min_self] at hdata
    rw [← hdata]
    congr 2
    change e * 2 = 0 * (NB * 8) + (0 * 4 ^ m + e) * 2
    omega

/-- The scheduler, with the numbers in bit-reversed order. -/
theorem scheduler_run {fuel : Nat} (hm : 2 ≤ m) (hcols : nCOL * 4 ^ (m - 1) ≤ NB)
    (hbanks : 16 * NB * nROW ≤ 2 ^ 32) (hrow : 0 < nROW) (hcol : 0 < nCOL) (hfuel : 4 ^ m ≤ fuel)
    (hfuel' : nROW ≤ fuel) (h : Inputs NB nROW nCOL m foldedTwiddles W X mem) :
    Team.Finally (fun t => t.Returned (fun _ => ()) ∧
      ∀ r < nROW, ∀ c < nCOL, ∀ e < 4 ^ m,
        t.mem (dataBuffer (m + 1) (r * (NB * 8) + (c * 4 ^ m + bitReversed (2 * m) e) * 2)) =
          fftVector W m (X r c) m e)
      (⟨mem, fun core => mempoolRadix4CfftQ16pScheduler NB foldedTwiddles (4 ^ m) nROW (2 * m) true
        (4 ^ (m - 2)) core fuel⟩ : Team FftLoc V2s Unit (nCOL * 4 ^ (m - 2))) := by
  have hQ : 0 < 4 ^ (m - 2) := Nat.pow_pos (by decide)
  have hpos : 0 < 4 ^ (m - 1) := Nat.pow_pos (by decide)
  obtain ⟨hfit, -⟩ := banks_fit hbanks hrow (hpos.trans_le (quarter_fits hcols hcol))
  have hfuel₄ : 4 ≤ fuel := (Nat.pow_le_pow_right (n := 4) (by decide)
    (show 1 ≤ m by omega)).trans hfuel
  have hcore : ∀ core : Fin (nCOL * 4 ^ (m - 2)), core.val / 4 ^ (m - 2) < nCOL ∧
      core.val % 4 ^ (m - 2) < 4 ^ (m - 2) ∧
      core.val = core.val / 4 ^ (m - 2) * 4 ^ (m - 2) + core.val % 4 ^ (m - 2) := fun core =>
    ⟨Nat.div_lt_of_lt_mul (Nat.mul_comm nCOL _ ▸ core.isLt), Nat.mod_lt _ hQ,
      (Nat.div_add_mod' _ _).symm⟩
  let body (core : Fin (nCOL * 4 ^ (m - 2))) (s : Nat) : Prog FftLoc V2s Unit :=
    schedulerStage NB nROW foldedTwiddles m (core / 4 ^ (m - 2)) (core % 4 ^ (m - 2)) fuel s
      (Prog.each (fun ic => Prog.each (fun r => reversePart (Layout.folded (by omega) hcols m)
        (Layout.reversed (by omega) hcols) r (core / 4 ^ (m - 2)) ic) (List.range nROW))
        (reverseColumns m (core % 4 ^ (m - 2))))
  have hprog : ∀ core : Fin (nCOL * 4 ^ (m - 2)),
      mempoolRadix4CfftQ16pScheduler NB foldedTwiddles (4 ^ m) nROW (2 * m) true (4 ^ (m - 2)) core
        fuel = Prog.stages (body core) (m + 1) 0 := fun core => by
    obtain ⟨hc, hk, heq⟩ := hcore core
    have hscheduler := @scheduler_eq NB nROW nCOL m _ _ fuel foldedTwiddles hm
      hcols hbanks hrow hc hk
      hfuel hfuel'
    rwa [← heq] at hscheduler
  simp only [hprog]
  let owner (s : Nat) (key : Key nROW nCOL m) : Nat :=
    if s < m then stageOwner m s key else reverseOwner m key
  refine (@layouts_run NB nROW nCOL m (m + 1) _ foldedTwiddles W X mem
    (Layout.ofScheduler (by omega) hcols) _ owner (Nat.mul_pos hcol hQ) hcols
    (fun s hs key hkey => ?_) (fun s hs mem hmem core => ?_)
    (h.holds (by omega) hcols)).mono fun t ht => ⟨ht.1, fun r hr c hc e he => ?_⟩
  · by_cases hlt : s < m
    · simp only [owner, if_pos hlt]
      exact stageOwner_lt hm key hkey
    · simp only [owner, if_neg hlt]
      cases key with
      | inl key => exact block_lt key.2.1.isLt (Nat.mod_lt _ hQ)
      | inr key =>
          have := hkey.2
          omega
  · obtain ⟨hc, hk, heq⟩ := hcore core
    by_cases hlt : s < m
    · have hscatters := foldedStage_scatters hmem hm hcols hfit hlt hc hk hfuel₄
        (@scheduler_goesThrough NB nROW nCOL m _ fuel foldedTwiddles hm hcols hbanks hrow hc hfuel')
      rw [← heq] at hscatters
      simp only [body, owner, if_pos hlt]
      rw [schedulerStage, if_pos hlt]
      exact hscatters
    · obtain rfl : s = m := by omega
      rw [ofScheduler_last hm hcols] at hmem
      have hscatters := @reversal_scatters NB nROW nCOL s _ _ foldedTwiddles W X mem _
        (Layout.reversed (by omega) hcols) hmem hm hcols hc hk
      rw [← heq] at hscatters
      simp only [body, owner, if_neg hlt]
      rw [schedulerStage, if_neg hlt, ofScheduler_reversed hm hcols]
      exact hscatters
  · have hdata := ht.2.data r hr c hc e he
    rw [ofScheduler_reversed hm hcols, stageData, Nat.min_eq_right (Nat.le_succ m)] at hdata
    exact hdata

theorem fftVector_congr {s : Nat} {x y : Nat → V2s} (h : ∀ e < 4 ^ m, x e = y e) (hs : s ≤ m) :
    ∀ e < 4 ^ m, fftVector W m x s e = fftVector W m y s e := by
  induction s with
  | zero => exact h
  | succ s ih =>
      intro e he
      have hlen := stage_length (r := 4) (show s < m by omega)
      have hbutterfly : butterflyOn (4 ^ (m - 1 - s)) e ∈ stageButterflies 4 m s :=
        butterflyOn_mem (Nat.pow_pos (by decide)) (hlen ▸ he)
      have hbefore : ∀ q < 4, fftVector W m x s (element 4 (4 ^ (m - 1 - s))
          (butterflyOn (4 ^ (m - 1 - s)) e) q) = fftVector W m y s (element 4 (4 ^ (m - 1 - s))
            (butterflyOn (4 ^ (m - 1 - s)) e) q) := fun q hq =>
        ih (by omega) _ (hlen ▸ element_lt hbutterfly hq)
      rw [fftVector, fftVector, stageVector, stageVector, hbefore 0 (by decide),
        hbefore 1 (by decide), hbefore 2 (by decide),
        hbefore 3 (by decide)]

/-- The kernel of one transform leaves what the unfolded one computes, and so does the scheduler
for each of its transforms, in bit-reversed order. Its transforms stay apart. The banks and the
rows of the scheduler fit into the address space, and so do the banks of the cores of the unfolded
kernel. -/
theorem folded_transforms_agree (foldedTwiddles : Bool) (W : Nat → V2s)
    {m NB nROW nCOL p fuel : Nat}
    (hm : 2 ≤ m) (hrow : 0 < nROW) (hcol : 0 < nCOL) (hcols : nCOL * 4 ^ m ≤ 4 * NB)
    (hbanks : 16 * NB * nROW ≤ 2 ^ 32) (hcores : 16 * 2 ^ p ≤ 2 ^ 32) (hfuel : 4 ^ m ≤ fuel)
    (hfuel' : nROW ≤ fuel) :
    (∀ x mem, HoldsTable W m mem → (∀ e < 4 ^ m, mem (.src (e * 2)) = x e) →
      Team.Finally (fun t => t.Returned (fun _ => ()) ∧
        ∀ e < 4 ^ m, t.mem (.src (e * 2)) = fftVector W m x m e)
        (⟨mem, fun core => mempoolRadix4CfftQ16pXpulpimg (4 ^ m) 1 (2 ^ p) core fuel⟩ :
          Team FftLoc V2s Unit (2 ^ p))) ∧
    (∀ x mem, Inputs NB 1 1 m foldedTwiddles W (fun _ _ => x) mem →
      Team.Finally (fun t => t.Returned (fun _ => ()) ∧
        ∀ e < 4 ^ m, t.mem (dataBuffer m (e * 2)) = fftVector W m x m e)
        (⟨mem, fun core => mempoolRadix4CfftQ16pFolded NB foldedTwiddles (4 ^ m) core fuel⟩ :
          Team FftLoc V2s Unit (4 ^ (m - 2)))) ∧
    (∀ X mem, Inputs NB nROW nCOL m foldedTwiddles W X mem →
      Team.Finally (fun t => t.Returned (fun _ => ()) ∧
        ∀ r < nROW, ∀ c < nCOL, ∀ e < 4 ^ m,
          t.mem (dataBuffer (m + 1) (r * (NB * 8) + (c * 4 ^ m + bitReversed (2 * m) e) * 2)) =
            fftVector W m (X r c) m e)
        (⟨mem, fun core => mempoolRadix4CfftQ16pScheduler NB foldedTwiddles (4 ^ m) nROW
          (2 * m) true
          (4 ^ (m - 2)) core fuel⟩ : Team FftLoc V2s Unit (nCOL * 4 ^ (m - 2)))) ∧
    ∃ layout : Nat → Layout NB nCOL m, Separate layout nROW fun core =>
      mempoolRadix4CfftQ16pScheduler NB foldedTwiddles (4 ^ m) nROW (2 * m) true (4 ^ (m - 2)) core
        fuel := by
  have hpow := quarter (show 0 < m by omega)
  have hcols' : nCOL * 4 ^ (m - 1) ≤ NB := by
    rw [hpow, Nat.mul_left_comm] at hcols
    exact Nat.le_of_mul_le_mul_left hcols (by decide)
  have hquarter := quarter_fits hcols' hcol
  obtain ⟨hfit, -⟩ := banks_fit hbanks hrow ((Nat.pow_pos (by decide)).trans_le hquarter)
  refine ⟨fun x mem htable hx => ?_, fun x mem h => folded_run hm hquarter (by omega) hfuel h,
    fun X mem h => scheduler_run hm hcols' hbanks hrow hcol hfuel hfuel' h,
    ⟨_, scheduler_separate hm hcols' hbanks hrow hfuel hfuel'⟩⟩
  refine ((radix4_scheduled m p 1 hm hcores (by omega)).result fuel hfuel mem).mono
    fun t ht => ⟨ht.1, fun e he => ?_⟩
  rw [ht.2, (sequential_vector (by omega) htable (Nat.le_refl m)).2 e he]
  exact fftVector_congr hx (Nat.le_refl m) e he

/-- One transform of 64 elements, and two rows of two of them. -/
theorem folded_transforms_agree_three_stages :
    let W : Nat → V2s := fun i => BitVec.ofNat 32 (i * 3 + 1)
    let plain : FftLoc → V2s := fun a => match a with
      | .src i => BitVec.ofNat 32 i
      | .coefSrc i => W (i / 2)
      | _ => 0
    let folded : FftLoc → V2s := fun a => match a with
      | .src i => BitVec.ofNat 32 i
      | .coefSrc i => W ((i / 64 + 1) * (i / 2 % 16))
      | _ => 0
    let x : Nat → V2s := fun e => BitVec.ofNat 32 (e * 2)
    Team.Finally (fun t => t.Returned (fun _ => ()) ∧
      ∀ e < 64, t.mem (.src (e * 2)) = fftVector W 3 x 3 e)
      (⟨plain, fun core => mempoolRadix4CfftQ16pXpulpimg 64 1 2 core 64⟩ :
        Team FftLoc V2s Unit 2) ∧
    Team.Finally (fun t => t.Returned (fun _ => ()) ∧
      ∀ e < 64, t.mem (.dst (e * 2)) = fftVector W 3 x 3 e)
      (⟨folded, fun core => mempoolRadix4CfftQ16pFolded 32 true 64 core 64⟩ :
        Team FftLoc V2s Unit 4) ∧
    Team.Finally (fun t => t.Returned (fun _ => ()) ∧ ∀ r < 2, ∀ c < 2, ∀ e < 64,
      t.mem (.src (r * 256 + (c * 64 + bitReversed 6 e) * 2)) =
        fftVector W 3 (fun e => BitVec.ofNat 32 (r * 256 + (c * 64 + e) * 2)) 3 e)
      (⟨folded, fun core => mempoolRadix4CfftQ16pScheduler 32 true 64 2 6 true 4 core 64⟩ :
        Team FftLoc V2s Unit 8) := by
  intro W plain folded x
  have htable : ∀ c < 2, ∀ k < 3, ∀ x < 16, folded (.coefSrc ((c * 16 + x + k * 32) * 2)) =
      W ((k + 1) * x) := fun c hc k hk x hx => by
    change W (((c * 16 + x + k * 32) * 2 / 64 + 1) * ((c * 16 + x + k * 32) * 2 / 2 % 16)) = _
    rw [show (c * 16 + x + k * 32) * 2 / 64 = k by omega,
      show (c * 16 + x + k * 32) * 2 / 2 % 16 = x by omega]
  have hagree := @folded_transforms_agree true W 3 32 2 2 1 64 (by decide) (by decide) (by decide)
    (by decide) (by decide) (by decide) (by decide) (by decide)
  refine ⟨hagree.1 x plain (fun i hi => ?_) fun e he => rfl, hagree.2.1 x folded
    ⟨fun r hr c hc e he => ?_, nofun, fun _ c hc k hk i hi => ?_⟩, hagree.2.2.1 _ folded
      ⟨fun r hr c hc e he => rfl, nofun, fun _ c hc k hk i hi => htable c hc k hk i hi⟩⟩
  · change W (2 * i / 2) = W i
    rw [Nat.mul_div_cancel_left i (by decide)]
  · obtain ⟨rfl, rfl⟩ : r = 0 ∧ c = 0 := by omega
    change BitVec.ofNat 32 (0 * 256 + (0 * 64 + e) * 2) = BitVec.ofNat 32 (e * 2)
    rw [Nat.zero_mul, Nat.zero_add, Nat.zero_add]
  · exact htable c (by omega) k hk i hi

end Refinement

end TeraNoC.Kernels
