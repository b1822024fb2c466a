import TeraNoC.Proofs.FoldedStages

/-!
# The programs of the folded kernels

The kernel of one transform and the scheduler of several go through the same stages, and a core
does the same columns in each. Their butterflies differ in the layouts that they load from and
store to.
-/

namespace TeraNoC.Kernels

open TeraNoC.Lib TeraNoC.Runtime

/-! ## The stages of a kernel -/

section Control

variable {foldedTwiddles : Bool} {coef : (Nat → FftLoc) → Nat → FftLoc} {NB m s coreId fuel : Nat}
  {first middle : Buffers → Twiddles → Nat → Nat → Prog FftLoc V2s Unit}
  {last : Buffers → Nat → Prog FftLoc V2s Unit}

/-- The pointers in stage `s`. -/
def bufferAt (foldedTwiddles : Bool) (coef : (Nat → FftLoc) → Nat → FftLoc)
    (s : Nat) : Buffers where
  pSrc16 := dataBuffer s
  pDst16 := dataBuffer (s + 1)
  pCoefSrc := coef (coefBuffer foldedTwiddles s)
  pCoefDst := coef (coefTarget foldedTwiddles s)

theorem dataBuffer_succ_succ (s : Nat) : dataBuffer (s + 1 + 1) = dataBuffer s := by
  unfold dataBuffer
  rw [Nat.add_assoc, Nat.add_mod_right]

theorem bufferAt_zero : bufferAt foldedTwiddles coef 0 =
    ⟨.src, .dst, coef .coefSrc, coef .coefDst⟩ := by
  rw [bufferAt, coefBuffer, coefTarget, if_neg fun h => by omega, if_neg fun h => by omega]
  rfl

theorem bufferAt_swap : (bufferAt foldedTwiddles coef s).swap foldedTwiddles =
    bufferAt foldedTwiddles coef (s + 1) := by
  unfold Buffers.swap bufferAt
  rw [dataBuffer_succ_succ]
  cases foldedTwiddles with
  | false => rfl
  | true =>
      have htarget : coefTarget true (s + 1) = coefBuffer true s := by
        rw [coefTarget_true, coefBuffer, coefBuffer, Nat.add_assoc, Nat.add_mod_right]
      dsimp only
      rw [if_pos rfl, if_pos rfl, htarget, coefTarget_true]

/-- Stage `s` of a kernel on a core. -/
def foldedStage (NB : Nat) (foldedTwiddles : Bool) (coef : (Nat → FftLoc) → Nat → FftLoc)
    (first middle : Buffers → Twiddles → Nat → Nat → Prog FftLoc V2s Unit)
    (last : Buffers → Nat → Prog FftLoc V2s Unit) (m coreId fuel s : Nat) : Prog FftLoc V2s Unit :=
  let b := bufferAt foldedTwiddles coef s
  if s = 0 then firstFolded NB foldedTwiddles first coreId fuel b (4 ^ (m - 1))
  else if s + 1 < m then
    middleFolded NB foldedTwiddles middle coreId fuel b (4 ^ (m - 1 - s)) (u32 (4 ^ s))
  else lastFolded last (4 ^ m) coreId fuel b

theorem cfftFolded_eq (hm : 2 ≤ m) (hfuel : 4 ^ m ≤ fuel) :
    cfftFolded NB foldedTwiddles first middle last (4 ^ m) coreId fuel
      (bufferAt foldedTwiddles coef 0) =
        (Prog.stages (foldedStage NB foldedTwiddles coef first middle last m coreId fuel) m 0).bind
          fun _ => .ret (bufferAt foldedTwiddles coef (m - 1)) := by
  obtain ⟨d, rfl⟩ : ∃ d, m = d + 2 := ⟨m - 2, by omega⟩
  have hdlt := Nat.lt_pow_self (n := d + 2) (show 1 < 4 by decide)
  have hshift : ∀ k, 4 ^ (k + 1) >>> 2 = 4 ^ k := shift_pow rfl
  have hone : 1 < 4 := by decide
  have hloop : Prog.forLoop (fun k => 4 < k) (fun k => k >>> 2)
      (fun _ (s : Buffers × Nat × Nat) => do
        let n2 := s.2.1 >>> 2
        middleFolded NB foldedTwiddles middle coreId fuel s.1 n2 s.2.2
        Prog.wait
        pure (s.1.swap foldedTwiddles, n2, u32 (s.2.2 <<< 2)))
      fuel (4 ^ (d + 1 - 0))
      (bufferAt foldedTwiddles coef (0 + 1), 4 ^ (d + 1 - 0), u32 (4 ^ (0 + 1))) =
      (Prog.each (fun k => foldedStage NB foldedTwiddles coef first middle last (d + 2) coreId fuel
        (k + 1) >>= fun _ => Prog.wait) (List.range d)).bind fun _ =>
          .ret (4 ^ (d + 1 - d), bufferAt foldedTwiddles coef (d + 1), 4 ^ (d + 1 - d),
            u32 (4 ^ (d + 1))) := by
    refine Prog.forLoop_each (fun k => 4 ^ (d + 1 - k))
      (fun k => (bufferAt foldedTwiddles coef (k + 1), 4 ^ (d + 1 - k), u32 (4 ^ (k + 1))))
      (fun k hk => ?_) ?_ (fun k hk => ?_) (fun k hk => ?_) (by omega)
    · refine decide_eq_true ?_
      have hlt := Nat.pow_lt_pow_right hone (show 1 < d + 1 - k by omega)
      rwa [Nat.pow_one] at hlt
    · rw [Nat.add_sub_cancel_left, Nat.pow_one]
      rfl
    · rw [show d + 1 - k = d + 1 - (k + 1) + 1 by omega, hshift]
    · have htwid : u32 (u32 (4 ^ (k + 1)) <<< 2) = u32 (4 ^ (k + 1 + 1)) := by
        rw [Nat.shiftLeft_eq, u32, u32, Nat.mod_mul_mod, Nat.pow_succ 4 (k + 1)]
        rfl
      have hstage : middleFolded NB foldedTwiddles middle coreId fuel
          (bufferAt foldedTwiddles coef (k + 1)) (4 ^ (d + 1 - (k + 1))) (u32 (4 ^ (k + 1))) =
            foldedStage NB foldedTwiddles coef first middle last (d + 2) coreId fuel (k + 1) := by
        rw [foldedStage, if_neg (Nat.succ_ne_zero k), if_pos (show k + 1 + 1 < d + 2 by omega)]
        rfl
      dsimp only
      rw [show d + 1 - k = d + 1 - (k + 1) + 1 by omega, hshift, bufferAt_swap, htwid, hstage]
      change Prog.bind _ (fun _ => Prog.bind _ _) = Prog.bind (Prog.bind _ _) _
      rw [Prog.bind_assoc]
      rfl
  have hfirst : firstFolded NB foldedTwiddles first coreId fuel (bufferAt foldedTwiddles coef 0)
      (4 ^ (d + 1)) =
        foldedStage NB foldedTwiddles coef first middle last (d + 2) coreId fuel 0 := by
    rw [foldedStage, if_pos rfl]
    rfl
  have hlast : lastFolded last (4 ^ (d + 2)) coreId fuel (bufferAt foldedTwiddles coef (d + 1)) =
      foldedStage NB foldedTwiddles coef first middle last (d + 2) coreId fuel (d + 1) := by
    rw [foldedStage, if_neg (Nat.succ_ne_zero d), if_neg (show ¬d + 1 + 1 < d + 2 by omega)]
  have htwid : u32 (1 <<< 2) = u32 (4 ^ (0 + 1)) := rfl
  have hdiv : 4 ^ (d + 2) / 4 = 4 ^ (d + 1) := Nat.mul_div_cancel _ (by decide)
  unfold cfftFolded
  rw [Nat.sub_zero] at hloop
  dsimp only
  rw [hshift, hdiv, htwid, bufferAt_swap, hfirst, Prog.stages_each, ← List.range_eq_range',
    List.range_succ_eq_map, Prog.each, Prog.each_map, List.range_succ, Prog.each_append,
    Prog.each_singleton, ← hlast]
  change Prog.bind _ (fun _ => Prog.bind _ (fun _ => Prog.bind _ _)) =
    Prog.bind (Prog.bind (Prog.bind _ _) (fun _ => Prog.bind _ fun _ => Prog.bind _ _)) _
  rw [hloop]
  simp only [Prog.bind_assoc]
  rfl

end Control

/-! ## Butterflies between two layouts -/

section Columns

variable {NB nROW nCOL m s r c i0 : Nat} {L L' : Layout NB nCOL m} {w : Twiddles}

/-- The pointer to the numbers of a transform, with `len` of them for each column. -/
def cells (NB r c len : Nat) (p : Nat → FftLoc) : Nat → FftLoc := fun i =>
  p (r * (NB * 8) + (c * len * 2 + i))

/-- A butterfly that loads its elements from where a layout has them, and stores them where
another one has them. -/
def IsColumn (L L' : Layout NB nCOL m) (f : V2s → V2s → V2s → V2s → V2s × V2s × V2s × V2s)
    (s r c i0 : Nat) (p : Prog FftLoc V2s Unit) : Prop :=
  ∃ pIn pOut inp out, p = radix4Column f pIn pOut inp out ∧
    (∀ q < 4, pIn (u32 (inp q * 2)) =
      dataBuffer s (L.cell r c (columnElement (4 ^ (m - 1 - s)) i0 q))) ∧
    ∀ q < 4, pOut (u32 (out q * 2)) =
      dataBuffer (s + 1) (L'.cell r c (columnElement (4 ^ (m - 1 - s)) i0 q))

/-- The numbers of a transform before stage `s`. -/
def Own (L : Layout NB nCOL m) (s r c : Nat) (a : FftLoc) : Prop :=
  ∃ e < 4 ^ m, a = dataBuffer s (L.cell r c e)

theorem IsColumn.runs {f : V2s → V2s → V2s → V2s → V2s × V2s × V2s × V2s}
    {p : Prog FftLoc V2s Unit} (h : IsColumn L L' f s r c i0 p) (hs : s < m)
    (hi0 : i0 < 4 ^ (m - 1)) (mem : FftLoc → V2s) :
    ∃ mem', p.Runs (Own L s r c) (Own L' (s + 1) r c) mem () mem' := by
  obtain ⟨pIn, pOut, inp, out, rfl, hin, hout⟩ := h
  have hload : ∀ q < 4, Own L s r c (pIn (u32 (inp q * 2))) := fun q hq =>
    ⟨_, columnElement_lt hs hi0 hq, hin q hq⟩
  have hstore : ∀ q < 4, Own L' (s + 1) r c (pOut (u32 (out q * 2))) := fun q hq =>
    ⟨_, columnElement_lt hs hi0 hq, hout q hq⟩
  exact ⟨_, radix4Butterfly_runs (hload 0 (by decide)) (hload 1 (by decide)) (hload 2 (by decide))
    (hload 3 (by decide)) (hstore 0 (by decide)) (hstore 1 (by decide)) (hstore 2 (by decide))
    (hstore 3 (by decide))⟩

theorem cells_index {len i e : Nat} {p : Nat → FftLoc} (h : L.index c e = c * len + i)
    (hfit : i * 2 < 2 ^ 32) : cells NB r c len p (u32 (i * 2)) = p (L.cell r c e) := by
  rw [cells, Layout.cell, h, u32_eq hfit]
  congr 1
  omega

variable (hm : 2 ≤ m) (hcols : nCOL * 4 ^ (m - 1) ≤ NB) (hfit : NB ≤ 2 ^ 28)

include hcols in
theorem quarter_fits (hc : c < nCOL) : 4 ^ (m - 1) ≤ NB :=
  (Nat.le_mul_of_pos_left _ (by omega)).trans hcols

include hcols hfit in
/-- No index of a layout wraps. -/
theorem fold_fits (hc : c < nCOL) (hm' : 0 < m) {e : Nat} (he : e < 4 ^ m) :
    fold NB (4 ^ (m - 1 - s)) e * 2 < 2 ^ 32 := by
  have hlt := (Layout.folded hm' hcols s).lt c hc e he
  dsimp only [Layout.folded] at hlt
  omega

include hm hcols hfit

theorem firstFolded_isColumn (hc : c < nCOL) (hi0 : i0 < 4 ^ (m - 1)) :
    IsColumn (.contiguous (by omega) hcols) (.folded (by omega) hcols 1) (butterflyFirst w) 0 r c i0
      (radix4ButterflyFirstFolded NB w (cells NB r c (4 ^ m) (dataBuffer 0))
        (cells NB r c (4 ^ (m - 1)) (dataBuffer 1)) i0 (4 ^ (m - 1))) := by
  have hquarter := sixteenth hm
  have hlen := quarter (show 0 < m by omega)
  have hle := quarter_fits hcols hc
  have hpos : 0 < 4 ^ (m - 2) := Nat.pow_pos (by decide)
  have helement : ∀ {q}, q < 4 → columnElement (4 ^ (m - 1 - 0)) i0 q < 4 ^ m := fun hq =>
    columnElement_lt (by omega) hi0 hq
  refine ⟨_, _, columnElement (4 ^ (m - 1)) i0, fun q => fold NB (4 ^ (m - 1 - 1))
    (columnElement (4 ^ (m - 1)) i0 q), ?_, fun q hq => cells_index rfl ?_, fun q hq =>
      cells_index rfl (fold_fits hcols hfit hc (by omega) (helement hq))⟩
  · rw [hquarter, firstFolded_eq hpos (hquarter ▸ hi0) (hquarter ▸ hle) hfit]
    rfl
  · have := helement hq
    rw [Nat.sub_zero] at this
    omega

theorem middleFolded_isColumn (hmid : s + 1 < m) (hc : c < nCOL) (hi0 : i0 < 4 ^ (m - 1)) :
    IsColumn (.folded (by omega) hcols s) (.folded (by omega) hcols (s + 1)) (butterflyMiddle w) s r
      c i0 (radix4ButterflyMiddleFolded NB w (cells NB r c (4 ^ (m - 1)) (dataBuffer s))
        (cells NB r c (4 ^ (m - 1)) (dataBuffer (s + 1))) i0 (4 ^ (m - 1 - s))) := by
  have hn2 : 4 ^ (m - 1 - s) = 4 * 4 ^ (m - 1 - (s + 1)) := by
    rw [← Nat.pow_succ']
    congr 1
    omega
  have hle := quarter_fits hcols hc
  have hpos : 0 < 4 ^ (m - 1 - (s + 1)) := Nat.pow_pos (by decide)
  have hwings : 4 ^ (m - 1 - s) ≤ 4 ^ (m - 1) := Nat.pow_le_pow_right (by decide) (by omega)
  have helement : ∀ {q}, q < 4 → columnElement (4 ^ (m - 1 - s)) i0 q < 4 ^ m := fun hq =>
    columnElement_lt (by omega) hi0 hq
  refine ⟨_, _, fun q => fold NB (4 ^ (m - 1 - s)) (columnElement (4 ^ (m - 1 - s)) i0 q),
    fun q => fold NB (4 ^ (m - 1 - (s + 1))) (columnElement (4 ^ (m - 1 - s)) i0 q), ?_,
    fun q hq => cells_index rfl (fold_fits hcols hfit hc (by omega) (helement hq)),
    fun q hq => cells_index rfl (fold_fits hcols hfit hc (by omega) (helement hq))⟩
  rw [hn2, middleFolded_eq hpos (by omega) (by omega) hfit]

theorem lastScheduled_isColumn (hc : c < nCOL) (hi0 : i0 < 4 ^ (m - 1)) :
    IsColumn (.folded (by omega) hcols (m - 1)) (.folded (by omega) hcols (m - 1 + 1))
      butterflyLast (m - 1) r c i0 (radix4ButterflyLastScheduled NB
        (cells NB r c (4 ^ (m - 1)) (dataBuffer (m - 1)))
        (cells NB r c (4 ^ (m - 1)) (dataBuffer (m - 1 + 1))) i0) := by
  have hle := quarter_fits hcols hc
  have helement : ∀ {q}, q < 4 → columnElement (4 ^ (m - 1 - (m - 1))) i0 q < 4 ^ m := fun hq =>
    columnElement_lt (by omega) hi0 hq
  have hone : 4 ^ (m - 1 - (m - 1)) = 1 := by rw [Nat.sub_self, Nat.pow_zero]
  have hone' : 4 ^ (m - 1 - (m - 1 + 1)) = 1 := by
    rw [show m - 1 - (m - 1 + 1) = 0 by omega, Nat.pow_zero]
  refine ⟨_, _, _, _, lastScheduled_eq (by omega) hfit,
    fun q hq => cells_index ?_ ?_, fun q hq => cells_index ?_ ?_⟩
  · rw [hone]
    exact congrArg (fun n => c * 4 ^ (m - 1) + fold NB n _) hone
  · have hlt := fold_fits (s := m - 1) hcols hfit hc (by omega) (helement hq)
    rwa [hone] at hlt
  · rw [hone]
    exact congrArg (fun n => c * 4 ^ (m - 1) + fold NB n _) hone'
  · have hlt := fold_fits (s := m - 1) hcols hfit hc (by omega) (helement hq)
    rwa [hone] at hlt

theorem lastFolded_isColumn (hc : c < nCOL) (hi0 : i0 < 4 ^ (m - 1)) :
    IsColumn (.folded (by omega) hcols (m - 1)) (.contiguous (by omega) hcols) butterflyLast (m - 1)
      r c i0 (radix4ButterflyLastFolded NB (cells NB r c (4 ^ (m - 1)) (dataBuffer (m - 1)))
        (cells NB r c (4 ^ m) (dataBuffer (m - 1 + 1))) i0) := by
  have hlen := quarter (show 0 < m by omega)
  have hle := quarter_fits hcols hc
  have helement : ∀ {q}, q < 4 → columnElement (4 ^ (m - 1 - (m - 1))) i0 q < 4 ^ m := fun hq =>
    columnElement_lt (by omega) hi0 hq
  have hone : 4 ^ (m - 1 - (m - 1)) = 1 := by rw [Nat.sub_self, Nat.pow_zero]
  refine ⟨_, _, _, _, lastFolded_eq (by omega) hfit,
    fun q hq => cells_index ?_ ?_, fun q hq => cells_index ?_ ?_⟩
  · rw [hone]
    exact congrArg (fun n => c * 4 ^ (m - 1) + fold NB n _) hone
  · have hlt := fold_fits (s := m - 1) hcols hfit hc (by omega) (helement hq)
    rwa [hone] at hlt
  · rw [hone]
    rfl
  · have hlt := helement hq
    rw [hone] at hlt
    omega

end Columns

/-! ## The columns of a core -/

section Work

variable {foldedTwiddles : Bool} {coef : (Nat → FftLoc) → Nat → FftLoc} {NB m s k fuel : Nat}
  {first middle : Buffers → Twiddles → Nat → Nat → Prog FftLoc V2s Unit}
  {last : Buffers → Nat → Prog FftLoc V2s Unit}

/-- The twiddle factors of a column; the last stage has none. -/
def loadColumn (NB : Nat) (foldedTwiddles : Bool) (coef : (Nat → FftLoc) → Nat → FftLoc)
    (m s i0 : Nat) : Prog FftLoc V2s Twiddles :=
  if s + 1 < m then
    loadStoreTwiddlefact NB foldedTwiddles (bufferAt foldedTwiddles coef s)
      (if foldedTwiddles then i0 else i0 % 4 ^ (m - 1 - s) * 4 ^ s)
      (factorPlace (4 ^ (m - 1 - (s + 1))) i0) (4 ^ (m - 1 - (s + 1)))
  else pure (shuffleTwiddlefact 0 0 0)

/-- Its butterflies. -/
def kernelColumn (first middle : Buffers → Twiddles → Nat → Nat → Prog FftLoc V2s Unit)
    (last : Buffers → Nat → Prog FftLoc V2s Unit) (b : Buffers) (m s i0 : Nat) (w : Twiddles) :
    Prog FftLoc V2s Unit :=
  if s = 0 then first b w i0 (4 ^ (m - 1))
  else if s + 1 < m then middle b w i0 (4 ^ (m - 1 - s))
  else last b i0

theorem coreLoop_eq {body : Nat → Prog FftLoc V2s Unit} (hk : k * 4 + 4 < 2 ^ 32)
    (hfuel : 4 ≤ fuel) : coreLoop k fuel (k * 4 + 4) body = Prog.each body (coreColumns k) := by
  unfold coreLoop
  rw [u32_eq (show k * 4 < 2 ^ 32 by omega)]
  exact loop_eq _ (fun t ht => by omega) (by omega) (by omega) hfuel

theorem foldedStage_eq (hm : 2 ≤ m) (hs : s < m) (hlen : 4 ^ m ≤ 2 ^ 30) (hk : k < 4 ^ (m - 2))
    (hfuel : 4 ≤ fuel) : foldedStage NB foldedTwiddles coef first middle last m k fuel s =
      Prog.each (fun i0 => loadColumn NB foldedTwiddles coef m s i0 >>=
        kernelColumn first middle last (bufferAt foldedTwiddles coef s) m s i0)
        (coreColumns k) := by
  have hquarter := sixteenth hm
  have hpow := quarter (show 0 < m by omega)
  have hshift : ∀ d, 4 ^ (d + 1) >>> 2 = 4 ^ d := shift_pow rfl
  have hstop : u32 (u32 (k * 4) + 4) = k * 4 + 4 := by
    rw [u32_eq (show k * 4 < 2 ^ 32 by omega), u32_eq (by omega)]
  unfold foldedStage
  dsimp only
  by_cases h0 : s = 0
  · subst h0
    rw [if_pos rfl]
    unfold firstFolded
    rw [hstop, Nat.min_eq_left (by omega), coreLoop_eq (by omega) hfuel]
    refine Prog.each_congr fun i0 hi0 => ?_
    have hi0 : i0 < 4 ^ (m - 1) := by
      have := mem_coreColumns.mp hi0
      omega
    have hplace : factorPlace (4 ^ (m - 1 - (0 + 1))) i0 = i0 >>> 2 := by
      rw [factorPlace, show m - 1 - (0 + 1) = m - 2 by omega, ← hquarter, Nat.mod_eq_of_lt hi0,
        Nat.div_eq_of_lt hi0, Nat.zero_mul, Nat.add_zero, Nat.shiftRight_eq_div_pow]
    have hn2 : 4 ^ (m - 1) >>> 2 = 4 ^ (m - 1 - (0 + 1)) := by
      rw [show m - 1 = m - 1 - (0 + 1) + 1 by omega, hshift]
      rfl
    unfold loadColumn kernelColumn
    rw [if_pos (show 0 + 1 < m by omega), hplace, ← hn2, Nat.sub_zero, Nat.mod_eq_of_lt hi0,
      Nat.pow_zero, Nat.mul_one, ite_self]
    rfl
  · rw [if_neg h0]
    by_cases hmid : s + 1 < m
    · rw [if_pos hmid]
      unfold middleFolded
      rw [hstop, coreLoop_eq (by omega) hfuel]
      refine Prog.each_congr fun i0 hi0 => ?_
      have hi0 : i0 < 4 ^ (m - 1) := by
        have := mem_coreColumns.mp hi0
        omega
      have hn2 : 4 ^ (m - 1 - s) = 4 * 4 ^ (m - 1 - (s + 1)) := by
        rw [← Nat.pow_succ']
        congr 1
        omega
      have hstore : 4 ^ (m - 1 - s) >>> 2 = 4 ^ (m - 1 - (s + 1)) := by
        rw [show m - 1 - s = m - 1 - (s + 1) + 1 by omega, hshift]
      have hload : loadStoreTwiddlefact NB foldedTwiddles (bufferAt foldedTwiddles coef s)
          (if foldedTwiddles = true then i0 else u32 (i0 % 4 ^ (m - 1 - s) * u32 (4 ^ s)))
          (u32 (((if foldedTwiddles = true then i0 else u32 (i0 % 4 ^ (m - 1 - s) * u32 (4 ^ s))) %
            4 ^ (m - 1 - s)) >>> 2 + u32 ((if foldedTwiddles = true then i0
              else u32 (i0 % 4 ^ (m - 1 - s) * u32 (4 ^ s))) / 4 ^ (m - 1 - s) * 4 ^ (m - 1 - s))))
          (4 ^ (m - 1 - s) >>> 2) = loadColumn NB foldedTwiddles coef m s i0 := by
        unfold loadColumn
        rw [if_pos hmid, hstore]
        cases foldedTwiddles with
        | true =>
            have hblock := Nat.div_mul_le_self i0 (4 ^ (m - 1 - s))
            have hplace := Nat.mod_le i0 (4 ^ (m - 1 - s))
            rw [if_pos rfl, factorPlace, ← hn2, Nat.shiftRight_eq_div_pow,
              u32_eq (show i0 / 4 ^ (m - 1 - s) * 4 ^ (m - 1 - s) < 2 ^ 32 by omega),
              u32_eq (by omega)]
            rfl
        | false =>
            have hic := stageIndex_lt hs i0
            have hmod : u32 (4 ^ s) = 4 ^ s := u32_eq
              ((Nat.pow_le_pow_right (by decide) hs.le).trans_lt (by omega))
            rw [hmod, u32_eq (by omega)]
            rfl
      unfold kernelColumn
      simp only [if_neg h0, if_pos hmid]
      exact congrArg (fun load => load >>= fun w => middle _ w i0 _) hload
    · rw [if_neg hmid]
      unfold lastFolded
      rw [hstop, show 4 ^ m >>> 2 = 4 ^ (m - 1) by
        rw [show m = m - 1 + 1 by omega, hshift]; rfl, Nat.min_eq_left (by omega),
        coreLoop_eq (by omega) hfuel]
      refine Prog.each_congr fun i0 hi0 => ?_
      unfold loadColumn kernelColumn
      rw [if_neg hmid]
      simp only [if_neg h0, if_neg hmid]
      rfl

end Work

end TeraNoC.Kernels
