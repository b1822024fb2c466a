import TeraNoC.Kernels.FftFolded
import TeraNoC.Lib.Scatter
import TeraNoC.Proofs.FftVector

/-!
# The folded transforms

Before a stage with wings of length `n2`, an element is in the row of its wing and in the column
of its block and its place. So a butterfly loads one column, and what it stores is in the columns
of the four blocks that its block falls into.
-/

namespace TeraNoC.Kernels

open TeraNoC.Lib TeraNoC.Runtime

/-! ## Where the elements are -/

section Layout

variable {NB n2 i0 q e blocks : Nat}

/-- The column of an element. -/
def column (n2 e : Nat) : Nat := (butterflyOn n2 e).1 * n2 + (butterflyOn n2 e).2

/-- The index of an element among the banks. -/
def fold (NB n2 e : Nat) : Nat := column n2 e + wing n2 e * NB

/-- The butterfly of a column. -/
def columnButterfly (n2 i0 : Nat) : Nat × Nat := (i0 / n2, i0 % n2)

/-- The elements of a column. -/
def columnElement (n2 i0 q : Nat) : Nat := element 4 n2 (columnButterfly n2 i0) q

theorem columnElement_mem (hn2 : 0 < n2) (hi0 : i0 < blocks * n2) :
    columnButterfly n2 i0 ∈ butterflies blocks n2 :=
  mem_butterflies.mpr ⟨Nat.div_lt_of_lt_mul (Nat.mul_comm blocks n2 ▸ hi0), Nat.mod_lt i0 hn2⟩

theorem butterflyOn_columnElement (hn2 : 0 < n2) (hq : q < 4) :
    butterflyOn n2 (columnElement n2 i0 q) = columnButterfly n2 i0 :=
  butterflyOn_element (Nat.mod_lt i0 hn2) hq

theorem wing_columnElement (hn2 : 0 < n2) (hq : q < 4) : wing n2 (columnElement n2 i0 q) = q :=
  wing_element (Nat.mod_lt i0 hn2) hq

theorem column_columnElement (hn2 : 0 < n2) (hq : q < 4) :
    column n2 (columnElement n2 i0 q) = i0 := by
  rw [column, butterflyOn_columnElement hn2 hq, columnButterfly, Nat.div_add_mod']

theorem fold_columnElement (hn2 : 0 < n2) (hq : q < 4) :
    fold NB n2 (columnElement n2 i0 q) = i0 + q * NB := by
  rw [fold, column_columnElement hn2 hq, wing_columnElement hn2 hq]

theorem columnElement_column (hn2 : 0 < n2) : columnElement n2 (column n2 e) (wing n2 e) = e := by
  have hplace : (butterflyOn n2 e).2 < n2 := Nat.mod_lt e hn2
  have hbutterfly : columnButterfly n2 (column n2 e) = butterflyOn n2 e := by
    rw [columnButterfly, column, Nat.add_comm, Nat.add_mul_div_right _ _ hn2,
      Nat.div_eq_of_lt hplace, Nat.zero_add, Nat.add_mul_mod_self_right, Nat.mod_eq_of_lt hplace]
  rw [columnElement, hbutterfly, element_butterflyOn]

theorem column_lt (hn2 : 0 < n2) (he : e < blocks * (4 * n2)) : column n2 e < blocks * n2 := by
  obtain ⟨hb, hj⟩ := mem_butterflies.mp (butterflyOn_mem hn2 he)
  have hmul := Nat.mul_le_mul_right n2 (Nat.succ_le_of_lt hb)
  rw [Nat.succ_mul] at hmul
  unfold column
  omega

/-- The row is read off the index, and the column. -/
theorem fold_inj {e e' c c' : Nat} (hc : c + column n2 e < NB)
    (hc' : c' + column n2 e' < NB) (h : c + fold NB n2 e = c' + fold NB n2 e') :
    wing n2 e = wing n2 e' ∧ c + column n2 e = c' + column n2 e' := by
  unfold fold at h
  have hmod := congrArg (· % NB) h
  have hdiv := congrArg (· / NB) h
  simp only [← Nat.add_assoc, Nat.add_mul_mod_self_right, Nat.mod_eq_of_lt hc,
    Nat.mod_eq_of_lt hc'] at hmod
  simp only [← Nat.add_assoc, Nat.add_mul_div_right _ _ (show 0 < NB by omega),
    Nat.div_eq_of_lt hc, Nat.div_eq_of_lt hc', Nat.zero_add] at hdiv
  exact ⟨hdiv, hmod⟩

/-- The store indices of a stage are those of the next one's columns. -/
theorem fold_store (hn2 : 0 < n2) :
    fold NB n2 (columnElement (4 * n2) i0 q) =
      i0 % n2 + i0 / (4 * n2) * (4 * n2) + i0 % (4 * n2) / n2 * NB + q * n2 := by
  have hrow : i0 % (4 * n2) / n2 < 4 := Nat.div_lt_of_lt_mul
    (Nat.mul_comm 4 n2 ▸ Nat.mod_lt i0 (by omega))
  have helement : columnElement (4 * n2) i0 q =
      i0 % (4 * n2) + (4 * (4 * (i0 / (4 * n2)) + q)) * n2 := by
    rw [columnElement, columnButterfly, element, Nat.mul_left_comm _ 4 (4 * n2),
      Nat.mul_left_comm q 4 n2, Nat.mul_assoc 4, Nat.add_mul, Nat.mul_assoc 4,
      Nat.mul_left_comm _ 4]
    dsimp only
    omega
  have hdiv : columnElement (4 * n2) i0 q / n2 =
      i0 % (4 * n2) / n2 + 4 * (4 * (i0 / (4 * n2)) + q) := by
    rw [helement, Nat.add_mul_div_right _ _ hn2]
  have hplace : columnElement (4 * n2) i0 q % n2 = i0 % n2 := by
    rw [helement, Nat.add_mul_mod_self_right, Nat.mod_mul_left_mod]
  have hblock : columnElement (4 * n2) i0 q / (4 * n2) = 4 * (i0 / (4 * n2)) + q := by
    rw [show columnElement (4 * n2) i0 q / (4 * n2) = columnElement (4 * n2) i0 q / n2 / 4 by
      rw [Nat.div_div_eq_div_mul, Nat.mul_comm n2], hdiv, Nat.add_mul_div_left _ _ (by decide),
      Nat.div_eq_of_lt hrow, Nat.zero_add]
  have hwing : wing n2 (columnElement (4 * n2) i0 q) = i0 % (4 * n2) / n2 := by
    rw [wing, hdiv, Nat.add_mul_mod_self_left, Nat.mod_eq_of_lt hrow]
  rw [fold, column, butterflyOn, hwing, hblock, hplace, Nat.add_mul, Nat.mul_assoc 4,
    Nat.mul_left_comm _ 4 n2]
  omega

end Layout

/-! ## Butterflies on columns -/

section Butterflies

variable {NB n2 i0 : Nat} {w : Twiddles} {pIn pOut : Nat → FftLoc}

/-- A butterfly that loads from `inp q` and stores to `out q`. -/
def radix4Column (f : V2s → V2s → V2s → V2s → V2s × V2s × V2s × V2s) (pIn pOut : Nat → FftLoc)
    (inp out : Nat → Nat) : Prog FftLoc V2s Unit :=
  radix4Butterfly f pIn pOut (inp 0) (inp 1) (inp 2) (inp 3) (out 0) (out 1) (out 2) (out 3)

/-- The indices of a butterfly, each from the one before. -/
theorem radix4Butterfly_steps {f : V2s → V2s → V2s → V2s → V2s × V2s × V2s × V2s} {i o d d' : Nat}
    {inp out : Nat → Nat} (hi : ∀ q < 4, inp q = i + q * d) (ho : ∀ q < 4, out q = o + q * d')
    (hin : inp 3 < 2 ^ 32) (hout : out 3 < 2 ^ 32) :
    (let i1 := u32 (i + d)
    let i2 := u32 (i1 + d)
    let i3 := u32 (i2 + d)
    let o1 := u32 (o + d')
    let o2 := u32 (o1 + d')
    let o3 := u32 (o2 + d')
    radix4Butterfly f pIn pOut i i1 i2 i3 o o1 o2 o3) = radix4Column f pIn pOut inp out := by
  have hi0 := hi 0 (by decide)
  have hi1 := hi 1 (by decide)
  have hi2 := hi 2 (by decide)
  have hi3 := hi 3 (by decide)
  have ho0 := ho 0 (by decide)
  have ho1 := ho 1 (by decide)
  have ho2 := ho 2 (by decide)
  have ho3 := ho 3 (by decide)
  dsimp only
  rw [radix4Column, u32_eq (show i + d < 2 ^ 32 by omega),
    u32_eq (show i + d + d < 2 ^ 32 by omega),
    u32_eq (show i + d + d + d < 2 ^ 32 by omega), u32_eq (show o + d' < 2 ^ 32 by omega),
    u32_eq (show o + d' + d' < 2 ^ 32 by omega), u32_eq (show o + d' + d' + d' < 2 ^ 32 by omega)]
  congr 1 <;> omega

theorem firstFolded_eq (hn2 : 0 < n2) (hi0 : i0 < 4 * n2) (hNB : 4 * n2 ≤ NB)
    (hfit : NB ≤ 2 ^ 28) :
    radix4ButterflyFirstFolded NB w pIn pOut i0 (4 * n2) =
      radix4Column (butterflyFirst w) pIn pOut (columnElement (4 * n2) i0)
        fun q => fold NB n2 (columnElement (4 * n2) i0 q) := by
  have hdiv : i0 / (4 * n2) = 0 := Nat.div_eq_of_lt hi0
  have hmod : i0 % (4 * n2) = i0 := Nat.mod_eq_of_lt hi0
  have hrow : i0 / n2 * NB ≤ 3 * NB :=
    Nat.mul_le_mul_right NB (Nat.le_of_lt_succ (Nat.div_lt_of_lt_mul (Nat.mul_comm 4 n2 ▸ hi0)))
  have hplace := Nat.mod_lt i0 hn2
  have hin : ∀ q < 4, columnElement (4 * n2) i0 q = i0 + q * (4 * n2) := fun q _ => by
    rw [columnElement, columnButterfly, element, hdiv, hmod, Nat.zero_mul, Nat.zero_add]
  have hout : ∀ q < 4, fold NB n2 (columnElement (4 * n2) i0 q) =
      i0 % n2 + i0 / n2 * NB + q * n2 := fun q _ => by
    rw [fold_store hn2, hdiv, hmod, Nat.zero_mul, Nat.add_zero]
  have hshift : (4 * n2) >>> 2 = n2 := by
    rw [Nat.shiftRight_eq_div_pow]
    omega
  unfold radix4ButterflyFirstFolded
  dsimp only
  rw [hshift, u32_eq (show i0 / n2 * NB < 2 ^ 32 by omega),
    u32_eq (show i0 % n2 + i0 / n2 * NB < 2 ^ 32 by omega)]
  refine radix4Butterfly_steps hin hout ?_ ?_
  · rw [hin 3 (by decide)]
    omega
  · rw [hout 3 (by decide)]
    omega

theorem middleFolded_eq (hn2 : 0 < n2) (hi0 : i0 < NB) (hNB : 4 * n2 ≤ NB) (hfit : NB ≤ 2 ^ 28) :
    radix4ButterflyMiddleFolded NB w pIn pOut i0 (4 * n2) =
      radix4Column (butterflyMiddle w) pIn pOut (fun q => fold NB (4 * n2)
        (columnElement (4 * n2) i0 q)) fun q => fold NB n2 (columnElement (4 * n2) i0 q) := by
  have hblock : i0 / (4 * n2) * (4 * n2) ≤ i0 := Nat.div_mul_le_self i0 (4 * n2)
  have hrow : i0 % (4 * n2) / n2 * NB ≤ 3 * NB :=
    Nat.mul_le_mul_right NB (Nat.le_of_lt_succ (Nat.div_lt_of_lt_mul
      (Nat.mul_comm 4 n2 ▸ Nat.mod_lt i0 (by omega))))
  have hplace := Nat.mod_lt i0 hn2
  have hin : ∀ q < 4, fold NB (4 * n2) (columnElement (4 * n2) i0 q) = i0 + q * NB := fun q hq =>
    fold_columnElement (by omega) hq
  have hout : ∀ q < 4, fold NB n2 (columnElement (4 * n2) i0 q) =
      i0 % n2 + i0 / (4 * n2) * (4 * n2) + i0 % (4 * n2) / n2 * NB + q * n2 := fun q _ =>
    fold_store hn2
  have hshift : (4 * n2) >>> 2 = n2 := by
    rw [Nat.shiftRight_eq_div_pow]
    omega
  unfold radix4ButterflyMiddleFolded
  dsimp only
  rw [hshift, u32_eq (show i0 / (4 * n2) * (4 * n2) < 2 ^ 32 by omega),
    u32_eq (show i0 % (4 * n2) / n2 * NB < 2 ^ 32 by omega),
    u32_eq (show i0 % n2 + i0 / (4 * n2) * (4 * n2) < 2 ^ 32 by omega),
    u32_eq (show i0 % n2 + i0 / (4 * n2) * (4 * n2) + i0 % (4 * n2) / n2 * NB < 2 ^ 32 by omega)]
  refine radix4Butterfly_steps hin hout ?_ ?_
  · rw [hin 3 (by decide)]
    omega
  · rw [hout 3 (by decide)]
    omega

theorem lastScheduled_eq (hi0 : i0 < NB) (hfit : NB ≤ 2 ^ 28) :
    radix4ButterflyLastScheduled NB pIn pOut i0 =
      radix4Column butterflyLast pIn pOut (fun q => fold NB 1 (columnElement 1 i0 q))
        fun q => fold NB 1 (columnElement 1 i0 q) := by
  have hin : ∀ q < 4, fold NB 1 (columnElement 1 i0 q) = i0 + q * NB := fun q hq =>
    fold_columnElement Nat.one_pos hq
  have hlast : fold NB 1 (columnElement 1 i0 3) < 2 ^ 32 := by
    rw [hin 3 (by decide)]
    omega
  exact radix4Butterfly_steps hin hin hlast hlast

theorem lastFolded_eq (hi0 : i0 < NB) (hfit : NB ≤ 2 ^ 28) :
    radix4ButterflyLastFolded NB pIn pOut i0 =
      radix4Column butterflyLast pIn pOut (fun q => fold NB 1 (columnElement 1 i0 q))
        (columnElement 1 i0) := by
  have hin : ∀ q < 4, fold NB 1 (columnElement 1 i0 q) = i0 + q * NB := fun q hq =>
    fold_columnElement Nat.one_pos hq
  have hout : ∀ q < 4, columnElement 1 i0 q = i0 * 4 + q * 1 := fun q _ => by
    rw [columnElement, columnButterfly, element, Nat.div_one, Nat.mod_one]
    omega
  unfold radix4ButterflyLastFolded
  dsimp only
  rw [u32_eq (show i0 * 4 < 2 ^ 32 by omega)]
  refine radix4Butterfly_steps hin hout ?_ ?_
  · rw [hin 3 (by decide)]
    omega
  · rw [hout 3 (by decide)]
    omega

end Butterflies

end TeraNoC.Kernels
