import TeraNoC.Lib.BitReversal
import TeraNoC.Proofs.FftFolded

/-!
# Layouts of several transforms

A row of transforms has four rows of banks. What a stage of them stores is a matter of keys: the
numbers of all transforms, and the twiddle factors of all columns, each with a cell of its own.
-/

namespace TeraNoC.Kernels

open TeraNoC.Lib TeraNoC.Runtime

/-! ## Layouts -/

/-- Where the numbers of the transforms of one row are. -/
structure Layout (NB nCOL m : Nat) where
  index : Nat → Nat → Nat
  lt : ∀ c < nCOL, ∀ e < 4 ^ m, index c e < 4 * NB
  inj : ∀ c < nCOL, ∀ e < 4 ^ m, ∀ c' < nCOL, ∀ e' < 4 ^ m, index c e = index c' e' →
    c = c' ∧ e = e'

section Layouts

variable {NB nCOL m r r' c c' e e' : Nat}

/-- The halfword of a number in row `r` of the transforms. -/
def Layout.cell (L : Layout NB nCOL m) (r c e : Nat) : Nat := r * (NB * 8) + L.index c e * 2

theorem Layout.cell_inj (L : Layout NB nCOL m) (hc : c < nCOL) (he : e < 4 ^ m) (hc' : c' < nCOL)
    (he' : e' < 4 ^ m) (h : L.cell r c e = L.cell r' c' e') : r = r' ∧ c = c' ∧ e = e' := by
  have hlt := L.lt c hc e he
  have hlt' := L.lt c' hc' e' he'
  unfold cell at h
  have hdiv := congrArg (· / (NB * 8)) h
  have hmod := congrArg (· % (NB * 8)) h
  simp only [Nat.mul_add_mod_self_right, Nat.mod_eq_of_lt (show L.index c e * 2 < NB * 8 by omega),
    Nat.mod_eq_of_lt (show L.index c' e' * 2 < NB * 8 by omega)] at hmod
  simp only [Nat.mul_comm _ (NB * 8), Nat.mul_add_div (show 0 < NB * 8 by omega),
    Nat.div_eq_of_lt (show L.index c e * 2 < NB * 8 by omega),
    Nat.div_eq_of_lt (show L.index c' e' * 2 < NB * 8 by omega), Nat.add_zero] at hdiv
  exact ⟨hdiv, L.inj c hc e he c' hc' e' he' (Nat.eq_of_mul_eq_mul_right (by decide) hmod)⟩

/-- Blocks one after the other. -/
theorem block_inj {len : Nat} (he : e < len) (he' : e' < len) (h : c * len + e = c' * len + e') :
    c = c' ∧ e = e' := by
  have hdiv := congrArg (· / len) h
  have hmod := congrArg (· % len) h
  simp only [Nat.mul_add_mod_self_right, Nat.mod_eq_of_lt he, Nat.mod_eq_of_lt he'] at hmod
  simp only [Nat.mul_comm _ len, Nat.mul_add_div (show 0 < len by omega), Nat.div_eq_of_lt he,
    Nat.div_eq_of_lt he', Nat.add_zero] at hdiv
  exact ⟨hdiv, hmod⟩

theorem block_lt {len n : Nat} (hc : c < n) (he : e < len) : c * len + e < n * len := by
  have hmul := Nat.mul_le_mul_right len (Nat.succ_le_of_lt hc)
  rw [Nat.succ_mul] at hmul
  omega

theorem quarter (hm : 0 < m) : 4 ^ m = 4 * 4 ^ (m - 1) := by
  rw [← Nat.pow_succ']
  congr 1
  omega

variable (hm : 0 < m) (hcols : nCOL * 4 ^ (m - 1) ≤ NB)

include hm hcols in
theorem cols_fit : nCOL * 4 ^ m ≤ 4 * NB := by
  rw [quarter hm, Nat.mul_left_comm]
  exact Nat.mul_le_mul_left 4 hcols

/-- The transforms one after the other. -/
def Layout.contiguous : Layout NB nCOL m where
  index c e := c * 4 ^ m + e
  lt _ hc _ he := (block_lt hc he).trans_le (cols_fit hm hcols)
  inj _ _ _ he _ _ _ he' := block_inj he he'

/-- The same with the numbers in bit-reversed order. -/
def Layout.reversed : Layout NB nCOL m where
  index c e := c * 4 ^ m + bitReversed (2 * m) e
  lt c hc e _ := by
    have hrev : bitReversed (2 * m) e < 4 ^ m := Nat.pow_mul 2 2 m ▸ bitReversed_lt (2 * m) e
    exact (block_lt hc hrev).trans_le (cols_fit hm hcols)
  inj c _ e he c' _ e' he' h := by
    have hpow : 2 ^ (2 * m) = 4 ^ m := Nat.pow_mul 2 2 m
    obtain ⟨rfl, hrev⟩ := block_inj (hpow ▸ bitReversed_lt (2 * m) e)
      (hpow ▸ bitReversed_lt (2 * m) e') h
    exact ⟨rfl, bitReversed_inj (hpow.symm ▸ he) (hpow.symm ▸ he') hrev⟩

include hm in
theorem column_of_stage (s : Nat) (he : e < 4 ^ m) : column (4 ^ (m - 1 - s)) e < 4 ^ (m - 1) := by
  have hs : m - 1 - (m - 1 - s) < m := by omega
  have hwing : m - 1 - (m - 1 - (m - 1 - s)) = m - 1 - s := by omega
  have hcolumn := @column_lt (4 ^ (m - 1 - s)) e (4 ^ (m - 1 - (m - 1 - s)))
    (Nat.pow_pos (by decide)) (by
      have hlen := stage_length (r := 4) hs
      rw [hwing] at hlen
      rwa [hlen])
  rwa [← Nat.pow_add, show m - 1 - (m - 1 - s) + (m - 1 - s) = m - 1 by omega] at hcolumn

/-- Each transform with its elements in the columns of the butterflies of stage `s`, or of the
last stage. -/
def Layout.folded (s : Nat) : Layout NB nCOL m where
  index c e := c * 4 ^ (m - 1) + fold NB (4 ^ (m - 1 - s)) e
  lt c hc e he := by
    have hplace := (block_lt hc (column_of_stage hm s he)).trans_le hcols
    have hwing := Nat.mul_le_mul_right NB (Nat.le_of_lt_succ (@wing_lt_four (4 ^ (m - 1 - s)) e))
    unfold fold
    omega
  inj c hc e he c' hc' e' he' h := by
    have hplace := (block_lt hc (column_of_stage hm s he)).trans_le hcols
    have hplace' := (block_lt hc' (column_of_stage hm s he')).trans_le hcols
    obtain ⟨hwing, hcolumn⟩ := fold_inj hplace hplace' h
    obtain ⟨rfl, hsame⟩ := block_inj (column_of_stage hm s he) (column_of_stage hm s he') hcolumn
    refine ⟨rfl, ?_⟩
    have hn2 : 0 < 4 ^ (m - 1 - s) := Nat.pow_pos (by decide)
    rw [← @columnElement_column _ e hn2, hsame, hwing, columnElement_column hn2]

end Layouts

/-! ## Twiddle factors -/

section Factors

variable {n i0 x t : Nat}

/-- The column whose twiddle factors go to place `x` for the next stage, which has wings of length
`n`. -/
def factorColumn (n x : Nat) : Nat := x / (4 * n) * (4 * n) + x % n * 4

/-- The first of the four places that they go to. -/
def factorPlace (n i0 : Nat) : Nat := i0 % (4 * n) / 4 + i0 / (4 * n) * (4 * n)

theorem factorPlace_facts (hn : 0 < n) (ht : t < 4) :
    (factorPlace n i0 + t * n) / (4 * n) = i0 / (4 * n) ∧
      (factorPlace n i0 + t * n) % n = i0 % (4 * n) / 4 := by
  have hplace : i0 % (4 * n) / 4 < n := Nat.div_lt_of_lt_mul (Nat.mod_lt i0 (by omega))
  have hwing := wing_lt hplace ht
  unfold factorPlace
  constructor
  · rw [Nat.add_right_comm, Nat.add_mul_div_right _ _ (by omega), Nat.div_eq_of_lt hwing,
      Nat.zero_add]
  · rw [Nat.add_mul_mod_self_right, ← Nat.mul_assoc, Nat.add_mul_mod_self_right,
      Nat.mod_eq_of_lt hplace]

theorem factorColumn_place (hn : 0 < n) (h4 : i0 % 4 = 0) (ht : t < 4) :
    factorColumn n (factorPlace n i0 + t * n) = i0 := by
  obtain ⟨hblock, hplace⟩ := @factorPlace_facts n i0 t hn ht
  have hdiv := Nat.div_add_mod' i0 (4 * n)
  have hmod : i0 % (4 * n) % 4 = 0 := by rw [Nat.mod_mul_right_mod, h4]
  rw [factorColumn, hblock, hplace]
  omega

theorem factorColumn_facts (hn : 0 < n) : factorColumn n x / (4 * n) = x / (4 * n) ∧
    factorColumn n x % (4 * n) = x % n * 4 ∧ factorColumn n x % 4 = 0 := by
  have hplace := Nat.mod_lt x hn
  unfold factorColumn
  refine ⟨?_, ?_, ?_⟩
  · rw [Nat.add_comm, Nat.add_mul_div_right _ _ (by omega), Nat.div_eq_of_lt (by omega),
      Nat.zero_add]
  · rw [Nat.mul_add_mod_self_right, Nat.mod_eq_of_lt (by omega)]
  · rw [Nat.mul_left_comm, ← Nat.mul_comm 4 (x % n), ← Nat.mul_add, Nat.mul_mod_right]

/-- Every place gets the twiddle factors of a column. -/
theorem factorPlace_column (hn : 0 < n) :
    x = factorPlace n (factorColumn n x) + x % (4 * n) / n * n := by
  obtain ⟨hblock, hplace, -⟩ := @factorColumn_facts n x hn
  have hdiv := Nat.div_add_mod' x (4 * n)
  have hwing := Nat.div_add_mod' (x % (4 * n)) n
  rw [Nat.mod_mul_left_mod] at hwing
  rw [factorPlace, hblock, hplace, Nat.mul_div_cancel _ (by decide)]
  omega

end Factors
end TeraNoC.Kernels
