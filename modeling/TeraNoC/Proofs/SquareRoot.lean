import Mathlib.Algebra.Order.Ring.Abs
import Mathlib.Data.Nat.Sqrt
import TeraNoC.Proofs.FixedPoint

/-!
# The square root brackets the root

The binary search keeps the root between `start - 1`, which is too small, and `end + 1`, which is
too large. Every number up to 46340 squares into 31 bits, and the upper bound 46341 does not: its
square is negative and taken as too small, so that it is the result for every number that the
square of 46340 does not reach.
-/

namespace TeraNoC.Kernels

open TeraNoC.Lib

/-- The square of a number, scaled. -/
def scaledSquare (fixedPoint : Nat) (m : Int) : Int := m ^ 2 / 2 ^ fixedPoint

/-- What the root of a number is for. -/
def SqrtBrackets (fixedPoint : Nat) (number : Int32) : Prop :=
  ∃ r, Ends (mempoolSqrtQ32s fixedPoint number) r ∧ 1 ≤ r.toInt ∧
    (scaledSquare fixedPoint r.toInt = number.toInt ∨
      scaledSquare fixedPoint r.toInt < number.toInt ∧
        number.toInt < scaledSquare fixedPoint (r.toInt + 1)) ∧
    (fixedPoint = 0 → r.toInt = Nat.sqrt number.toInt.toNat)

section Probe

variable (fixedPoint : Nat) {m : Int32}

theorem scaledSquare_le {a b : Int} (ha : 0 ≤ a) (hab : a ≤ b) :
    scaledSquare fixedPoint a ≤ scaledSquare fixedPoint b := by
  have hsq : a ^ 2 ≤ b ^ 2 := pow_le_pow_left₀ ha hab 2
  exact Int.ediv_le_ediv (pow_pos (by decide) _) hsq

/-- A probe below the bound. -/
theorem probe_eq (hlo : 0 ≤ m.toInt) (hhi : m.toInt ≤ 46340) :
    ((m * m).sshiftRight fixedPoint).toInt = scaledSquare fixedPoint m.toInt := by
  have hsq : m.toInt ^ 2 ≤ 46340 ^ 2 := pow_le_pow_left₀ hlo hhi 2
  have hpos : 0 ≤ m.toInt ^ 2 := sq_nonneg _
  rw [BitVec.toInt_sshiftRight, BitVec.toInt_mul, ← pow_two,
    Int.bmod_eq_of_le (by omega) (by omega), Int.shiftRight_eq_div_pow, scaledSquare]
  norm_cast

/-- The probe of the bound. -/
theorem probe_last (h : m.toInt = 46341) : ((m * m).sshiftRight fixedPoint).toInt < 0 := by
  have hsq : (m * m).toInt = -2147479015 := by
    rw [BitVec.toInt_mul, h]
    rfl
  rw [BitVec.toInt_sshiftRight, hsq, Int.shiftRight_eq_div_pow]
  exact Int.ediv_neg_of_neg_of_pos (by decide) (Int.natCast_pos.mpr (Nat.two_pow_pos _))

end Probe

/-! ## The search -/

/-- The invariant of the search for the root of a number. -/
structure Bracket (fixedPoint : Nat) (number : Int) (s : SqrtState) : Prop extends s.Inv where
  probe : s.break_ = false → s.mid2 = s.mid * s.mid
  low : s.start.toInt = 0 ∨ scaledSquare fixedPoint (min (s.start.toInt - 1) 46340) < number
  res : s.break_ = false → s.start.toInt = 0 ∨ s.res.toInt = s.start.toInt - 1
  high : s.end_.toInt = 46341 ∨
    s.end_.toInt < 46340 ∧ number < scaledSquare fixedPoint (s.end_.toInt + 1)
  found : s.break_ = true → 0 ≤ s.res.toInt ∧ s.res.toInt ≤ 46340 ∧
    scaledSquare fixedPoint s.res.toInt = number

section Search

variable {fixedPoint : Nat} {number : Int32} {s : SqrtState}

theorem Bracket.turn (h : Bracket fixedPoint number.toInt s) (hpos : 0 < number.toInt)
    (hcond : (s.start.sle s.end_ && !s.break_) = true) :
    Bracket fixedPoint number.toInt (sqrtBody fixedPoint number s) := by
  have hinv : (sqrtBody fixedPoint number s).Inv := (h.toInv.turn hcond).1
  obtain ⟨hsle, hbreak⟩ := Bool.and_eq_true_iff.mp hcond
  have hsle := BitVec.sle_iff_toInt_le.mp hsle
  have hbreak : s.break_ = false := (Bool.not_eq_true' _).mp hbreak
  have hmid := h.mid hbreak
  have hstart := h.start
  have hend := h.end_
  have hprobe := h.probe hbreak
  have hup : (s.mid + 1).toInt = s.mid.toInt + 1 := toInt_add_one (by omega)
  have hdown : (s.mid - 1).toInt = s.mid.toInt - 1 := toInt_sub_one (by omega)
  have hmid_le : s.mid.toInt ≠ 46341 → s.mid.toInt ≤ 46340 := by omega
  revert hinv
  unfold sqrtBody
  dsimp only
  rw [hprobe]
  split
  · rename_i heq
    -- the bound is no root: its probe is negative
    have hne : s.mid.toInt ≠ 46341 := fun hlast => by
      have hneg := probe_last fixedPoint hlast
      rw [heq] at hneg
      omega
    have hsquare := probe_eq fixedPoint (by omega) (hmid_le hne)
    rw [heq] at hsquare
    exact fun hinv => ⟨hinv, fun h => Bool.noConfusion h, h.low,
      fun h => Bool.noConfusion h, h.high,
      fun _ => ⟨show 0 ≤ s.mid.toInt by omega, hmid_le hne, hsquare.symm⟩⟩
  · split
    · rename_i hlt
      have hlt := BitVec.slt_iff_toInt_lt.mp hlt
      refine fun hinv => ⟨hinv, fun _ => rfl, Or.inr ?_, fun _ => Or.inr ?_, h.high, fun h => ?_⟩
      · change scaledSquare fixedPoint (min ((s.mid + 1).toInt - 1) 46340) < number.toInt
        rw [hup]
        by_cases hlast : s.mid.toInt = 46341
        · -- then only the bound was left, and 46340 is too small already
          have hlow := h.low.resolve_left (by omega)
          rw [show min (s.start.toInt - 1) 46340 = 46340 by omega] at hlow
          rwa [show min (s.mid.toInt + 1 - 1) 46340 = 46340 by omega]
        · rw [show min (s.mid.toInt + 1 - 1) 46340 = s.mid.toInt by omega,
            ← probe_eq fixedPoint (by omega) (hmid_le hlast)]
          exact hlt
      · change s.mid.toInt = (s.mid + 1).toInt - 1
        omega
      · rw [SqrtState.halve, hbreak] at h
        cases h
    · rename_i hne hge
      have hge : number.toInt < ((s.mid * s.mid).sshiftRight fixedPoint).toInt := by
        have hle := BitVec.slt_iff_toInt_lt.not.mp hge
        have hne : ((s.mid * s.mid).sshiftRight fixedPoint).toInt ≠ number.toInt :=
          fun heq => hne (BitVec.eq_of_toInt_eq heq)
        omega
      have hlast : s.mid.toInt ≠ 46341 := fun hlast => by
        have hneg := probe_last fixedPoint hlast
        omega
      refine fun hinv => ⟨hinv, fun _ => rfl, h.low, fun _ => h.res hbreak, Or.inr ⟨?_, ?_⟩,
        fun h => ?_⟩
      · change (s.mid - 1).toInt < 46340
        omega
      · change number.toInt < scaledSquare fixedPoint ((s.mid - 1).toInt + 1)
        rw [hdown, Int.sub_add_cancel, ← probe_eq fixedPoint (by omega) (hmid_le hlast)]
        exact hge
      · rw [SqrtState.halve, hbreak] at h
        cases h

theorem bracket_init : Bracket fixedPoint number.toInt sqrtInit where
  toInv := SqrtState.halve_inv (by decide) (by decide) (by decide)
  probe := fun _ => rfl
  low := Or.inl rfl
  res := fun _ => Or.inl rfl
  high := Or.inl rfl
  found := fun h => Bool.noConfusion h

/-- The result is right if the number is reached by the square of 46340, and else it is 46341. -/
theorem Bracket.result (h : Bracket fixedPoint number.toInt s) (hpos : 0 < number.toInt)
    (hdone : (s.start.sle s.end_ && !s.break_) = false) :
    s.res.toInt = 46341 ∧ scaledSquare fixedPoint 46340 < number.toInt ∨
      number.toInt ≤ scaledSquare fixedPoint 46340 ∧ 1 ≤ s.res.toInt ∧
        (scaledSquare fixedPoint s.res.toInt = number.toInt ∨
          scaledSquare fixedPoint s.res.toInt < number.toInt ∧
            number.toInt < scaledSquare fixedPoint (s.res.toInt + 1)) := by
  have hzero : scaledSquare fixedPoint 0 = 0 := by
    rw [scaledSquare]
    exact Int.zero_ediv _
  have hone : scaledSquare fixedPoint 1 ≤ 1 := by
    rw [scaledSquare]
    exact Int.ediv_le_self _ (by decide)
  cases hbreak : s.break_ with
  | true =>
      obtain ⟨hlo, hhi, heq⟩ := h.found hbreak
      have hne : s.res.toInt ≠ 0 := fun hz => by
        rw [hz, hzero] at heq
        omega
      exact Or.inr ⟨heq ▸ scaledSquare_le fixedPoint hlo hhi, by omega, Or.inl heq⟩
  | false =>
      have hgt : s.end_.toInt < s.start.toInt := by
        rw [hbreak, Bool.not_false, Bool.and_true] at hdone
        exact Int.not_le.mp fun hle => Bool.noConfusion
          (hdone.symm.trans (BitVec.sle_iff_toInt_le.mpr hle))
      have hstart : s.start.toInt = s.end_.toInt + 1 := by
        have := h.le
        omega
      have hne : s.start.toInt ≠ 0 := fun hz => by
        have hhigh := (h.high.resolve_left (by omega)).2
        rw [show s.end_.toInt + 1 = 0 by omega, hzero] at hhigh
        omega
      have hlow := h.low.resolve_left hne
      have hres := (h.res hbreak).resolve_left hne
      by_cases hlast : s.end_.toInt = 46341
      · refine Or.inl ⟨by omega, ?_⟩
        rwa [show min (s.start.toInt - 1) 46340 = 46340 by omega] at hlow
      · obtain ⟨hbelow, hhigh⟩ := h.high.resolve_left hlast
        have hend := h.end_
        have hge := h.start
        have hsucc : s.end_.toInt + 1 = s.res.toInt + 1 := by omega
        rw [show min (s.start.toInt - 1) 46340 = s.res.toInt by omega] at hlow
        rw [hsucc] at hhigh
        have hmono : scaledSquare fixedPoint (s.res.toInt + 1) ≤ scaledSquare fixedPoint 46340 :=
          scaledSquare_le fixedPoint (by omega) (by omega)
        have hres_ne : s.res.toInt ≠ 0 := fun hz => by
          -- a number below the square of one is not positive
          rw [hz, Int.zero_add] at hhigh
          exact absurd (hhigh.trans_le hone) (Int.not_lt.mpr hpos)
        have hres_pos : 1 ≤ s.res.toInt := by
          have := h.le
          omega
        exact Or.inr ⟨hhigh.le.trans hmono, hres_pos, Or.inr ⟨hlow, hhigh⟩⟩

/-- The search ends, and its result is one of the two. -/
theorem sqrt_ends (hpos : 0 < number.toInt) : ∃ r, Ends (mempoolSqrtQ32s fixedPoint number) r ∧
    (r.toInt = 46341 ∧ scaledSquare fixedPoint 46340 < number.toInt ∨
      number.toInt ≤ scaledSquare fixedPoint 46340 ∧ 1 ≤ r.toInt ∧
        (scaledSquare fixedPoint r.toInt = number.toInt ∨
          scaledSquare fixedPoint r.toInt < number.toInt ∧
            number.toInt < scaledSquare fixedPoint (r.toInt + 1))) := by
  have hends := mempoolSqrtQ32s_eq fixedPoint number (Nat.le_refl 46343)
  have hslt : (0 : Int32).slt number = true := BitVec.slt_iff_toInt_lt.mpr hpos
  refine ⟨sqrtQ32s fixedPoint number,
    ⟨46343, fun fuel hfuel => mempoolSqrtQ32s_eq fixedPoint number hfuel⟩, ?_⟩
  rw [mempoolSqrtQ32s, if_pos hslt] at hends
  obtain ⟨s, hs, hres⟩ := Option.map_eq_some_iff.mp hends
  obtain ⟨hbracket, hdone⟩ := whileLoop_partial (Bracket fixedPoint number.toInt)
    (fun s hs hcond => hs.turn hpos hcond) bracket_init hs
  rw [← hres]
  exact hbracket.result hpos hdone

end Search

/-- The square of the bound leaves the 31 bits. -/
theorem lt_scaledSquare_last {fixedPoint : Nat} {n : Int} (hfixed : fixedPoint ≤ 31)
    (hfits : n * 2 ^ fixedPoint < 2 ^ 31) : n < scaledSquare fixedPoint 46341 := by
  have hpow : (0 : Int) < 2 ^ fixedPoint := pow_pos (by decide) _
  have hsplit : (2 : Int) ^ 31 = 2 ^ (31 - fixedPoint) * 2 ^ fixedPoint := by
    rw [← pow_add, Nat.sub_add_cancel hfixed]
  have hlt : n < 2 ^ (31 - fixedPoint) := by
    rw [hsplit] at hfits
    exact lt_of_mul_lt_mul_right hfits hpow.le
  refine Int.lt_of_add_one_le ((Int.le_ediv_iff_mul_le hpow).mpr ?_)
  calc (n + 1) * 2 ^ fixedPoint ≤ 2 ^ (31 - fixedPoint) * 2 ^ fixedPoint :=
        mul_le_mul_of_nonneg_right hlt hpow.le
    _ ≤ 46341 ^ 2 := by
        rw [← hsplit]
        decide

/-- A bracket without scaling is the root, rounded down. -/
theorem sqrt_of_bracket {n r : Int} (hn : 0 ≤ n) (hr : 0 ≤ r)
    (h : scaledSquare 0 r = n ∨ scaledSquare 0 r < n ∧ n < scaledSquare 0 (r + 1)) :
    r = Nat.sqrt n.toNat := by
  obtain ⟨m, rfl⟩ := Int.eq_ofNat_of_zero_le hr
  obtain ⟨k, rfl⟩ := Int.eq_ofNat_of_zero_le hn
  simp only [scaledSquare, pow_zero, Int.ediv_one] at h
  rw [Int.toNat_natCast, Nat.cast_inj, Nat.eq_sqrt, ← pow_two, ← pow_two]
  rcases h with heq | ⟨hlt, hgt⟩
  · exact ⟨by exact_mod_cast heq.le, by
      have : m ^ 2 = k := by exact_mod_cast heq
      exact this ▸ Nat.pow_lt_pow_left (Nat.lt_succ_self m) (by decide)⟩
  · exact ⟨by exact_mod_cast hlt.le, by exact_mod_cast hgt⟩

/-! ## Which roots are bracketed -/

/-- The root is bracketed if and only if the square of 46340 reaches the number. -/
theorem sqrt_brackets_iff {fixedPoint : Nat} {number : Int32} (hfixed : fixedPoint ≤ 15)
    (hpos : 1 ≤ number.toInt) (hfits : number.toInt * 2 ^ fixedPoint < 2 ^ 31) :
    SqrtBrackets fixedPoint number ↔ number.toInt ≤ 46340 ^ 2 / 2 ^ fixedPoint := by
  obtain ⟨r, hr, hresult⟩ := @sqrt_ends fixedPoint number (Int.lt_of_add_one_le hpos)
  constructor
  · rintro ⟨r', hr', hone, hbracket, -⟩
    rw [hr'.unique hr] at hbracket
    refine hresult.elim (fun hbad => ?_) fun hgood => hgood.1
    have hbeyond := lt_scaledSquare_last (by omega) hfits
    have hbelow : scaledSquare fixedPoint 46341 ≤ number.toInt :=
      hbad.1 ▸ hbracket.elim Eq.le fun h => h.1.le
    exact absurd hbelow (Int.not_le.mpr hbeyond)
  · intro hle
    obtain ⟨-, hone, hbracket⟩ := hresult.resolve_left fun hbad => Int.not_le.mpr hbad.2 hle
    refine ⟨r, hr, hone, hbracket, fun hzero => ?_⟩
    subst hzero
    exact sqrt_of_bracket (by omega) (by omega) hbracket

theorem sqrt_brackets_two : SqrtBrackets 10 2048 ↔ (2048 : Int) ≤ 46340 ^ 2 / 2 ^ 10 :=
  sqrt_brackets_iff (by decide) (by decide) (by decide)

/-- The bound squares to a negative number, and is returned. -/
theorem sqrt_overshoots : ¬SqrtBrackets 0 2147483647 := by
  rintro ⟨r, hr, -, hbracket, -⟩
  obtain ⟨r', hr', hresult⟩ := @sqrt_ends 0 2147483647 (by decide)
  rw [hr'.unique hr] at hresult
  obtain hlast | ⟨hle, -, -⟩ := hresult
  · rw [hlast.1] at hbracket
    revert hbracket
    decide
  · revert hle
    decide

end TeraNoC.Kernels
