import TeraNoC.Kernels.FixedPoint

/-!
# The square root ends

Every turn that does not break off makes the interval from `start` to `end` smaller by at
least one, whatever the comparison says, so that the loop has a result within as many turns
as the interval is wide.
-/

namespace TeraNoC.Kernels

open TeraNoC.Lib

structure SqrtState.Inv (s : SqrtState) : Prop where
  start : 0 ≤ s.start.toInt
  le : s.start.toInt ≤ s.end_.toInt + 1
  end_ : s.end_.toInt ≤ 46341
  mid : s.break_ = false → s.mid.toInt = (s.start.toInt + s.end_.toInt) / 2

/-- The turns that are left at most. -/
def SqrtState.width (s : SqrtState) : Nat :=
  (s.end_.toInt + 1 - s.start.toInt).toNat + (!s.break_).toNat

section Turn

variable {fixedPoint : Nat} {number : Int32} {s : SqrtState}

theorem toInt_add_one {x : Int32} (h : x.toInt ≤ 46341) : (x + 1).toInt = x.toInt + 1 := by
  have hlo := x.le_toInt
  have hone : (1 : Int32).toInt = 1 := rfl
  rw [BitVec.toInt_add, hone, Int.bmod_eq_of_le (by omega) (by omega)]

theorem toInt_sub_one {x : Int32} (h : 0 ≤ x.toInt) : (x - 1).toInt = x.toInt - 1 := by
  have hhi := x.toInt_lt
  have hone : (1 : Int32).toInt = 1 := rfl
  rw [BitVec.toInt_sub, hone, Int.bmod_eq_of_le (by omega) (by omega)]

theorem SqrtState.halve_inv (hstart : 0 ≤ s.start.toInt) (hle : s.start.toInt ≤ s.end_.toInt + 1)
    (hend : s.end_.toInt ≤ 46341) : s.halve.Inv where
  start := hstart
  le := hle
  end_ := hend
  mid := fun _ => by
    change ((s.start + s.end_).sshiftRight 1).toInt = _
    rw [BitVec.toInt_sshiftRight, BitVec.toInt_add, Int.bmod_eq_of_le (by omega) (by omega),
      Int.shiftRight_eq_div_pow]
    rfl

theorem SqrtState.Inv.turn (h : s.Inv) (hcond : (s.start.sle s.end_ && !s.break_) = true) :
    (sqrtBody fixedPoint number s).Inv ∧
      (sqrtBody fixedPoint number s).width < s.width := by
  obtain ⟨hsle, hbreak⟩ := Bool.and_eq_true_iff.mp hcond
  have hsle := BitVec.sle_iff_toInt_le.mp hsle
  have hbreak : s.break_ = false := (Bool.not_eq_true' _).mp hbreak
  have hmid := h.mid hbreak
  obtain ⟨hstart, hle, hend, -⟩ := h
  have hup : (s.mid + 1).toInt = s.mid.toInt + 1 := toInt_add_one (by omega)
  have hdown : (s.mid - 1).toInt = s.mid.toInt - 1 := toInt_sub_one (by omega)
  unfold sqrtBody SqrtState.width
  dsimp only
  split
  · -- found: the interval stays, and the loop breaks off
    refine ⟨⟨hstart, hle, hend, fun h => Bool.noConfusion h⟩, ?_⟩
    rw [hbreak]
    exact Nat.lt_succ_self _
  · split
    · have hlo : 0 ≤ (s.mid + 1).toInt := by omega
      have hhi : (s.mid + 1).toInt ≤ s.end_.toInt + 1 := by omega
      refine ⟨SqrtState.halve_inv hlo hhi hend, ?_⟩
      simp only [SqrtState.halve, hup, hbreak]
      omega
    · have hlo : s.start.toInt ≤ (s.mid - 1).toInt + 1 := by omega
      have hhi : (s.mid - 1).toInt ≤ 46341 := by omega
      refine ⟨SqrtState.halve_inv hstart hlo hhi, ?_⟩
      simp only [SqrtState.halve, hdown, hbreak]
      omega

end Turn

theorem mempoolSqrtQ32s_eq (fixedPoint : Nat) (number : Int32) {fuel : Nat} (hfuel : 46343 ≤ fuel) :
    mempoolSqrtQ32s fixedPoint number fuel = some (sqrtQ32s fixedPoint number) := by
  have hinit : sqrtInit.Inv :=
    SqrtState.halve_inv (by decide) (by decide) (by decide)
  obtain ⟨s, hs⟩ : ∃ s, ∀ fuel, sqrtInit.width ≤ fuel →
      whileLoop (fun s => s.start.sle s.end_ && !s.break_) (sqrtBody fixedPoint number) fuel
        sqrtInit = some s :=
    whileLoop_ends SqrtState.Inv SqrtState.width (fun s hI hc => hI.turn hc) hinit
  have hwidth : sqrtInit.width = 46343 := by decide
  rw [hwidth] at hs
  unfold sqrtQ32s mempoolSqrtQ32s
  rw [hs fuel hfuel, hs 46343 (Nat.le_refl _)]
  split <;> rfl

end TeraNoC.Kernels
