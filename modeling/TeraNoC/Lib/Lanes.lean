import Mathlib.Data.List.Basic
import Mathlib.Data.List.Nodup
import Mathlib.Data.List.Range
import Mathlib.Data.Nat.ModEq

/-!
# Streams over lanes, and ranges in rows

A stream can be sent over several lanes, each of which keeps its order. Grouped into beats that
use no lane twice, it can be taken off again in other beats than it was put on in: a beat whose
lanes all have something is the next part of the stream.

A range of addresses on a bus `S` wide is moved row by row: a first row that may start late, a
last one that may end early.
-/

namespace TeraNoC.Lib

section Lanes

variable {E ι : Type} [DecidableEq ι] (lane : E → ι)

/-- What a stream has on one lane. -/
def onLane (l : ι) (F : List E) : List E := F.filter fun e => lane e = l

variable {lane} {l : ι} {F G w : List E}

@[simp] theorem onLane_nil : onLane lane l [] = [] := rfl

theorem onLane_append : onLane lane l (F ++ G) = onLane lane l F ++ onLane lane l G :=
  List.filter_append ..

theorem onLane_eq_nil (h : ∀ e ∈ F, lane e ≠ l) : onLane lane l F = [] :=
  List.filter_eq_nil_iff.2 fun e he => by simpa using h e he

/-- A beat has at most one element on a lane. -/
theorem onLane_beat (hw : (w.map lane).Nodup) {e : E} (he : e ∈ w) (hl : lane e = l) :
    onLane lane l w = [e] := by
  induction w with
  | nil => cases he
  | cons d w ih =>
      rw [List.map_cons, List.nodup_cons] at hw
      rw [List.mem_cons] at he
      rw [onLane, List.filter_cons]
      rcases he with rfl | he
      · rw [if_pos (by simpa using hl)]
        have : onLane lane l w = [] := onLane_eq_nil fun d hd hdl =>
          hw.1 (List.mem_map.2 ⟨d, hd, hdl.trans hl.symm⟩)
        rw [onLane] at this
        rw [this]
      · rw [if_neg (by
          rw [decide_eq_true_eq]
          exact fun hd => hw.1 (List.mem_map.2 ⟨e, he, hl.trans hd.symm⟩))]
        exact ih hw.2 he

/-- A beat that is ready has arrived: if it is the next part of the stream and each of its lanes
has something, what has arrived begins with it. -/
theorem prefix_of_ready {future rest : List E} (hw : (w.map lane).Nodup)
    (hstream : F ++ future = w ++ rest) (hready : ∀ e ∈ w, onLane lane (lane e) F ≠ []) :
    w <+: F := by
  have hF : F <+: w ++ rest := ⟨future, hstream⟩
  rcases List.prefix_or_prefix_of_prefix (List.prefix_append w rest) hF with h | ⟨late, hlate⟩
  · exact h
  · cases late with
    | nil => exact ⟨[], by rw [List.append_nil, ← hlate, List.append_nil]⟩
    | cons e late =>
        obtain ⟨d, hd⟩ := List.exists_mem_of_ne_nil _
          (hready e (by rw [← hlate]; exact List.mem_append_right _ List.mem_cons_self))
        obtain ⟨hdF, hde⟩ := List.mem_filter.1 hd
        rw [← hlate, List.map_append, List.map_cons] at hw
        have hdisj := (List.nodup_append.1 hw).2.2
        exact absurd (of_decide_eq_true hde)
          (hdisj _ (List.mem_map_of_mem hdF) _ List.mem_cons_self)

/-- Two on one lane are more than a beat has. -/
theorem prefix_of_two {future rest : List E} (hw : (w.map lane).Nodup)
    (hstream : F ++ future = w ++ rest) (htwo : 2 ≤ (onLane lane l F).length) : w <+: F := by
  have hF : F <+: w ++ rest := ⟨future, hstream⟩
  rcases List.prefix_or_prefix_of_prefix (List.prefix_append w rest) hF with h | hlate
  · exact h
  · have hnodup : (F.map lane).Nodup := hw.sublist (hlate.map lane).sublist
    obtain ⟨e, hmem⟩ := List.exists_mem_of_ne_nil (onLane lane l F) fun hnil => by
      rw [hnil] at htwo
      cases htwo
    obtain ⟨heF, hel⟩ := List.mem_filter.1 hmem
    rw [onLane_beat hnodup heF (of_decide_eq_true hel), List.length_singleton] at htwo
    omega

end Lanes

/-! ## Rows -/

/-- The part of a range inside another one. -/
theorem filter_range' {a n R S : Nat} (hR : R ≤ a) (hS : a + n ≤ R + S) :
    (List.range' R S).filter (fun x => decide (a ≤ x ∧ x < a + n)) = List.range' a n := by
  have hsplit : List.range' R S =
      List.range' R (a - R) ++ (List.range' a n ++ List.range' (a + n) (R + S - (a + n))) := by
    rw [show List.range' (a + n) (R + S - (a + n)) =
        List.range' (a + 1 * n) (R + S - (a + n)) by rw [Nat.one_mul], List.range'_append,
      show List.range' a (n + (R + S - (a + n))) =
        List.range' (R + 1 * (a - R)) (n + (R + S - (a + n))) by congr 1; omega,
      List.range'_append]
    congr 1
    omega
  rw [hsplit, List.filter_append, List.filter_append,
    List.filter_eq_nil_iff.2, List.filter_eq_self.2, List.filter_eq_nil_iff.2, List.nil_append,
    List.append_nil] <;> intro x hx <;> rw [List.mem_range'_1] at hx
  · simp only [decide_eq_true_eq]
    omega
  · simp only [decide_eq_true_eq]
    omega
  · simp only [decide_eq_true_eq]
    omega

section Rows

variable (S A off len : Nat)

/-- The first row of the range that starts at `A + off`, and the rows after it. -/
def rowAt (b : Nat) : Nat := ((A + off) / S + b) * S

/-- The first index of the range at or after a row; indices count from `A`. -/
def rowLow (b : Nat) : Nat := max off (rowAt S A off b - A)

/-- The indices in the `b`-th row. -/
def rowBeat (b : Nat) : List Nat :=
  List.range' (rowLow S A off b) (min (off + len) (rowLow S A off (b + 1)) - rowLow S A off b)

/-- The indices from the `b`-th row on. -/
def rowRest (b : Nat) : List Nat :=
  List.range' (rowLow S A off b) (off + len - rowLow S A off b)

/-- The number of rows after the first. -/
def rowsAfter : Nat := ((A + off) % S + len - 1) / S

variable {S A off len : Nat} {b : Nat}

theorem rowAt_succ : rowAt S A off (b + 1) = rowAt S A off b + S := by
  rw [rowAt, rowAt, ← Nat.add_assoc, Nat.add_mul _ 1, Nat.one_mul]

theorem rowAt_zero : rowAt S A off 0 + (A + off) % S = A + off := by
  rw [rowAt, Nat.add_zero, Nat.mul_comm]
  exact Nat.div_add_mod _ _

theorem rowAt_eq : rowAt S A off b = A + off - (A + off) % S + S * b := by
  have h := @rowAt_zero S A off
  rw [rowAt, Nat.add_mul, Nat.mul_comm b]
  rw [rowAt, Nat.add_zero] at h
  omega

theorem rowRest_zero : rowRest S A off len 0 = List.range' off len := by
  have h := @rowAt_zero S A off
  have hlow : rowLow S A off 0 = off := by
    rw [rowLow]
    omega
  rw [rowRest, hlow, Nat.add_sub_cancel_left]

theorem rowRest_eq : rowRest S A off len b =
    rowBeat S A off len b ++ rowRest S A off len (b + 1) := by
  have hmono : rowLow S A off b ≤ rowLow S A off (b + 1) := by
    have := @rowAt_succ S A off b
    rw [rowLow, rowLow]
    omega
  rw [rowRest, rowBeat, rowRest]
  by_cases h : rowLow S A off (b + 1) ≤ off + len
  · rw [Nat.min_eq_right h, show List.range' (rowLow S A off (b + 1))
        (off + len - rowLow S A off (b + 1)) = List.range' (rowLow S A off b + 1 *
        (rowLow S A off (b + 1) - rowLow S A off b)) (off + len - rowLow S A off (b + 1)) by
          congr 1; omega, List.range'_append]
    congr 1
    omega
  · rw [Nat.min_eq_left (by omega), show off + len - rowLow S A off (b + 1) = 0 by omega,
      List.range'_zero, List.append_nil]

/-- The last row is the last one. -/
theorem rowRest_end (hS : 0 < S) (hlen : 1 ≤ len) (hb : rowsAfter S A off len < b) :
    rowRest S A off len b = [] := by
  have hlow : off + len ≤ rowLow S A off b := by
    have h₀ := @rowAt_eq S A off b
    have h₁ := Nat.mod_le (A + off) S
    have h₂ : (A + off) % S + len - 1 < S * b := by
      rw [rowsAfter, Nat.div_lt_iff_lt_mul hS] at hb
      rw [Nat.mul_comm]
      exact hb
    rw [rowLow]
    omega
  rw [rowRest, show off + len - rowLow S A off b = 0 by omega, List.range'_zero]

theorem mem_rowBeat (hS : 0 < S) {k : Nat} : k ∈ rowBeat S A off len b ↔
    (off ≤ k ∧ k < off + len) ∧ rowAt S A off b ≤ A + k ∧ A + k < rowAt S A off b + S := by
  have h := @rowAt_succ S A off b
  rw [rowBeat, List.mem_range'_1, rowLow, rowLow, h]
  omega

theorem rowBeat_ne_nil (hS : 0 < S) (hlen : 1 ≤ len) (hb : b ≤ rowsAfter S A off len) :
    rowBeat S A off len b ≠ [] := by
  have h₀ := @rowAt_eq S A off b
  have hle := Nat.mod_le (A + off) S
  have hlt := Nat.mod_lt (A + off) hS
  have hrow : S * b ≤ (A + off) % S + len - 1 := by
    rw [rowsAfter, Nat.le_div_iff_mul_le hS] at hb
    rw [Nat.mul_comm]
    exact hb
  refine List.ne_nil_of_mem (a := max off (rowAt S A off b - A)) ((mem_rowBeat hS).2 ?_)
  cases b with
  | zero =>
      rw [Nat.mul_zero] at h₀
      omega
  | succ b =>
      rw [Nat.mul_succ] at h₀ hrow
      omega

end Rows

end TeraNoC.Lib
