import Mathlib.Tactic.Ring
import TeraNoC.Kernels.Matmul
import TeraNoC.Lib.Interleave
import TeraNoC.Proofs.Dotp

/-!
# The fine-grained matrix multiplications

A thread's share is a run of chunks. The threads up to the remainder of the division take
one chunk more, but only those below it should: thread `remainder` takes one too many, so
that it runs into the next thread's share, or over the end of `C` if it is the last one.
-/

namespace TeraNoC.Kernels

open TeraNoC.Lib TeraNoC.Runtime

/-- The first chunk of a thread and how many it takes. -/
def shareOf (work numThreads id : Nat) : Nat × Nat :=
  if work % numThreads < id then
    (id * (work / numThreads) + work % numThreads, work / numThreads)
  else (id * (work / numThreads + 1), work / numThreads + 1)

section Ranges

variable {M N P id work numThreads : Nat}

theorem shareOf_gt (h : work % numThreads < id) : shareOf work numThreads id =
    (id * (work / numThreads) + work % numThreads, work / numThreads) := if_pos h

theorem shareOf_le (h : id ≤ work % numThreads) : shareOf work numThreads id =
    (id * (work / numThreads + 1), work / numThreads + 1) := if_neg (Nat.not_lt.mpr h)

theorem shareOf_start_le (hid : id < numThreads) : (shareOf work numThreads id).1 ≤ work := by
  have hdiv : numThreads * (work / numThreads) + work % numThreads = work :=
    Nat.div_add_mod work numThreads
  rcases Nat.lt_or_ge (work % numThreads) id with h | h
  · rw [shareOf_gt h]
    have := Nat.mul_le_mul_right (work / numThreads) hid.le
    omega
  · rw [shareOf_le h, Nat.mul_succ]
    have := Nat.mul_le_mul_right (work / numThreads) hid.le
    omega

theorem chunksLeft_eq (hwork : work < 2 ^ 32) :
    sub32 work (u32 (work / numThreads * numThreads)) = work % numThreads := by
  have hle : work / numThreads * numThreads ≤ work := Nat.div_mul_le_self work numThreads
  have hmod : work / numThreads * numThreads + work % numThreads = work :=
    Nat.div_add_mod' work numThreads
  rw [u32_eq (by omega), sub32_eq hle hwork]
  omega

theorem finegrainedRange_eq (hid : id < numThreads) :
    finegrainedRange M P id numThreads =
      ((shareOf (u32 (M * P)) numThreads id).1,
        u32 ((shareOf (u32 (M * P)) numThreads id).1 +
          (shareOf (u32 (M * P)) numThreads id).2)) := by
  have hwork : u32 (M * P) < 2 ^ 32 := Nat.mod_lt _ (by decide)
  have hstart := (shareOf_start_le hid).trans_lt hwork
  unfold finegrainedRange
  dsimp only
  generalize u32 (M * P) = work at hwork hstart ⊢
  rw [chunksLeft_eq hwork]
  rcases Nat.lt_or_ge (work % numThreads) id with h | h
  · rw [shareOf_gt h] at hstart ⊢
    rw [if_pos h]
    simp only [u32, Nat.mod_add_mod]
    rw [Nat.mod_eq_of_lt hstart]
  · rw [shareOf_le h] at hstart ⊢
    rw [if_neg (Nat.not_lt.mpr h)]
    simp only [u32, Nat.mod_add_mod, Nat.add_mod_mod, Nat.mul_mod_mod]
    rw [Nat.mod_eq_of_lt hstart]

theorem unrolledFinegrainedRange_eq (hid : id < numThreads) :
    unrolledFinegrainedRange M P id numThreads =
      (4 * (shareOf (u32 (M * P) / 4) numThreads id).1,
        u32 (4 * ((shareOf (u32 (M * P) / 4) numThreads id).1 +
          (shareOf (u32 (M * P) / 4) numThreads id).2))) := by
  have hwork : u32 (M * P) / 4 < 2 ^ 30 := by
    have : u32 (M * P) < 2 ^ 32 := Nat.mod_lt _ (by decide)
    omega
  have hstart := (shareOf_start_le hid).trans_lt hwork
  unfold unrolledFinegrainedRange
  dsimp only
  generalize u32 (M * P) / 4 = work at hwork hstart ⊢
  rw [Nat.mul_comm numThreads, chunksLeft_eq (by omega)]
  rcases Nat.lt_or_ge (work % numThreads) id with h | h
  · rw [shareOf_gt h] at hstart ⊢
    rw [if_pos h]
    have hfour : id * (work / numThreads * 4) + work % numThreads * 4 =
        4 * (id * (work / numThreads) + work % numThreads) := by ring
    simp only [u32, Nat.mod_add_mod, Nat.add_mod_mod, Nat.mul_mod_mod]
    rw [hfour, Nat.mod_eq_of_lt (by omega), Nat.mul_add 4 (_ + _),
      Nat.mul_comm 4 (work / numThreads)]
  · rw [shareOf_le h] at hstart ⊢
    rw [if_neg (Nat.not_lt.mpr h)]
    have hfour : id * (work / numThreads * 4 + 4) = 4 * (id * (work / numThreads + 1)) := by ring
    simp only [u32, Nat.mod_add_mod, Nat.add_mod_mod, Nat.mul_mod_mod]
    rw [hfour, Nat.mod_eq_of_lt (by omega), Nat.mul_add 4, Nat.mul_add_one 4,
      Nat.mul_comm 4 (work / numThreads)]

end Ranges

/-! ## No partition -/

section Shares

variable {u U work numThreads total : Nat}

/-- The indices of a thread, whose chunks are `u` indices each. -/
def shareIndices (u work numThreads id : Nat) : List Nat :=
  let share := shareOf work numThreads id
  List.range' (u * share.1) (u32 (u * (share.1 + share.2)) - u * share.1)

theorem mem_shareIndices {id ij : Nat} : ij ∈ shareIndices u work numThreads id ↔
    u * (shareOf work numThreads id).1 ≤ ij ∧
      ij < u32 (u * ((shareOf work numThreads id).1 + (shareOf work numThreads id).2)) := by
  rw [shareIndices, List.mem_range'_1]
  omega

/-- The first index of a chunk that the thread takes. -/
theorem mem_shareIndices_chunk (hu : 0 < u) (hU : u * U = 2 ^ 32) (numThreads id c : Nat)
    (hlo : (shareOf work numThreads id).1 ≤ c)
    (hhi : c < (shareOf work numThreads id).1 + (shareOf work numThreads id).2)
    (hend : (shareOf work numThreads id).1 + (shareOf work numThreads id).2 < U) :
    u * c ∈ shareIndices u work numThreads id := by
  rw [mem_shareIndices, u32_eq (hU ▸ Nat.mul_lt_mul_of_pos_left hend hu)]
  exact ⟨Nat.mul_le_mul_left u hlo, Nat.mul_lt_mul_of_pos_left hhi hu⟩

variable (hu : 0 < u) (hU : u * U = 2 ^ 32) (hwork : work < U) (hpos : 0 < numThreads)
  (htotal : 2 ^ 32 ≤ total ∨ total = u * work)
  (hcount : ∀ ij, ((List.range numThreads).flatMap (shareIndices u work numThreads)).count ij =
    if ij < total then 1 else 0)

include hcount in
theorem index_lt {id ij : Nat} (hid : id < numThreads)
    (hin : ij ∈ shareIndices u work numThreads id) : ij < total := by
  by_contra hlt
  have hzero := hcount ij
  rw [if_neg hlt] at hzero
  exact List.count_eq_zero.mp hzero (List.mem_flatMap.mpr ⟨id, List.mem_range.mpr hid, hin⟩)

include hcount in
theorem exists_thread (ij : Nat) (hij : ij < total) :
    ∃ id < numThreads, ij ∈ shareIndices u work numThreads id := by
  have hone := hcount ij
  rw [if_pos hij] at hone
  have hmem := List.count_pos_iff.mp (Nat.lt_of_lt_of_eq Nat.zero_lt_one hone.symm)
  obtain ⟨id, hid, hin⟩ := List.mem_flatMap.mp hmem
  exact ⟨id, List.mem_range.mp hid, hin⟩

include hcount in
/-- An index is not in two threads' shares. -/
theorem thread_unique {id id' ij : Nat} (hlt : id < id') (hid' : id' < numThreads)
    (hin : ij ∈ shareIndices u work numThreads id)
    (hin' : ij ∈ shareIndices u work numThreads id') : False := by
  have hnodup : ((List.range numThreads).flatMap (shareIndices u work numThreads)).Nodup := by
    refine List.nodup_iff_count_le_one.mpr fun ij => ?_
    rw [hcount ij]
    split <;> decide
  exact nodup_flatMap_range hnodup hlt hid' hin hin'

include hu hU hwork hpos htotal hcount in
/-- The shares partition nothing, unless the one chunk too many is lost at the end of the
32-bit numbers. -/
theorem shares_never : total = u * work ∧ work + 1 = U ∧ work < numThreads := by
  -- the total fits into 32 bits, as no index is the largest of them
  obtain rfl : total = u * work := by
    rcases htotal with h | h
    · obtain ⟨id, -, hin⟩ := exists_thread hcount (2 ^ 32 - 1) (by omega)
      have hlt := (mem_shareIndices.mp hin).2
      rw [u32] at hlt
      omega
    · exact h
  refine ⟨rfl, ?_⟩
  have hrem : work % numThreads < numThreads := Nat.mod_lt _ hpos
  have hdiv : numThreads * (work / numThreads) + work % numThreads = work :=
    Nat.div_add_mod work numThreads
  have hshare := shareOf_le (Nat.le_refl (work % numThreads))
  generalize hq : work / numThreads = q at hdiv hshare
  generalize hr : work % numThreads = r at hrem hdiv hshare
  have hmul : (r + 1) * (q + 1) = r * (q + 1) + (q + 1) := Nat.succ_mul r (q + 1)
  have hmul' : r * (q + 1) = r * q + r := Nat.mul_succ r q
  rcases Nat.eq_zero_or_pos q with rfl | hqpos
  · -- every thread below the remainder has a chunk, and so has the remainder itself
    rw [Nat.mul_zero, Nat.zero_add] at hdiv
    subst hdiv
    refine ⟨?_, hrem⟩
    by_contra hne
    have hin := mem_shareIndices_chunk hu hU numThreads r r
      (by rw [hshare]; omega) (by rw [hshare]; omega) (by rw [hshare]; omega)
    exact Nat.lt_irrefl _ (index_lt hcount hrem hin)
  · rcases Nat.lt_or_ge (r + 1) numThreads with hnext | hlast
    · -- the last chunk of thread `r` is the first one of thread `r + 1`
      have hshare' : shareOf work numThreads (r + 1) = (r * q + q + r, q) := by
        rw [shareOf_gt (by rw [hr]; exact Nat.lt_succ_self r), hq, hr, Nat.succ_mul]
      have hle := Nat.mul_le_mul_right q (show r + 2 ≤ numThreads from hnext)
      rw [Nat.add_mul] at hle
      refine (thread_unique hcount (Nat.lt_succ_self r) hnext
        (mem_shareIndices_chunk hu hU numThreads r (r * (q + 1) + q) ?_ ?_ ?_)
        (mem_shareIndices_chunk hu hU numThreads (r + 1) _ ?_ ?_ ?_)).elim
      all_goals first | rw [hshare] | rw [hshare']
      all_goals dsimp only; omega
    · -- thread `r` is the last one
      obtain rfl : numThreads = r + 1 := by omega
      rw [Nat.succ_mul] at hdiv
      rcases Nat.lt_or_ge (work + 1) U with hfit | hwrap
      · have hin := mem_shareIndices_chunk hu hU (r + 1) r work
          (by rw [hshare]; dsimp only; omega) (by rw [hshare]; dsimp only; omega)
          (by rw [hshare]; dsimp only; omega)
        exact absurd (index_lt hcount hrem hin) (Nat.lt_irrefl _)
      · -- its end has wrapped, so that nobody takes the last chunk
        obtain ⟨id, hid, hin⟩ := exists_thread hcount (u * (work - 1))
          (Nat.mul_lt_mul_of_pos_left (by omega) hu)
        have hend := (mem_shareIndices.mp hin).2
        rcases Nat.lt_succ_iff_lt_or_eq.mp hid with hlt | rfl
        · have hid_le := Nat.mul_le_mul_right (q + 1) (show id + 1 ≤ r from hlt)
          rw [Nat.succ_mul] at hid_le
          rw [shareOf_le (by omega), hq] at hend
          dsimp only at hend
          have hle := Nat.mul_le_mul_left u (show id * (q + 1) + (q + 1) ≤ work - 1 by omega)
          have := Nat.mod_le (u * (id * (q + 1) + (q + 1))) (2 ^ 32)
          rw [u32] at hend
          omega
        · rw [hshare] at hend
          dsimp only at hend
          have hall : id * (q + 1) + (q + 1) = U := by omega
          rw [hall, hU, u32, Nat.mod_self] at hend
          exact absurd hend (Nat.not_lt_zero _)

end Shares

/-! ## The loops -/

section Loops

variable {A B : Nat → Int32} {M N P id numThreads x : Nat} {s : MatmulState}

/-- The kernel is at index `x` of `C`, and what it has written are elements of the product. -/
def MatmulState.At (A B : Nat → Int32) (N P x : Nat) (s : MatmulState) : Prop :=
  s.i = x / P ∧ s.j = x % P ∧
    ∀ w ∈ s.writes, w = (w.1, matMulElem A B N P (w.1 / P) (w.1 % P))

theorem matMulUnrolledElem_eq (i j d : Nat) :
    matMulUnrolledElem A B N P i j d = matMulElem A B N P i (j + d) := by
  rw [matMulUnrolledElem, matMulElem]
  simp only [u32, Nat.mod_add_mod, Nat.add_assoc]

/-- The row and the column of an index. -/
theorem index_div_mod {i j : Nat} (hj : j < P) : (P * i + j) / P = i ∧ (P * i + j) % P = j :=
  (Nat.div_mod_unique (Nat.zero_lt_of_lt hj)).mpr ⟨Nat.add_comm j (P * i), hj⟩

theorem index_next {i j d : Nat} (hj : j < P) (hd : j + d ≤ P) :
    (P * i + j + d) / P = (if j + d = P then i + 1 else i) ∧
      (P * i + j + d) % P = (if j + d = P then 0 else j + d) := by
  rcases Nat.lt_or_eq_of_le hd with hlt | heq
  · rw [if_neg hlt.ne, if_neg hlt.ne, Nat.add_assoc]
    exact index_div_mod hlt
  · rw [if_pos heq, if_pos heq, Nat.add_assoc, heq]
    exact index_div_mod (i := i + 1) (Nat.zero_lt_of_lt hj)

theorem MatmulState.At.unrolled (hP : 0 < P) (hP32 : P < 2 ^ 32) (hdvd : 4 ∣ P) (hxdvd : 4 ∣ x)
    (hx : x + 4 < 2 ^ 32) (h : s.At A B N P x) :
    (unrolledFinegrainedBody A B N P x s).At A B N P (x + 4) := by
  obtain ⟨hi, hj, hw⟩ := h
  have hjlt : s.j < P := hj ▸ Nat.mod_lt x hP
  have hsplit : x = P * s.i + s.j := by rw [hi, hj, Nat.div_add_mod]
  have hilt : s.i ≤ x := hi ▸ Nat.div_le_self x P
  have hjdvd : 4 ∣ s.j := hj ▸ (Nat.dvd_mod_iff hdvd).mpr hxdvd
  have hjle : s.j + 4 ≤ P := by omega
  obtain ⟨hi', hj'⟩ := index_next (i := s.i) hjlt hjle
  rw [← hsplit] at hi' hj'
  have hwrites : ∀ w ∈ s.writes ++
      (List.range 4).map (fun d => (u32 (x + d), matMulUnrolledElem A B N P s.i s.j d)),
      w = (w.1, matMulElem A B N P (w.1 / P) (w.1 % P)) := by
    intro w hin
    rcases List.mem_append.mp hin with hin | hin
    · exact hw w hin
    · obtain ⟨d, hd, rfl⟩ := List.mem_map.mp hin
      have hd := List.mem_range.mp hd
      have hin' := index_div_mod (i := s.i) (show s.j + d < P by omega)
      rw [← Nat.add_assoc, ← hsplit] at hin'
      rw [u32_eq (by omega), matMulUnrolledElem_eq, hin'.1, hin'.2]
  have hend : s.j = sub32 P 4 ↔ s.j + 4 = P := by
    rw [sub32_eq (by omega) hP32]
    omega
  unfold unrolledFinegrainedBody MatmulState.At
  simp only [hend]
  rw [u32_eq (by omega), u32_eq (show s.j + 4 < 2 ^ 32 by omega), hi', hj']
  split <;> exact ⟨rfl, rfl, hwrites⟩

theorem finegrained_ends (A B : Nat → Int32) (N : Nat) (hid : id < numThreads) :
    ∃ s, Ends (matMulParallelFinegrained A B M N P id numThreads) s ∧
      s.writes.map Prod.fst = shareIndices 1 (u32 (M * P)) numThreads id := by
  unfold matMulParallelFinegrained shareIndices
  rw [finegrainedRange_eq hid]
  dsimp only
  rw [Nat.one_mul, Nat.one_mul]
  generalize hstart : (shareOf (u32 (M * P)) numThreads id).1 = start
  generalize hend : u32 (start + _) = end_
  have hlt : end_ < 2 ^ 32 := hend ▸ Nat.mod_lt _ (by decide)
  rcases Nat.lt_or_ge start end_ with h | h
  · refine ⟨_, ⟨end_ - start, fun fuel hfuel => forLoop_add (n := end_ - start)
      (fun k hk => by omega) (by omega) (by omega) hfuel⟩, ?_⟩
    have hfst : ∀ k s, (finegrainedBody A B N P (start + k * 1) s).writes.map Prod.fst =
        s.writes.map Prod.fst ++ [start + k * 1] := by
      intro k s
      unfold finegrainedBody
      split <;> exact List.map_append
    rw [foldl_appends (fun s : MatmulState => s.writes.map Prod.fst) (fun k => [start + k * 1])
      hfst, List.map_nil, List.nil_append, ← List.map_eq_flatMap, List.range'_eq_map_range]
    simp only [Nat.mul_one]
  · refine ⟨_, ⟨0, fun fuel _ => forLoop_done (decide_eq_false (by omega))⟩, ?_⟩
    rw [Nat.sub_eq_zero_of_le h]
    rfl

theorem unrolledFinegrained_ends (A B : Nat → Int32) (N : Nat) (hP : P < 2 ^ 32) (hdvd : 4 ∣ P)
    (hid : id < numThreads) :
    ∃ s, Ends (matMulUnrolledParallelFinegrained A B M N P id numThreads) s ∧
      s.writes.map Prod.fst = shareIndices 4 (u32 (M * P) / 4) numThreads id ∧
      (0 < P → ∀ w ∈ s.writes, w = (w.1, matMulElem A B N P (w.1 / P) (w.1 % P))) := by
  unfold matMulUnrolledParallelFinegrained shareIndices
  rw [unrolledFinegrainedRange_eq hid]
  dsimp only
  generalize (shareOf (u32 (M * P) / 4) numThreads id).1 = start
  generalize (shareOf (u32 (M * P) / 4) numThreads id).2 = chunks
  obtain ⟨end_, hend⟩ : ∃ end_, u32 (4 * (start + chunks)) = 4 * end_ :=
    (Nat.dvd_mod_iff (by decide)).mpr (Nat.dvd_mul_right 4 _)
  have hlt : u32 (4 * (start + chunks)) < 2 ^ 32 := Nat.mod_lt _ (by decide)
  rw [hend] at hlt ⊢
  rcases Nat.lt_or_ge start end_ with h | h
  · refine ⟨_, ⟨end_ - start, fun fuel hfuel => forLoop_add (n := end_ - start)
      (fun k hk => by omega) (by omega) (by omega) hfuel⟩, ?_, fun hpos => ?_⟩
    · have hfst : ∀ k s,
          (unrolledFinegrainedBody A B N P (4 * start + k * 4) s).writes.map Prod.fst =
            s.writes.map Prod.fst ++ (List.range 4).map fun d => u32 (4 * start + k * 4 + d) := by
        intro k s
        unfold unrolledFinegrainedBody
        split <;> exact List.map_append
      have hfour : ∀ k ∈ List.range (end_ - start),
          ((List.range 4).map fun d => u32 (4 * start + k * 4 + d)) =
            List.range' (4 * start + k * 4) 4 := by
        intro k hk
        have hk := List.mem_range.mp hk
        rw [List.range'_eq_map_range]
        refine List.map_congr_left fun d hd => u32_eq ?_
        have := List.mem_range.mp hd
        omega
      rw [foldl_appends (fun s : MatmulState => s.writes.map Prod.fst) _ hfst,
        List.flatMap_congr hfour, flatMap_fours, List.map_nil, List.nil_append, Nat.sub_mul,
        Nat.mul_comm end_, Nat.mul_comm start]
    · have hat := foldl_range_inv (n := end_ - start)
        (fun k s => MatmulState.At A B N P (4 * start + k * 4) s)
        (s := ⟨4 * start / P, 4 * start % P, []⟩)
        ⟨by rw [Nat.zero_mul, Nat.add_zero], by rw [Nat.zero_mul, Nat.add_zero],
          fun w hw => absurd hw List.not_mem_nil⟩
        (fun k s hk h => by
          have hnext := h.unrolled hpos hP hdvd (by omega) (by omega)
          rw [Nat.add_assoc, ← Nat.succ_mul] at hnext
          exact hnext)
      exact hat.2.2
  · refine ⟨_, ⟨0, fun fuel _ => forLoop_done (decide_eq_false (by omega))⟩, ?_,
      fun _ w hw => absurd hw List.not_mem_nil⟩
    rw [Nat.sub_eq_zero_of_le (by omega)]
    rfl

theorem matMulParallel_ends (A B : Nat → Int32) (N P : Nat) (hM : M < 2 ^ 32) :
    Ends (matMulParallel A B M N P 0 1) ((List.range M).flatMap (matMulRow A B N P)) := by
  refine ⟨M, fun fuel hfuel => ?_⟩
  refine (forLoop_add (n := M) (fun k hk => by omega) (by omega) (by omega) hfuel).trans ?_
  rw [foldl_appends (fun c : List (Nat × Int32) => c) (fun k => matMulRow A B N P (0 + k * 1))
    fun k c => rfl, List.nil_append]
  simp only [Nat.mul_one, Nat.zero_add]

theorem mem_matMulParallel (hx : x < M * P) (hlt : x < 2 ^ 32) :
    (x, matMulElem A B N P (x / P) (x % P)) ∈ (List.range M).flatMap (matMulRow A B N P) := by
  have hP : 0 < P := Nat.pos_of_mul_pos_left (Nat.zero_lt_of_lt hx)
  have hrow : x / P < M := Nat.div_lt_of_lt_mul (Nat.mul_comm M P ▸ hx)
  refine List.mem_flatMap.mpr ⟨x / P, List.mem_range.mpr hrow, List.mem_map.mpr
    ⟨x % P, List.mem_range.mpr (Nat.mod_lt x hP), ?_⟩⟩
  rw [u32, u32, Nat.mod_add_mod, Nat.div_add_mod', Nat.mod_eq_of_lt hlt]

end Loops

/-! ## The kernels -/

section Kernels

variable {M N P numThreads : Nat}

theorem flatMap_indices {f : Nat → List Nat} {s s' : Nat → MatmulState}
    {kernel : Nat → Nat → Option MatmulState}
    (hends : ∀ id < numThreads, Ends (kernel id) (s id))
    (hends' : ∀ id < numThreads, Ends (kernel id) (s' id))
    (hfst : ∀ id < numThreads, (s' id).writes.map Prod.fst = f id) :
    ((List.range numThreads).flatMap fun id => (s id).writes.map Prod.fst) =
      (List.range numThreads).flatMap f := by
  refine List.flatMap_congr fun id hid => ?_
  have hid := List.mem_range.mp hid
  rw [(hends id hid).unique (hends' id hid), hfst id hid]

/-- With the last chunk lost, and at least as many threads as chunks, every thread has the
chunk of its own id. -/
theorem flatMap_lost_chunk (hT : 2 ^ 30 ≤ numThreads) :
    (List.range numThreads).flatMap (shareIndices 4 (2 ^ 30 - 1) numThreads) =
      List.range (2 ^ 32 - 4) := by
  have hmod : (2 ^ 30 - 1) % numThreads = 2 ^ 30 - 1 := Nat.mod_eq_of_lt (by omega)
  have hdiv : (2 ^ 30 - 1) / numThreads = 0 := Nat.div_eq_of_lt (by omega)
  have hown : ∀ id ∈ List.range (2 ^ 30 - 1),
      shareIndices 4 (2 ^ 30 - 1) numThreads id = List.range' (id * 4) 4 := by
    intro id hid
    have hid := List.mem_range.mp hid
    rw [shareIndices, shareOf_le (by omega), hdiv]
    dsimp only
    rw [u32_eq (by omega), Nat.zero_add, Nat.mul_one, Nat.mul_comm id]
    congr 1
    omega
  have hnone : ∀ d ∈ List.range (numThreads - (2 ^ 30 - 1)),
      shareIndices 4 (2 ^ 30 - 1) numThreads (2 ^ 30 - 1 + d) = [] := by
    intro d _
    rw [shareIndices]
    rcases Nat.eq_zero_or_pos d with rfl | hd
    · rw [shareOf_le (by omega), hdiv]
      rfl
    · rw [shareOf_gt (by omega), hdiv, hmod]
      dsimp only
      rw [Nat.mul_zero, Nat.zero_add, Nat.add_zero, u32_eq (by omega), Nat.sub_self]
      rfl
  obtain ⟨d, rfl⟩ : ∃ d, numThreads = 2 ^ 30 - 1 + d := ⟨numThreads - (2 ^ 30 - 1), by omega⟩
  rw [Nat.add_sub_cancel_left] at hnone
  rw [show 2 ^ 32 - 4 = (2 ^ 30 - 1) * 4 from rfl, List.range_add, List.flatMap_append,
    List.flatMap_congr hown, flatMap_slices, List.flatMap_map,
    List.flatMap_eq_nil_iff.mpr hnone, List.append_nil]

/-- The fine-grained kernel is never exact. The unrolled one is if its share of one chunk
too many wraps around at the end of the 32-bit numbers. -/
theorem mat_mul_finegrained_exact_iff (A B : Nat → Int32) (N : Nat) (hM : M < 2 ^ 32)
    (hP : P < 2 ^ 32) (hpos : 0 < numThreads) (hT : numThreads < 2 ^ 32) :
    ¬ FinegrainedExact A B M N P numThreads
        (fun id => matMulParallelFinegrained A B M N P id numThreads) ∧
      (4 ∣ P → (FinegrainedExact A B M N P numThreads
          (fun id => matMulUnrolledParallelFinegrained A B M N P id numThreads) ↔
        M * P = 2 ^ 32 - 4 ∧ 2 ^ 30 ≤ numThreads)) := by
  constructor
  · rintro ⟨s, hends, hcount, -⟩
    choose! s' hends' hfst using fun id (hid : id < numThreads) =>
      finegrained_ends (M := M) (P := P) A B N hid
    rw [flatMap_indices hends hends' hfst] at hcount
    have htotal : 2 ^ 32 ≤ M * P ∨ M * P = 1 * u32 (M * P) := by
      rcases Nat.lt_or_ge (M * P) (2 ^ 32) with h | h
      · rw [u32_eq h, Nat.one_mul]
        exact Or.inr rfl
      · exact Or.inl h
    obtain ⟨-, hwork, hlt⟩ := shares_never Nat.one_pos (Nat.one_mul (2 ^ 32))
      (Nat.mod_lt _ (by decide)) hpos htotal hcount
    omega
  · intro hdvd
    choose! s' hends' hfst hvalues using fun id (hid : id < numThreads) =>
      unrolledFinegrained_ends (M := M) A B N hP hdvd hid
    constructor
    · rintro ⟨s, hends, hcount, -⟩
      rw [flatMap_indices hends hends' hfst] at hcount
      have htotal : 2 ^ 32 ≤ M * P ∨ M * P = 4 * (u32 (M * P) / 4) := by
        rcases Nat.lt_or_ge (M * P) (2 ^ 32) with h | h
        · rw [u32_eq h, Nat.mul_div_cancel' (Dvd.dvd.mul_left hdvd M)]
          exact Or.inr rfl
        · exact Or.inl h
      have hwork : u32 (M * P) / 4 < 2 ^ 30 := by
        have : u32 (M * P) < 2 ^ 32 := Nat.mod_lt _ (by decide)
        omega
      obtain ⟨heq, hlast, hlt⟩ := shares_never (by decide) (by decide) hwork hpos htotal hcount
      omega
    · rintro ⟨htotal, hmany⟩
      have hposP : 0 < P := Nat.pos_of_mul_pos_left (a := M) (by omega)
      have hwork : u32 (M * P) / 4 = 2 ^ 30 - 1 := by rw [htotal]; decide
      rw [hwork] at hfst
      refine ⟨s', hends', fun ij => ?_, _, matMulParallel_ends A B N P hM, ?_⟩
      · rw [flatMap_indices hends' hends' hfst, flatMap_lost_chunk hmany, List.nodup_range.count,
          htotal]
        simp only [List.mem_range]
      · intro id hid w hw
        have hin : w.1 ∈ List.range (2 ^ 32 - 4) := by
          rw [← flatMap_lost_chunk hmany]
          refine List.mem_flatMap.mpr ⟨id, List.mem_range.mpr hid, ?_⟩
          rw [← hfst id hid]
          exact List.mem_map_of_mem hw
        have hlt := List.mem_range.mp hin
        rw [hvalues id hid hposP w hw]
        exact mem_matMulParallel (by omega) (by omega)

/-- A product of 2 by 4 elements on 3 threads. -/
theorem mat_mul_finegrained_three_threads :
    ¬ FinegrainedExact (fun _ => 1) (fun _ => 1) 2 1 4 3
        (fun id => matMulParallelFinegrained (fun _ => 1) (fun _ => 1) 2 1 4 id 3) ∧
      ¬ FinegrainedExact (fun _ => 1) (fun _ => 1) 2 1 4 3
        (fun id => matMulUnrolledParallelFinegrained (fun _ => 1) (fun _ => 1) 2 1 4 id 3) := by
  have h := mat_mul_finegrained_exact_iff (M := 2) (P := 4) (fun _ => 1) (fun _ => 1) 1 (by decide)
    (by decide) (show 0 < 3 by decide) (by decide)
  exact ⟨h.1, fun hexact => absurd ((h.2 (by decide)).mp hexact) (by decide)⟩

/-- Of two by two elements on three threads, the last two write the last one. -/
theorem mat_mul_finegrained_overlap :
    ¬ FinegrainedExact (fun _ => 1) (fun _ => 1) 2 1 2 3
      (fun id => matMulParallelFinegrained (fun _ => 1) (fun _ => 1) 2 1 2 id 3) := by
  rintro ⟨s, hends, hcount, -⟩
  choose! s' hends' hfst using fun id (hid : id < 3) =>
    finegrained_ends (M := 2) (P := 2) (fun _ => 1) (fun _ => 1) 1 hid
  rw [flatMap_indices hends hends' hfst] at hcount
  exact absurd (hcount 3) (by decide)

end Kernels

end TeraNoC.Kernels
