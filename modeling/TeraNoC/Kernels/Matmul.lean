import TeraNoC.Kernels.Dotp

/-!
# Matrix multiplication (`kernels/baremetal/mempool_matmul_i32p.h`)

What one thread writes to `C`, in order: the index and the value.
-/

namespace TeraNoC.Kernels

open TeraNoC.Lib TeraNoC.Runtime

section Matmul

variable (A B : Nat → Int32) (M N P id numThreads fuel : Nat)

/-- `c` after the loop over `k`. -/
def matMulElem (i j : Nat) : Int32 :=
  (List.range N).foldl (fun c k => c + A (u32 (u32 (i * N) + k)) * B (u32 (u32 (k * P) + j))) 0

/-- `c0` to `c3` of the unrolled loop over `k`. -/
def matMulUnrolledElem (i j d : Nat) : Int32 :=
  (List.range N).foldl
    (fun c k => c + A (u32 (u32 (i * N) + k)) * B (u32 (u32 (u32 (k * P) + j) + d))) 0

/-- The loop over `j` of `mat_mul_parallel`. -/
def matMulRow (i : Nat) : List (Nat × Int32) :=
  (List.range P).map fun j => (u32 (u32 (i * P) + j), matMulElem A B N P i j)

/-- `mat_mul_parallel`. -/
def matMulParallel : Option (List (Nat × Int32)) :=
  forLoop (fun i => i < M) (fun i => u32 (i + numThreads))
    (fun i writes => writes ++ matMulRow A B N P i) fuel id []

/-- `start` and `end` of `mat_mul_parallel_finegrained`. -/
def finegrainedRange : Nat × Nat :=
  let chunks := u32 (M * P) / numThreads
  let chunksLeft := sub32 (u32 (M * P)) (u32 (chunks * numThreads))
  if chunksLeft < id then
    let start := u32 (u32 (id * chunks) + chunksLeft)
    (start, u32 (start + chunks))
  else
    let chunks := u32 (chunks + 1)
    let start := u32 (id * chunks)
    (start, u32 (start + chunks))

/-- `start` and `end` of `mat_mul_unrolled_parallel_finegrained`. -/
def unrolledFinegrainedRange : Nat × Nat :=
  let workload := u32 (M * P) / 4
  let chunks := workload / numThreads
  let chunksLeft := sub32 workload (u32 (numThreads * chunks))
  let chunks := u32 (chunks * 4)
  if chunksLeft < id then
    let start := u32 (u32 (id * chunks) + u32 (chunksLeft * 4))
    (start, u32 (start + chunks))
  else
    let chunks := u32 (chunks + 4)
    let start := u32 (id * chunks)
    (start, u32 (start + chunks))

structure MatmulState where
  i : Nat
  j : Nat
  writes : List (Nat × Int32) := []
  deriving Inhabited

/-- The loop body of `mat_mul_parallel_finegrained`. -/
def finegrainedBody (ij : Nat) (s : MatmulState) : MatmulState :=
  let writes := s.writes ++ [(ij, matMulElem A B N P s.i s.j)]
  if u32 (s.j + 1) = P then ⟨u32 (s.i + 1), 0, writes⟩ else ⟨s.i, u32 (s.j + 1), writes⟩

/-- The loop body of `mat_mul_unrolled_parallel_finegrained`. -/
def unrolledFinegrainedBody (ij : Nat) (s : MatmulState) : MatmulState :=
  let writes := s.writes ++
    (List.range 4).map fun d => (u32 (ij + d), matMulUnrolledElem A B N P s.i s.j d)
  if s.j = sub32 P 4 then ⟨u32 (s.i + 1), 0, writes⟩ else ⟨s.i, u32 (s.j + 4), writes⟩

/-- `mat_mul_parallel_finegrained`. -/
def matMulParallelFinegrained : Option MatmulState :=
  let range := finegrainedRange M P id numThreads
  forLoop (fun ij => ij < range.2) (fun ij => u32 (ij + 1)) (finegrainedBody A B N P) fuel range.1
    ⟨range.1 / P, range.1 % P, []⟩

/-- `mat_mul_unrolled_parallel_finegrained`. -/
def matMulUnrolledParallelFinegrained : Option MatmulState :=
  let range := unrolledFinegrainedRange M P id numThreads
  forLoop (fun ij => ij < range.2) (fun ij => u32 (ij + 4)) (unrolledFinegrainedBody A B N P) fuel
    range.1 ⟨range.1 / P, range.1 % P, []⟩

end Matmul

/-- What a fine-grained kernel does on all threads: every thread returns, together they
write every index of `C` once and no other, and every value is one that `mat_mul_parallel`
writes there, run by a single thread. -/
def FinegrainedExact (A B : Nat → Int32) (M N P numThreads : Nat)
    (kernel : Nat → Nat → Option MatmulState) : Prop :=
  ∃ s : Nat → MatmulState, (∀ id < numThreads, Ends (kernel id) (s id)) ∧
    (∀ ij, ((List.range numThreads).flatMap fun id => (s id).writes.map Prod.fst).count ij =
      if ij < M * P then 1 else 0) ∧
    ∃ c, Ends (matMulParallel A B M N P 0 1) c ∧ ∀ id < numThreads, ∀ w ∈ (s id).writes, w ∈ c

end TeraNoC.Kernels
