import Mathlib.Algebra.BigOperators.Group.Finset.Basic
import TeraNoC.Kernels.MatmulTiled

/-!
# Matrix multiplication in tiles of two by two (`kernels/baremetal/mempool_matmul_i8p.h`,
`mempool_matmul_i16p.h` and `mempool_matmul_i32p.h`)

What one thread writes to `C`, in order: the index and the value. The pointers of the version
with post-increments are byte offsets from the start of their array.
-/

namespace TeraNoC.Kernels

open TeraNoC.Lib TeraNoC.Runtime

/-- The value of a signed integer of `w` bits in a register. -/
def extend {w : Nat} (x : BitVec w) : Int32 := x.signExtend 32

section Unrolled

variable {w : Nat} (A B : Nat → BitVec w) (N P : Nat)

/-- `c00` to `c11`, after the loop over `k`. -/
def matmul2x2Elem (i j x y : Nat) : Int32 :=
  ((List.range (turns 0 N 2)).map (2 * ·)).foldl (fun c k =>
    let c := c + extend (A (u32 ((i + x) * N + k + 0))) * extend (B (u32 ((k + 0) * P + j + y)))
    c + extend (A (u32 ((i + x) * N + k + 1))) * extend (B (u32 ((k + 1) * P + j + y)))) 0

/-- The body of the loop over `j`. -/
def matmul2x2Stores (i j : Nat) : List (Nat × Int32) :=
  (List.range 2).flatMap fun x => (List.range 2).map fun y =>
    (u32 ((i + x) * P + j + y), matmul2x2Elem A B N P i j x y)

end Unrolled

section Loops

variable (M P id numThreads fuel : Nat)

/-- The loops over `i` and `j`: every thread has one of `c` slices of the columns. -/
def matmul2x2Loops (stores : Nat → Nat → List (Nat × Int32)) : Option (List (Nat × Int32)) := do
  let c := 8
  let cStart := u32 (P / c * (id % c))
  let cEnd := u32 (P / c * (id % c + 1))
  let writes ← forLoop (fun i => i < M) (fun i => u32 (i + u32 (2 * (numThreads / c))))
    (fun i writes => writes.bind (forLoop (fun j => j < cEnd) (fun j => u32 (j + 2))
      (fun j writes => writes ++ stores i j) fuel cStart)) fuel (u32 (2 * (id / c))) (some [])
  writes

end Loops

def matmulUnrolled2x2ParallelI8Rv32im (A B : Nat → BitVec 8) (M N P id numThreads fuel : Nat) :
    Option (List (Nat × Int32)) :=
  matmul2x2Loops M P id numThreads fuel (matmul2x2Stores A B N P)

def matmulUnrolled2x2ParallelI16Rv32im (A B : Nat → BitVec 16) (M N P id numThreads fuel : Nat) :
    Option (List (Nat × Int32)) :=
  matmul2x2Loops M P id numThreads fuel (matmul2x2Stores A B N P)

def matmulUnrolled2x2ParallelI32Rv32im (A B : Nat → BitVec 32) (M N P id numThreads fuel : Nat) :
    Option (List (Nat × Int32)) :=
  matmul2x2Loops M P id numThreads fuel (matmul2x2Stores A B N P)

/-- `p.lw` on the elements of an array: the loaded value and the pointer after it. -/
def postLoad {w : Nat} (size : Nat) (X : Nat → BitVec w) (addr incr : Nat) : BitVec w × Nat :=
  (X (addr / size), u32 (addr + incr))

/-- `p.sw` -/
def postStore (addr incr : Nat) (value : Int32) : (Nat × Int32) × Nat :=
  ((addr / 4, value), u32 (addr + incr))

section Xpulpv2

variable (A B : Nat → Int32) (M N P id numThreads fuel : Nat)

/-- The loads of one turn of the loop over `k`: `val_a00` to `val_a11`,
or `val_b00` to `val_b11`. -/
def postLoads2x2 (X : Nat → Int32) (incr addr : Nat) : Int32 × Int32 × Int32 × Int32 :=
  let (v00, addr) := postLoad 4 X addr 4
  let (v01, addr) := postLoad 4 X addr incr
  let (v10, addr) := postLoad 4 X addr 4
  let (v11, _) := postLoad 4 X addr 0
  (v00, v01, v10, v11)

/-- `c00`, `c01`, `c10` and `c11`, after the loop over `k`. -/
def xpulpv2Sums (i j : Nat) : Int32 × Int32 × Int32 × Int32 :=
  let aIncr := sub32 (u32 (N * 4)) 4
  let bIncr := sub32 (u32 (P * 4)) 4
  ((List.range (turns 0 N 2)).map (2 * ·)).foldl (fun (c00, c01, c10, c11) k =>
    let (a00, a01, a10, a11) := postLoads2x2 A aIncr (u32 (4 * u32 (i * N + k)))
    let (b00, b01, b10, b11) := postLoads2x2 B bIncr (u32 (4 * u32 (k * P + j)))
    (c00 + a00 * b00 + a01 * b10, c01 + a00 * b01 + a01 * b11,
      c10 + a10 * b00 + a11 * b10, c11 + a10 * b01 + a11 * b11)) (0, 0, 0, 0)

def xpulpv2Stores (i j : Nat) : List (Nat × Int32) :=
  let bIncr := sub32 (u32 (P * 4)) 4
  let (c00, c01, c10, c11) := xpulpv2Sums A B N P i j
  let (w00, addr) := postStore (u32 (4 * u32 (i * P + j))) 4 c00
  let (w01, addr) := postStore addr bIncr c01
  let (w10, addr) := postStore addr 4 c10
  let (w11, _) := postStore addr 0 c11
  [w00, w01, w10, w11]

def matmulUnrolled2x2ParallelI32Xpulpv2 : Option (List (Nat × Int32)) :=
  matmul2x2Loops M P id numThreads fuel (xpulpv2Stores A B N P)

end Xpulpv2

/-- An element of the product of two matrices. -/
def matProduct {w : Nat} (A B : Nat → BitVec w) (N P i j : Nat) : Int32 :=
  ∑ k ∈ Finset.range N, extend (A (i * N + k)) * extend (B (k * P + j))

/-- What a kernel does on all threads: every thread returns, and together they write every
element of `C` once and nothing else, with the product of the matrices. -/
def ProductExact {w : Nat} (A B : Nat → BitVec w) (M N P numThreads : Nat)
    (kernel : Nat → Nat → Option (List (Nat × Int32))) : Prop :=
  ∃ writes : Nat → List (Nat × Int32), (∀ id < numThreads, Ends (kernel id) (writes id)) ∧
    ((List.range numThreads).flatMap writes).Perm
      ((List.range (M * P)).map fun ij => (ij, matProduct A B N P (ij / P) (ij % P)))

end TeraNoC.Kernels
