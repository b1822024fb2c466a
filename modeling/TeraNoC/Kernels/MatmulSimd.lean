import TeraNoC.Kernels.Cmatmul
import TeraNoC.Kernels.MatmulUnrolled

/-!
# Matrix multiplication with vector instructions (`kernels/baremetal/mempool_matmul_i16p.h` and
`mempool_matmul_i8p.h`)

The versions with intrinsics and with post-increments. A load of a vector is recorded with the
index of its first element. The pointers of the versions with post-increments are byte offsets
from the start of their array.
-/

namespace TeraNoC.Kernels

open TeraNoC.Lib TeraNoC.Runtime

/-! ## Vectors of four bytes -/

abbrev V4s := BitVec 32

def byteLane (x : V4s) (i : Nat) : BitVec 8 := x.extractLsb' (8 * i) 8

/-- `__SUMDOTP4` -/
def sumdotp4 (x y : V4s) (z : Int32) : Int32 :=
  (List.range 4).foldl (fun acc i => acc + extend (byteLane x i) * extend (byteLane y i)) z

/-- `__builtin_shuffle` of two halfwords. -/
def shuffleV2s (x y : V2s) (mask : Nat → Nat) : V2s :=
  let pick (i : Nat) := if mask i < 2 then lane x (mask i) else lane y (mask i - 2)
  pick 1 ++ pick 0

/-- `__builtin_shuffle` of four bytes. -/
def shuffleV4s (x y : V4s) (mask : Nat → Nat) : V4s :=
  let pick (i : Nat) := if mask i < 4 then byteLane x (mask i) else byteLane y (mask i - 4)
  pick 3 ++ pick 2 ++ pick 1 ++ pick 0

def loadV2s (X : Nat → BitVec 16) (index : Nat) : V2s := X (index + 1) ++ X index

def loadV4s (X : Nat → BitVec 8) (index : Nat) : V4s :=
  X (index + 3) ++ X (index + 2) ++ X (index + 1) ++ X index

/-! ## The turn of the innermost loop

`aVec` and `temp` are the vectors loaded from `A` and `B`, and `sums x y` is `sum00`, `sum01`, … -/

/-- A vector of natural numbers. -/
def maskOf (mask : List Nat) (i : Nat) : Nat := mask.getD i 0

def i16Mac (aVec bTemp : Nat → V2s) (sums : Nat → Nat → Int32) : Nat → Nat → Int32 :=
  let bVec0 := shuffleV2s (bTemp 0) (bTemp 1) (maskOf [0, 2])
  let bVec1 := shuffleV2s (bTemp 0) (bTemp 1) (maskOf [1, 3])
  fun x y => sumdotspH (aVec x) (if y = 0 then bVec0 else bVec1) (sums x y)

def i8Mac (aVec temp : Nat → V4s) (sums : Nat → Nat → Int32) : Nat → Nat → Int32 :=
  let mask0 := maskOf [0, 1, 4, 5]
  let mask1 := maskOf [2, 3, 6, 7]
  let mask2 := maskOf [0, 2, 4, 6]
  let mask3 := maskOf [1, 3, 5, 7]
  let temp4 := shuffleV4s (temp 0) (temp 1) mask0
  let temp5 := shuffleV4s (temp 2) (temp 3) mask0
  let temp6 := shuffleV4s (temp 0) (temp 1) mask1
  let temp7 := shuffleV4s (temp 2) (temp 3) mask1
  let bVec0 := shuffleV4s temp4 temp5 mask2
  let bVec1 := shuffleV4s temp4 temp5 mask3
  let bVec2 := shuffleV4s temp6 temp7 mask2
  let bVec3 := shuffleV4s temp6 temp7 mask3
  fun x y => sumdotp4 (aVec x)
    (match y with | 0 => bVec0 | 1 => bVec1 | 2 => bVec2 | _ => bVec3) (sums x y)

/-- What the kernels of one width have in common: `rows` by `cols` elements of `C` in a tile,
vectors of `cols` elements of `size` bytes. -/
structure SimdWidth (w : Nat) where
  rows : Nat
  cols : Nat
  size : Nat
  load : (Nat → BitVec w) → Nat → BitVec 32
  mac : (Nat → BitVec 32) → (Nat → BitVec 32) → (Nat → Nat → Int32) → Nat → Nat → Int32

def i16Width : SimdWidth 16 := ⟨4, 2, 2, loadV2s, i16Mac⟩

def i8Width : SimdWidth 8 := ⟨2, 4, 1, loadV4s, i8Mac⟩

/-! ## Intrinsics -/

section Intrinsics

variable {w : Nat} (simd : SimdWidth w) (A B : Nat → BitVec w) (M N P coreId numThreads fuel : Nat)

/-- `aVec0`, … -/
def aIndex (i j x : Nat) : Nat := u32 ((i * simd.rows + x) * N + j * simd.cols)

/-- `bTemp0`, … -/
def bIndex (j k z : Nat) : Nat := u32 ((j * simd.cols + z) * P + k * simd.cols)

/-- The sums after the loop over `j`. -/
def simdSums (i k : Nat) : Nat → Nat → Int32 :=
  (List.range (N / simd.cols)).foldl (fun sums j =>
    simd.mac (fun x => simd.load A (aIndex simd N i j x))
      (fun z => simd.load B (bIndex simd P j k z)) sums) fun _ _ => 0

/-- The body of the loop over `i`. -/
def simdTile (i k : Nat) (t : TileTrace) : TileTrace where
  writes := t.writes ++ (List.range simd.rows).flatMap fun x => (List.range simd.cols).map fun y =>
    (u32 ((i * simd.rows + x) * P + (k * simd.cols + y)), simdSums simd A B N P i k x y)
  loadsA := t.loadsA ++ (List.range (N / simd.cols)).flatMap fun j =>
    (List.range simd.rows).map fun x => aIndex simd N i j x
  loadsB := t.loadsB ++ (List.range (N / simd.cols)).flatMap fun j =>
    (List.range simd.cols).map fun z => bIndex simd P j k z

def simdKernel : Option TileTrace :=
  forLoop (fun k => k < P / simd.cols) (fun k => u32 (k + numThreads))
    (fun k t => (List.range (M / simd.rows)).foldl (fun t i => simdTile simd A B N P i k t) t) fuel
    coreId {}

end Intrinsics

def matmulUnrolled4x2ParallelI16Xpulpv2 (A B : Nat → BitVec 16)
    (M N P coreId numThreads fuel : Nat) :
    Option TileTrace := simdKernel i16Width A B M N P coreId numThreads fuel

def matmulUnrolled2x4ParallelI8Xpulpv2 (A B : Nat → BitVec 8) (M N P coreId numThreads fuel : Nat) :
    Option TileTrace := simdKernel i8Width A B M N P coreId numThreads fuel

/-! ## Post-increments -/

/-- The addresses of accesses with the increments `incrs`, and the pointer after them. -/
def postAddrs (addr : Nat) : List Nat → List Nat × Nat
  | [] => ([], addr)
  | incr :: incrs =>
      let rest := postAddrs (u32 (addr + incr)) incrs
      (addr :: rest.1, rest.2)

structure PincrSums where
  idxA : Nat
  idxB : Nat
  sums : Nat → Nat → Int32 := fun _ _ => 0
  loadsA : List Nat := []
  loadsB : List Nat := []

structure PincrState where
  idxA : Nat
  idxC : Nat
  trace : TileTrace

section Pincr

variable {w : Nat} (simd : SimdWidth w) (A B : Nat → BitVec w) (M N P coreId numThreads fuel : Nat)

/-- `while (idx_a < end_a)` -/
def pincrTurn (s : PincrSums) : PincrSums :=
  let aIncr := u32 (N * simd.size)
  let aDecr := sub32 4 (u32 (N * (simd.rows - 1) * simd.size))
  let bIncr := u32 (P * simd.size)
  let a := postAddrs s.idxA (List.replicate (simd.rows - 1) aIncr ++ [aDecr])
  let b := postAddrs s.idxB (List.replicate simd.cols bIncr)
  let indexA (x : Nat) := a.1.getD x 0 / simd.size
  let indexB (z : Nat) := b.1.getD z 0 / simd.size
  { idxA := a.2, idxB := b.2,
    sums := simd.mac (fun x => simd.load A (indexA x)) (fun z => simd.load B (indexB z)) s.sums,
    loadsA := s.loadsA ++ (List.range simd.rows).map indexA,
    loadsB := s.loadsB ++ (List.range simd.cols).map indexB }

/-- `while (idx_c < end_c)` -/
def pincrTile (k : Nat) (s : PincrState) : Option PincrState := do
  let endA := u32 (s.idxA + u32 (N * simd.size))
  let idxB := u32 (k * simd.cols * simd.size)
  let r ← whileLoop (fun r => r.idxA < endA) (pincrTurn simd A B N P) fuel
    { idxA := s.idxA, idxB := idxB }
  let cIncr := sub32 (u32 (P * 4)) (4 * (simd.cols - 1))
  let c := postAddrs s.idxC ((List.range simd.rows).flatMap fun _ =>
    List.replicate (simd.cols - 1) 4 ++ [cIncr])
  let writes := List.zipWith (fun addr sum => (addr / 4, sum)) c.1 ((List.range simd.rows).flatMap
    fun x => (List.range simd.cols).map fun y => r.sums x y)
  some { idxA := u32 (r.idxA + u32 (N * (simd.rows - 1) * simd.size)), idxC := c.2,
         trace := ⟨s.trace.writes ++ writes, s.trace.loadsA ++ r.loadsA,
          s.trace.loadsB ++ r.loadsB⟩ }

/-- The body of the loop over `k`. -/
def pincrColumn (k : Nat) (t : TileTrace) : Option TileTrace := do
  let endC := u32 (4 * u32 (P * M))
  let s ← whileLoop (fun s => (s.map fun s => decide (s.idxC < endC)).getD false)
    (fun s => s.bind (pincrTile simd A B N P fuel k)) fuel
    (some { idxA := 0, idxC := u32 (4 * (k * simd.cols)), trace := t })
  s.map (·.trace)

def pincrKernel : Option TileTrace := do
  let t ← forLoop (fun k => k < P / simd.cols) (fun k => u32 (k + numThreads))
    (fun k t => t.bind (pincrColumn simd A B M N P fuel k)) fuel coreId (some {})
  t

end Pincr

def matmulUnrolled4x2PincrAsmParallelI16Xpulpv2 (A B : Nat → BitVec 16)
    (M N P coreId numThreads fuel : Nat) : Option TileTrace :=
  pincrKernel i16Width A B M N P coreId numThreads fuel

def matmulUnrolled2x4PincrAsmParallelI8Xpulpv2 (A B : Nat → BitVec 8)
    (M N P coreId numThreads fuel : Nat) : Option TileTrace :=
  pincrKernel i8Width A B M N P coreId numThreads fuel

/-- What a kernel does on all threads: every thread returns, together they write every element of
`C` once and nothing else, with the product of the matrices, and every vector of `lanes` elements
that is loaded lies in `A` or in `B`. -/
def SimdExact {w : Nat} (lanes : Nat) (A B : Nat → BitVec w) (M N P numThreads : Nat)
    (kernel : Nat → Nat → Option TileTrace) : Prop :=
  ∃ t : Nat → TileTrace, (∀ id < numThreads, Ends (kernel id) (t id)) ∧
    ((List.range numThreads).flatMap fun id => (t id).writes).Perm
      ((List.range (M * P)).map fun ij => (ij, matProduct A B N P (ij / P) (ij % P))) ∧
    ∀ id < numThreads, (∀ a ∈ (t id).loadsA, a + lanes ≤ M * N) ∧
      ∀ b ∈ (t id).loadsB, b + lanes ≤ N * P

end TeraNoC.Kernels
