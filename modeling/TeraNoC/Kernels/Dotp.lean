import Mathlib.Data.BitVec
import TeraNoC.Lib.While
import TeraNoC.Runtime.Word

/-!
# Dot products (`kernels/baremetal/mempool_dotp_i32.h`)

What one core computes before it adds its sum to the shared one. The registers come with
a history: the indices of the pairs that the core has multiplied.
-/

namespace TeraNoC.Kernels

open TeraNoC.Lib TeraNoC.Runtime

/-- `int32_t`. -/
abbrev Int32 := BitVec 32

structure DotpState where
  localSum0 : Int32 := 0
  localSum1 : Int32 := 0
  localSum2 : Int32 := 0
  localSum3 : Int32 := 0
  pairs : List Nat := []
  deriving Inhabited

section Dotp

variable (inA inB : Nat → Int32) (len nPE coreId fuel : Nat)

/-- `local_sum0 += in_a[i] * in_b[i]`. -/
def dotpMac (i : Nat) (s : DotpState) : DotpState :=
  { s with localSum0 := s.localSum0 + inA i * inB i, pairs := s.pairs ++ [i] }

/-- `DOTPI32_UNROLLED4_LOOP`. -/
def dotpUnrolled4Loop (i : Nat) (s : DotpState) : DotpState where
  localSum0 := s.localSum0 + inA i * inB i
  localSum1 := s.localSum1 + inA (i + 1) * inB (i + 1)
  localSum2 := s.localSum2 + inA (i + 2) * inB (i + 2)
  localSum3 := s.localSum3 + inA (i + 3) * inB (i + 3)
  pairs := s.pairs ++ [i, i + 1, i + 2, i + 3]

/-- The sum of the four registers. -/
def DotpState.reduce (s : DotpState) : Int32 :=
  (s.localSum0 + s.localSum1) + (s.localSum2 + s.localSum3)

/-- `dotp_i32p` up to the atomic addition. -/
def dotpI32p : Option DotpState :=
  let step := len / nPE
  forLoop (fun i => i < u32 (u32 (coreId * step) + step)) (fun i => u32 (i + 1))
    (dotpMac inA inB) fuel (u32 (coreId * step)) {}

/-- `dotp_i32p_unrolled4` up to the atomic addition. -/
def dotpI32pUnrolled4 : Option DotpState := do
  let step := len / nPE
  let reminder := step % 4
  let end_ := sub32 (u32 (u32 (coreId * step) + step)) reminder
  let s ← forLoop (fun i => i < end_) (fun i => u32 (i + 4))
    (dotpUnrolled4Loop inA inB) fuel (u32 (coreId * step)) {}
  forLoop (fun i => i < step) (fun i => u32 (i + 1)) (dotpMac inA inB) fuel end_ s

end Dotp

/-- The dot product of two vectors. -/
def dotProduct (inA inB : Nat → Int32) (len : Nat) : Int32 :=
  ((List.range len).map fun i => inA i * inB i).sum

/-- What a kernel does on all cores: every core comes to its atomic addition, what they add
to the shared sum makes the dot product, and every pair is multiplied exactly once. -/
def DotpExact (inA inB : Nat → Int32) (len nPE : Nat) (kernel : Nat → Nat → Option DotpState) :
    Prop :=
  ∃ s : Nat → DotpState, (∀ core < nPE, Ends (kernel core) (s core)) ∧
    ((List.range nPE).map fun core => (s core).reduce).sum = dotProduct inA inB len ∧
    ∀ i, ((List.range nPE).flatMap fun core => (s core).pairs).count i = if i < len then 1 else 0

end TeraNoC.Kernels
