import TeraNoC.Kernels.Dotp
import TeraNoC.Lib.Interleave

/-!
# AXPY (`kernels/baremetal/mempool_axpy_i32.h`)

What one core does with `y`, in order: a load adds `da * x[i]` to what it reads and keeps
it in a register, a store writes the register back. The vector `x` is only read. An array
is indexed from the start of the matrix, so that a pointer is the index it points to.
-/

namespace TeraNoC.Kernels

open TeraNoC.Lib TeraNoC.Runtime

inductive AxpyOp where
  | load (i : Nat)
  | store (i : Nat)
  deriving DecidableEq

/-- The index that an access writes. -/
def AxpyOp.stored : AxpyOp → Option Nat
  | load _ => none
  | store i => some i

/-- All loads of a group of elements and then all its stores. -/
def axpyUpdate (is : List Nat) : List AxpyOp := is.map AxpyOp.load ++ is.map AxpyOp.store

section Serial

variable (n : Nat) (da : Int32) (start fuel : Nat)

/-- `AXPY`, with `x` and `y` at index `start`. -/
def axpy : Option (List AxpyOp) :=
  if da = 0 then some []
  else forLoop (fun i => i < n) (fun i => u32 (i + 1))
    (fun i ops => ops ++ axpyUpdate [start + i]) fuel 0 []

/-- `AXPY_unloop_x4`. -/
def axpyUnloopX4 : List AxpyOp := axpyUpdate [start, start + 1, start + 2, start + 3]

/-- `AXPY_unloop`; the pointers move with the loops. -/
def axpyUnloop : Option (List AxpyOp) :=
  if da = 0 then some []
  else do
    let partial_ := n % 4
    let (y, ops) ← forLoop (fun i => i < sub32 n partial_) (fun i => u32 (i + 4))
      (fun _ (y, ops) => (y + 4, ops ++ axpyUnloopX4 y)) fuel 0 (start, [])
    let (_, ops) ← forLoop (fun j => j < partial_) (fun j => u32 (j + 1))
      (fun _ (y, ops) => (y + 1, ops ++ axpyUpdate [y])) fuel 0 (y, ops)
    return ops

end Serial

section Parallel

variable (da : Int32) (elements coreId numCores fuel : Nat)

/-- `calc_axpy`. -/
def calcAxpy : Option (List AxpyOp) :=
  let split := elements / numCores
  let partial_ := elements % numCores
  if coreId < partial_ then
    axpy (u32 (split + 1)) da (u32 (coreId * u32 (split + 1))) fuel
  else axpy split da (u32 (u32 (coreId * split) + partial_)) fuel

/-- `calc_axpy_unloop`. -/
def calcAxpyUnloop : Option (List AxpyOp) :=
  let split := elements / numCores
  let partial_ := elements % numCores
  if coreId < partial_ then
    axpyUnloop (u32 (split + 1)) da (u32 (coreId * u32 (split + 1))) fuel
  else axpyUnloop split da (u32 (u32 (coreId * split) + partial_)) fuel

/-- `calc_axpy_unloop_x4_localbank`. -/
def calcAxpyUnloopX4Localbank : Option (List AxpyOp) := do
  let bankNum := u32 (numCores * 4)
  let partial_ := elements % 4
  let ops ←
    if coreId = 0 ∧ partial_ ≠ 0 then axpy partial_ da (u32 (sub32 elements partial_ + 1)) fuel
    else some []
  let totalUnloop := sub32 elements partial_
  forLoop (fun c => c ≤ sub32 totalUnloop 4) (fun c => u32 (c + bankNum))
    (fun c ops => ops ++ axpyUnloopX4 c) fuel (u32 (coreId * 4)) ops

end Parallel

/-- `y`, and the registers of the cores by the element they hold. -/
structure AxpyState where
  y : Nat → Int32
  acc : Nat → Nat → Int32

/-- One access of a core. -/
def AxpyState.exec (da : Int32) (x : Nat → Int32) (s : AxpyState) : Nat × AxpyOp → AxpyState
  | (core, .load i) =>
      let row := Function.update (s.acc core) i (s.y i + da * x i)
      { s with acc := Function.update s.acc core row }
  | (core, .store i) => { s with y := Function.update s.y i (s.acc core i) }

/-- What a kernel does on all cores: every core returns; however their accesses interleave,
`y` gets `da * x` added and keeps what is beyond its end; no element is stored twice or
beyond the end, and all are stored, unless there is nothing to add. -/
def AxpyExact (da : Int32) (x : Nat → Int32) (elements numCores : Nat)
    (kernel : Nat → Nat → Option (List AxpyOp)) : Prop :=
  ∃ prog : Nat → List AxpyOp, (∀ core < numCores, Ends (kernel core) (prog core)) ∧
    (∀ run, Interleaving numCores prog run → ∀ (s : AxpyState) (i : Nat),
      (run.foldl (AxpyState.exec da x) s).y i =
        if i < elements then s.y i + da * x i else s.y i) ∧
    (∀ i, ((List.range numCores).flatMap fun core => (prog core).filterMap AxpyOp.stored).count i ≤
      if i < elements then 1 else 0) ∧
    (da ≠ 0 → ∀ i < elements,
      ((List.range numCores).flatMap fun core => (prog core).filterMap AxpyOp.stored).count i = 1)

end TeraNoC.Kernels
