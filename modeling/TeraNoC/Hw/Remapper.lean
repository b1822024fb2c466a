import Mathlib.Data.List.Range
import TeraNoC.Hw.NocSystem

/-!
# The remapper as a clocked module (`floo_remapper`)

The inputs are divided into groups of `GroupSize`, and each group has a crossbar of its own
whose select register turns by one in every cycle. Interleaved, group `g` takes every
`NumGroup`-th input beginning with input `g`; otherwise a group is a block of inputs. The
outputs of a group are a block in both cases. The crossbar comes from a library and is a
parameter here: it may arbitrate as it likes, but an output carries one of the inputs that ask
for it, and tells only that one that it is taken.
-/

namespace TeraNoC.Hw

/-- What a crossbar sees in a cycle. -/
structure XbarIn (payload : Type) where
  data : Nat → payload
  sel : Nat → Nat
  valid : Nat → Bool
  ready : Nat → Bool

structure XbarOut (payload : Type) where
  data : Nat → payload
  valid : Nat → Bool
  ready : Nat → Bool

/-- Output `j` is granted to input `i`. -/
structure Granted {payload : Type} (n : Nat) (x : XbarIn payload) (y : XbarOut payload)
    (j i : Nat) : Prop where
  lt : i < n
  valid : x.valid i = true
  sel : x.sel i = j
  data : y.data j = x.data i
  ready : y.ready i = x.ready j
  others : ∀ i' < n, i' ≠ i → x.valid i' = true → x.sel i' = j → y.ready i' = false

/-- `stream_xbar` with `n` inputs and outputs. -/
structure StreamXbar (payload : Type) (n : Nat) where
  State : Type
  reset : State
  next : State → XbarIn payload → State
  out : State → XbarIn payload → XbarOut payload
  /-- An output is valid exactly when an input asks for it. -/
  valid_iff : ∀ s x, ∀ j < n,
    ((out s x).valid j = true ↔ ∃ i < n, x.valid i = true ∧ x.sel i = j)
  granted : ∀ s x, ∀ j < n, (out s x).valid j = true → ∃ i, Granted n x (out s x) j i

/-- The parameters, with the checks of `p_assert`; the number of outputs is that of inputs. -/
structure Remapper where
  numInp : Nat
  groupSize : Nat
  interleaved : Bool
  dvd : groupSize ∣ numInp
  pow : ∃ k, groupSize = 2 ^ (k + 1)

/-- The registers of each group. -/
structure RemapState {payload : Type} {n : Nat} (xbar : StreamXbar payload n) where
  selQ : Nat → Nat → Nat
  arb : Nat → xbar.State

/-- The inputs of the module in one cycle. -/
structure RemapIn (payload : Type) where
  inpData : Nat → payload
  inpValid : Nat → Bool
  oupReady : Nat → Bool

namespace Remapper

variable (r : Remapper)

def numGroup : Nat := r.numInp / r.groupSize

/-- Input `i` of group `g`. -/
def inpOf (g i : Nat) : Nat := if r.interleaved then g + i * r.numGroup else g * r.groupSize + i

/-- Output `j` of group `g`: `start_idx + j`. -/
def oupOf (g j : Nat) : Nat := g * r.groupSize + j

variable {payload : Type} (xbar : StreamXbar payload r.groupSize)

def reset : RemapState xbar where
  selQ := fun _ => selReset r.groupSize
  arb := fun _ => xbar.reset

/-- What the crossbar of group `g` sees. -/
def xbarIn (s : RemapState xbar) (x : RemapIn payload) (g : Nat) : XbarIn payload where
  data := fun i => x.inpData (r.inpOf g i)
  sel := s.selQ g
  valid := fun i => x.inpValid (r.inpOf g i)
  ready := fun j => x.oupReady (r.oupOf g j)

def xbarOut (s : RemapState xbar) (x : RemapIn payload) (g : Nat) : XbarOut payload :=
  xbar.out (s.arb g) (r.xbarIn xbar s x g)

def step (s : RemapState xbar) (x : RemapIn payload) : RemapState xbar where
  selQ := fun g => selNext r.groupSize (s.selQ g)
  arb := fun g => xbar.next (s.arb g) (r.xbarIn xbar s x g)

/-- The registers after `t` cycles with the inputs `x 0`, `x 1`, … -/
def after (x : Nat → RemapIn payload) : Nat → RemapState xbar
  | 0 => r.reset xbar
  | t + 1 => r.step xbar (after x t) (x t)

/-- The group of an input, and its place there. -/
def groupOf (inp : Nat) : Nat := if r.interleaved then inp % r.numGroup else inp / r.groupSize

def placeOf (inp : Nat) : Nat := if r.interleaved then inp / r.numGroup else inp % r.groupSize

variable {r xbar}

/-- `inp_ready_o`. -/
def inpReady (s : RemapState xbar) (x : RemapIn payload) (inp : Nat) : Bool :=
  (r.xbarOut xbar s x (r.groupOf inp)).ready (r.placeOf inp)

/-- `oup_valid_o`. -/
def oupValid (s : RemapState xbar) (x : RemapIn payload) (oup : Nat) : Bool :=
  (r.xbarOut xbar s x (oup / r.groupSize)).valid (oup % r.groupSize)

/-- `oup_data_o`. -/
def oupData (s : RemapState xbar) (x : RemapIn payload) (oup : Nat) : payload :=
  (r.xbarOut xbar s x (oup / r.groupSize)).data (oup % r.groupSize)

/-- A handshake at an input, and at an output. -/
def InpHandshake (s : RemapState xbar) (x : RemapIn payload) (inp : Nat) : Prop :=
  x.inpValid inp = true ∧ inpReady s x inp = true

def OupHandshake (s : RemapState xbar) (x : RemapIn payload) (oup : Nat) : Prop :=
  oupValid s x oup = true ∧ x.oupReady oup = true

/-- The output an input is connected to: the one its crossbar is told to take. -/
def connected (s : RemapState xbar) (inp : Nat) : Nat :=
  r.oupOf (r.groupOf inp) (s.selQ (r.groupOf inp) (r.placeOf inp))

end Remapper

end TeraNoC.Hw
