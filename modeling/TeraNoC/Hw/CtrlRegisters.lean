import Mathlib.Data.Nat.Bitwise
import TeraNoC.Lib.While

/-!
# Wake-up pulses (`ctrl_registers`)

A core is woken by a write to one of the control registers: a core id, a mask of
the tiles of a group, or a mask of groups. Two more registers, a stride and an
offset, select the cores that such a write can reach. The write enables are
delayed by a cycle so that they arrive with the registered values, and the mask
of the selected cores is a register of its own, two cycles behind the write.

The register interface takes at most one write per cycle. `wakeUpO_next` says
that then nothing of the delays is left: the pulse of a write is the one that the
registers give in which all earlier writes have arrived.
-/

namespace TeraNoC.Hw

open TeraNoC.Lib

/-- The sizes that the decoding of a wake-up depends on. -/
structure WakeParams where
  numCoresPerTile : Nat
  numTilesPerGroup : Nat
  numGroups : Nat

def WakeParams.numCoresPerGroup (w : WakeParams) : Nat := w.numCoresPerTile * w.numTilesPerGroup

def WakeParams.numCores (w : WakeParams) : Nat := w.numCoresPerGroup * w.numGroups

inductive CtrlWrite where
  | wakeUp (core : Nat)
  | wakeUpTile (group mask : Nat)
  | wakeUpGroup (mask : Nat)
  | wakeUpStrd (strd : Nat)
  | wakeUpOffst (offst : Nat)
  deriving DecidableEq, Repr

/-- The registers, their delayed write enables, and `wake_up_mask_q`. -/
structure CtrlState where
  wakeUp : Nat
  wakeUpTile : Nat → Nat
  wakeUpGroup : Nat
  wakeUpStrd : Nat
  wakeUpOffst : Nat
  wakeUpPulse : Bool
  wakeUpTilePulse : Nat → Bool
  wakeUpGroupPulse : Bool
  wakeUpStrdOffstPulse : Bool
  wakeUpMask : Nat → Bool

def CtrlState.reset : CtrlState where
  wakeUp := 0
  wakeUpTile _ := 0
  wakeUpGroup := 0
  wakeUpStrd := 0
  wakeUpOffst := 0
  wakeUpPulse := false
  wakeUpTilePulse _ := false
  wakeUpGroupPulse := false
  wakeUpStrdOffstPulse := false
  wakeUpMask _ := true

/-- The cores that the loop over `wake_up_mask_d` reaches. -/
def strided (strd offst core : Nat) : Bool :=
  decide (offst ≤ core) && decide ((core - offst) % strd = 0)

/-- `wake_up_mask_d`, or the register where it is not loaded. -/
def CtrlState.nextMask (s : CtrlState) : Nat → Bool :=
  if s.wakeUpStrdOffstPulse then strided s.wakeUpStrd s.wakeUpOffst else s.wakeUpMask

def CtrlState.next (s : CtrlState) (write : Option CtrlWrite) : CtrlState where
  wakeUp := match write with | some (.wakeUp v) => v | _ => s.wakeUp
  wakeUpTile g :=
    match write with
    | some (.wakeUpTile g' v) => if g = g' then v else s.wakeUpTile g
    | _ => s.wakeUpTile g
  wakeUpGroup := match write with | some (.wakeUpGroup v) => v | _ => s.wakeUpGroup
  wakeUpStrd := match write with | some (.wakeUpStrd v) => v | _ => s.wakeUpStrd
  wakeUpOffst := match write with | some (.wakeUpOffst v) => v | _ => s.wakeUpOffst
  wakeUpPulse := match write with | some (.wakeUp _) => true | _ => false
  wakeUpTilePulse g := match write with | some (.wakeUpTile g' _) => g == g' | _ => false
  wakeUpGroupPulse := match write with | some (.wakeUpGroup _) => true | _ => false
  wakeUpStrdOffstPulse :=
    match write with | some (.wakeUpStrd _) | some (.wakeUpOffst _) => true | _ => false
  wakeUpMask := s.nextMask

namespace WakeParams

variable (w : WakeParams)

/-- A core id that no core has wakes all of them. -/
def wakeUpCores (v core : Nat) : Bool :=
  if v < w.numCores then core == v else true

def wakeUpTiles (g mask core : Nat) : Bool :=
  mask.testBit ((core - w.numCoresPerGroup * g) / w.numCoresPerTile)

def wakeUpGroups (mask core : Nat) : Bool := mask.testBit (core / w.numCoresPerGroup)

/-- `wake_up_o` of one core: the later assignments of the block override. -/
def wakeUpO (s : CtrlState) (core : Nat) : Bool :=
  let byCore := s.wakeUpPulse && w.wakeUpCores s.wakeUp core
  let g := core / w.numCoresPerGroup
  let byTile :=
    if s.wakeUpTilePulse g && decide (s.wakeUpTile g ≤ 2 ^ w.numTilesPerGroup - 1) then
      w.wakeUpTiles g (s.wakeUpTile g) core
    else byCore
  let byGroup :=
    if s.wakeUpGroupPulse then
      if s.wakeUpGroup ≤ 2 ^ w.numGroups - 1 then w.wakeUpGroups s.wakeUpGroup core
      else if s.wakeUpGroup = 2 ^ 32 - 1 then true
      else byTile
    else byTile
  byGroup && s.wakeUpMask core

/-! ## One write at a time -/

/-- The cores that a write wakes, among those selected. -/
def wakes (write : CtrlWrite) (core : Nat) : Bool :=
  match write with
  | .wakeUp v => w.wakeUpCores v core
  | .wakeUpTile g mask =>
      core / w.numCoresPerGroup == g && decide (mask ≤ 2 ^ w.numTilesPerGroup - 1) &&
        w.wakeUpTiles g mask core
  | .wakeUpGroup mask =>
      if mask ≤ 2 ^ w.numGroups - 1 then w.wakeUpGroups mask core
      else decide (mask = 2 ^ 32 - 1)
  | .wakeUpStrd _ | .wakeUpOffst _ => false

theorem wakeUpO_next (s : CtrlState) (write : Option CtrlWrite) (core : Nat) :
    w.wakeUpO (s.next write) core = (write.any (w.wakes · core) && s.nextMask core) := by
  rcases write with - | (v | ⟨g, mask⟩ | mask | v | v)
  · simp [wakeUpO, CtrlState.next]
  · simp [wakeUpO, CtrlState.next, wakes]
  · by_cases hg : core / w.numCoresPerGroup = g
    · by_cases hm : mask ≤ 2 ^ w.numTilesPerGroup - 1 <;>
        simp [wakeUpO, CtrlState.next, wakes, hg, hm]
    · simp [wakeUpO, CtrlState.next, wakes, hg]
  · by_cases hm : mask ≤ 2 ^ w.numGroups - 1
    · simp [wakeUpO, CtrlState.next, wakes, hm]
    · by_cases hall : mask = 2 ^ 32 - 1 <;>
        simp [wakeUpO, CtrlState.next, wakes, hm, hall]
  · simp [wakeUpO, CtrlState.next, wakes]
  · simp [wakeUpO, CtrlState.next, wakes]

end WakeParams

/-- The selection after a write is that of the registers it leaves. -/
theorem nextMask_next (s : CtrlState) (write : Option CtrlWrite) :
    (s.next write).nextMask =
      match write with
      | some (.wakeUpStrd v) => strided v s.wakeUpOffst
      | some (.wakeUpOffst v) => strided s.wakeUpStrd v
      | _ => s.nextMask := by
  rcases write with - | (v | ⟨g, mask⟩ | mask | v | v) <;> rfl

/-! ## The loop over the mask

`next` above takes the mask as the set that the loop is to reach. The loop itself adds
the stride in 32 bits until it is past the cores, and is bounded here: `none` is a
computation that did not end. -/

def CtrlState.wakeUpMaskD (s : CtrlState) (w : WakeParams) (fuel : Nat) : Option (Nat → Bool) :=
  if s.wakeUpStrdOffstPulse then
    forLoop (fun i => i < w.numCores) (fun i => (i + s.wakeUpStrd) % 2 ^ 32)
      (fun i mask => Function.update mask i true) fuel s.wakeUpOffst (fun _ => false)
  else some fun _ => false

/-- One cycle with the loop; `wake_up_mask_q` is loaded if a stride or offset arrived. -/
def CtrlState.clock (s : CtrlState) (w : WakeParams) (fuel : Nat) (write : Option CtrlWrite) :
    Option CtrlState :=
  (s.wakeUpMaskD w fuel).map fun maskD =>
    { s.next write with wakeUpMask := if s.wakeUpStrdOffstPulse then maskD else s.wakeUpMask }

/-- The cycles after reset, each with at most one write. -/
def ctrlRun (w : WakeParams) (fuel : Nat) (cs : List (Option CtrlWrite)) : Option CtrlState :=
  cs.foldlM (fun s write => s.clock w fuel write) .reset

end TeraNoC.Hw
