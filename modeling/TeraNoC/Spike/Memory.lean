import TeraNoC.Snitch.Core

/-!
# The memory instructions of Xpulpimg in the instruction set simulator (`riscv-isa-sim`)

The golden model's view of the loads and stores with register offsets and
post-increment: the bodies of `riscv/insns/p_l*.h` and `p_s*.h` at `xlen` 32. A body is
a sequence of register reads, one access of the MMU and register writes, and a register
that is read after a write is read as it was written. The registers are the ones the
core has.
-/

namespace TeraNoC.Spike

open TeraNoC.Hw TeraNoC.Snitch

/-- The byte at every address. -/
abbrev Mem := Word → BitVec 8

inductive Trap where
  | loadAddressMisaligned
  | storeAddressMisaligned
  deriving DecidableEq

/-- Registers and memory, with the accesses made so far. -/
structure State (cfg : CoreConfig) where
  xpr : RegFile cfg
  mem : Mem
  accesses : List (Word × LsSize)

def writeXpr {cfg : CoreConfig} (x : RegFile cfg) (r : RegIdx cfg) (v : Word) : RegFile cfg where
  mem a := if a = r ∧ r ≠ 0 then v else x.mem a
  zero := by
    rw [if_neg fun h => h.2 h.1.symm]
    exact x.zero

/-! ## The MMU -/

/-- `sizeof`. -/
def numBytes : LsSize → Nat
  | .byte => 1
  | .halfWord => 2
  | .word => 4
  | .double => 8

/-- `addr & (sizeof(type) - 1)`. -/
def misaligned (size : LsSize) (addr : Word) : Bool :=
  addr &&& BitVec.ofNat 32 (numBytes size - 1) != 0

/-- The word at an address, low byte first. -/
def readWord (m : Mem) (addr : Word) : Word :=
  m (addr + 3) ++ m (addr + 2) ++ m (addr + 1) ++ m addr

/-- The value of an aligned access, extended to a register. -/
def loaded (size : LsSize) (signed : Bool) (m : Mem) (addr : Word) : Word :=
  match size with
  | .byte => if signed then (m addr).signExtend 32 else (m addr).setWidth 32
  | .halfWord =>
      if signed then (m (addr + 1) ++ m addr).signExtend 32
      else (m (addr + 1) ++ m addr).setWidth 32
  | .word | .double => readWord m addr

/-- The memory after an aligned access. -/
def stored (size : LsSize) (m : Mem) (addr v : Word) : Mem := fun b =>
  if (b - addr).toNat < numBytes size then v.extractLsb' (8 * (b - addr).toNat) 8 else m b

variable {cfg : CoreConfig}

/-- `load_func`. -/
def load (size : LsSize) (signed : Bool) (st : State cfg) (addr : Word) :
    Except Trap (Word × State cfg) :=
  if misaligned size addr then .error .loadAddressMisaligned
  else .ok (loaded size signed st.mem addr,
    { st with accesses := st.accesses ++ [(addr, size)] })

/-- `store_func`. -/
def store (size : LsSize) (st : State cfg) (addr v : Word) : Except Trap (State cfg) :=
  if misaligned size addr then .error .storeAddressMisaligned
  else .ok { st with
    mem := stored size st.mem addr v
    accesses := st.accesses ++ [(addr, size)] }

/-! ## The instructions -/

def State.reg (st : State cfg) (r : RegIdx cfg) : Word := st.xpr.mem r

def State.write (st : State cfg) (r : RegIdx cfg) (v : Word) : State cfg :=
  { st with xpr := writeXpr st.xpr r v }

/-- What an instruction word does to the state. -/
abbrev Insn (cfg : CoreConfig) := BitVec 32 → State cfg → Except Trap (State cfg)

/-- The access at the base, and the increment of the base by an offset that is read
after it. -/
def loadPost (offset : BitVec 32 → State cfg → Word) (size : LsSize) (signed : Bool) :
    Insn cfg := fun inst st => do
  let (v, st) ← load size signed st (st.reg (rs1 cfg inst))
  let st := st.write (rd cfg inst) v
  return st.write (rs1 cfg inst) (st.reg (rs1 cfg inst) + offset inst st)

def loadIrpost : LsSize → Bool → Insn cfg := loadPost fun inst _ => iimm inst

def loadRrpost : LsSize → Bool → Insn cfg := loadPost fun inst st => st.reg (rs2 cfg inst)

def loadRr (size : LsSize) (signed : Bool) : Insn cfg := fun inst st => do
  let (v, st) ← load size signed st (st.reg (rs1 cfg inst) + st.reg (rs2 cfg inst))
  return st.write (rd cfg inst) v

def storePost (offset : BitVec 32 → State cfg → Word) (size : LsSize) : Insn cfg :=
  fun inst st => do
  let st ← store size st (st.reg (rs1 cfg inst)) (st.reg (rs2 cfg inst))
  return st.write (rs1 cfg inst) (st.reg (rs1 cfg inst) + offset inst st)

def storeIrpost : LsSize → Insn cfg := storePost fun inst _ => simm inst

/-- `P_RS3` is read from the field of the destination. -/
def storeRrpost : LsSize → Insn cfg := storePost fun inst st => st.reg (rd cfg inst)

def storeRr (size : LsSize) : Insn cfg := fun inst st =>
  store size st (st.reg (rs1 cfg inst) + st.reg (rd cfg inst)) (st.reg (rs2 cfg inst))

def pLbIrpost : Insn cfg := loadIrpost .byte true

def pLbuIrpost : Insn cfg := loadIrpost .byte false

def pLhIrpost : Insn cfg := loadIrpost .halfWord true

def pLhuIrpost : Insn cfg := loadIrpost .halfWord false

def pLwIrpost : Insn cfg := loadIrpost .word true

def pLbRrpost : Insn cfg := loadRrpost .byte true

def pLbuRrpost : Insn cfg := loadRrpost .byte false

def pLhRrpost : Insn cfg := loadRrpost .halfWord true

def pLhuRrpost : Insn cfg := loadRrpost .halfWord false

def pLwRrpost : Insn cfg := loadRrpost .word true

def pLbRr : Insn cfg := loadRr .byte true

def pLbuRr : Insn cfg := loadRr .byte false

def pLhRr : Insn cfg := loadRr .halfWord true

def pLhuRr : Insn cfg := loadRr .halfWord false

def pLwRr : Insn cfg := loadRr .word true

def pSbIrpost : Insn cfg := storeIrpost .byte

def pShIrpost : Insn cfg := storeIrpost .halfWord

def pSwIrpost : Insn cfg := storeIrpost .word

def pSbRrpost : Insn cfg := storeRrpost .byte

def pShRrpost : Insn cfg := storeRrpost .halfWord

def pSwRrpost : Insn cfg := storeRrpost .word

def pSbRr : Insn cfg := storeRr .byte

def pShRr : Insn cfg := storeRr .halfWord

def pSwRr : Insn cfg := storeRr .word

/-- The memory instructions of Xpulpimg. -/
def memoryInsn : Op → Option (Insn cfg)
  | .pLbIrpost => some pLbIrpost
  | .pLbuIrpost => some pLbuIrpost
  | .pLhIrpost => some pLhIrpost
  | .pLhuIrpost => some pLhuIrpost
  | .pLwIrpost => some pLwIrpost
  | .pLbRrpost => some pLbRrpost
  | .pLbuRrpost => some pLbuRrpost
  | .pLhRrpost => some pLhRrpost
  | .pLhuRrpost => some pLhuRrpost
  | .pLwRrpost => some pLwRrpost
  | .pLbRr => some pLbRr
  | .pLbuRr => some pLbuRr
  | .pLhRr => some pLhRr
  | .pLhuRr => some pLhuRr
  | .pLwRr => some pLwRr
  | .pSbIrpost => some pSbIrpost
  | .pShIrpost => some pShIrpost
  | .pSwIrpost => some pSwIrpost
  | .pSbRrpost => some pSbRrpost
  | .pShRrpost => some pShRrpost
  | .pSwRrpost => some pSwRrpost
  | .pSbRr => some pSbRr
  | .pShRr => some pShRr
  | .pSwRr => some pSwRr
  | _ => none

/-- Whether the instruction traps, and the state it leaves. -/
def outcome (f : Insn cfg) (inst : BitVec 32) (st : State cfg) : Option Trap × State cfg :=
  match f inst st with
  | .ok st' => (none, st')
  | .error t => (some t, st)

end TeraNoC.Spike
