import Mathlib.Data.List.Basic

/-!
# Memory words and the bank SRAM

A single-ported SRAM with byte enables. Its read data is there one cycle after
the read and only then: in a cycle that does not follow a read the output is
whatever `junk` the environment chooses.
-/

namespace TeraNoC.Hw

abbrev Word := BitVec 32

/-- The bits that a byte enable covers. -/
def beMask (be : BitVec 4) : Word :=
  (if be.getLsbD 0 then 0x000000ff#32 else 0) ||| (if be.getLsbD 1 then 0x0000ff00#32 else 0) |||
    (if be.getLsbD 2 then 0x00ff0000#32 else 0) ||| (if be.getLsbD 3 then 0xff000000#32 else 0)

/-- `old` with the enabled bytes taken from `new`. -/
def mergeBytes (be : BitVec 4) (old new : Word) : Word :=
  (new &&& beMask be) ||| (old &&& ~~~ beMask be)

theorem mergeBytes_all (old new : Word) : mergeBytes 0b1111#4 old new = new := by
  have h : beMask 0b1111#4 = BitVec.allOnes 32 := by decide
  rw [mergeBytes, h, BitVec.and_allOnes]
  simp

variable {Addr : Type} [DecidableEq Addr]

/-- `mem` with one word replaced. -/
def setWord (mem : Addr → Word) (a : Addr) (w : Word) : Addr → Word :=
  fun x => if x = a then w else mem x

theorem setWord_same (mem : Addr → Word) (a : Addr) (w : Word) : setWord mem a w a = w :=
  if_pos rfl

theorem setWord_setWord (mem : Addr → Word) (a : Addr) (w w' : Word) :
    setWord (setWord mem a w) a w' = setWord mem a w' := by
  funext x
  simp only [setWord]
  split <;> rfl

structure SramPort (Addr : Type) where
  req : Bool
  write : Bool
  addr : Addr
  wdata : Word
  be : BitVec 4

structure SramState (Addr : Type) where
  mem : Addr → Word
  rdata : Word

def SramState.next (s : SramState Addr) (q : SramPort Addr) (junk : Word) : SramState Addr where
  mem := if q.req && q.write then setWord s.mem q.addr (mergeBytes q.be (s.mem q.addr) q.wdata)
    else s.mem
  rdata := if q.req && !q.write then s.mem q.addr else junk

end TeraNoC.Hw
