import TeraNoC.Snitch.Instr

/-!
# The serial divider (`serdiv` of `snitch_shared_muldiv`)

One clock cycle of the divider that the cores of a tile share. It works on the operands as
they are in two's complement: where the signs differ the dividend is negated, so that
dividend and divisor have one sign, and the comparison is turned around where that sign
is negative. The divisor is aligned by the difference of the leading zeros, and moved
down a bit in each cycle.
-/

namespace TeraNoC.Snitch

open TeraNoC.Hw

inductive DivOp where
  | div | divu | rem | remu
  deriving DecidableEq, Repr

/-- The `casez` over `operator_i`. -/
def divOp (operator : BitVec 32) : Option DivOp :=
  if operator &&& 0xfe00707f = 0x02004033 then some .div
  else if operator &&& 0xfe00707f = 0x02005033 then some .divu
  else if operator &&& 0xfe00707f = 0x02006033 then some .rem
  else if operator &&& 0xfe00707f = 0x02007033 then some .remu
  else none

def signedOp (operator : BitVec 32) : Bool :=
  divOp operator = some .div || divOp operator = some .rem

def remOp (operator : BitVec 32) : Bool :=
  divOp operator = some .rem || divOp operator = some .remu

/-- `lzc` counting leading zeros (a dependency); what it counts in zero is not used. -/
structure LeadingZeros where
  cnt : Word → BitVec 5
  cnt_lead : ∀ x, x ≠ 0 → 2 ^ (31 - (cnt x).toNat) ≤ x.toNat ∧ x.toNat < 2 ^ (32 - (cnt x).toNat)

inductive DivPhase where
  | idle | divide | finish
  deriving DecidableEq, Repr

structure DivState (idWidth : Nat) where
  state : DivPhase
  opA : Word
  opB : Word
  res : Word
  cnt : BitVec 6
  id : BitVec idWidth
  remSel : Bool
  compInv : Bool
  resInv : Bool
  opBZero : Bool
  divResZero : Bool

def DivState.reset (idWidth : Nat) : DivState idWidth where
  state := .idle
  opA := 0
  opB := 0
  res := 0
  cnt := 0
  id := 0
  remSel := false
  compInv := false
  resInv := false
  opBZero := false
  divResZero := false

structure DivIn (idWidth : Nat) where
  id : BitVec idWidth
  operator : BitVec 32
  opA : Word
  opB : Word
  inVld : Bool
  outRdy : Bool

/-! ## Aligning the operands -/

namespace DivIn

variable {idWidth : Nat} (i : DivIn idWidth) (lz : LeadingZeros)

def signs : Bool := signedOp i.operator && (i.opA.msb ^^ i.opB.msb)

/-- `{~op_a_i, 1'b0}`, cut to the operand's width, for a negative dividend. -/
def lzcAInput : Word :=
  if signedOp i.operator && i.opA.msb then (~~~i.opA) <<< 1 else i.opA

def lzcBInput : Word := if signedOp i.operator && i.opB.msb then ~~~i.opB else i.opB

def shiftA : BitVec 6 := if i.lzcAInput = 0 then 32 else (lz.cnt i.lzcAInput).setWidth 6

def divShift : BitVec 7 :=
  if i.lzcBInput = 0 then 32
  else (lz.cnt i.lzcBInput).setWidth 7 - (i.shiftA lz).setWidth 7

end DivIn

namespace DivState

variable {idWidth : Nat} (s : DivState idWidth) (i : DivIn idWidth) (lz : LeadingZeros)

/-! ## Outputs -/

def inRdy : Bool := s.state = .idle

/-- A quotient that is zero is out in its first cycle. -/
def outVld : Bool := s.state = .finish || s.state = .divide && s.divResZero

def outMux : Word := if s.remSel then s.opA else s.res

def resO : Word := if s.resInv then -s.outMux else s.outMux

/-! ## Datapath -/

def loadEn : Bool := s.state = .idle && i.inVld

/-- A turn of the division. -/
def turn : Bool := s.state = .divide && !s.divResZero

def abComp : Bool :=
  (s.opA == s.opB || (decide (s.opB < s.opA) ^^ s.compInv)) && (s.opA != 0 || s.opBZero)

def pmSel : Bool := s.loadEn i && !i.signs

def addOut : Word :=
  let addTmp := if s.loadEn i then 0 else s.opA
  let addMux := if s.loadEn i then i.opA else s.opB
  if s.pmSel i then addTmp + addMux else addTmp - addMux

/-- The shift by one brings in the sign of a negative divisor. -/
def bMux : Word :=
  if s.loadEn i then i.opB <<< (i.divShift lz).toNat
  else BitVec.ofBool s.compInv ++ s.opB.extractLsb' 1 31

/-! ## State machine and registers -/

def stateD : DivPhase :=
  match s.state with
  | .idle => if i.inVld then .divide else .idle
  | .divide =>
      if s.divResZero then (if i.outRdy then .idle else .finish)
      else if s.cnt = 0 then .finish else .divide
  | .finish => if i.outRdy then .idle else .finish

def next : DivState idWidth where
  state := s.stateD i
  opA := if s.loadEn i || s.turn && s.abComp then s.addOut i else s.opA
  opB := if s.loadEn i || s.turn then s.bMux i lz else s.opB
  res :=
    if s.loadEn i then 0
    else if s.turn then s.res.extractLsb' 0 31 ++ BitVec.ofBool s.abComp
    else s.res
  cnt :=
    if s.loadEn i then (i.divShift lz).setWidth 6
    else if s.cnt = 0 then s.cnt else s.cnt - 1
  id := if s.loadEn i then i.id else s.id
  remSel := if s.loadEn i then remOp i.operator else s.remSel
  compInv := if s.loadEn i then signedOp i.operator && i.opB.msb else s.compInv
  resInv := if s.loadEn i then (!(i.opB == 0) || remOp i.operator) && i.signs else s.resInv
  opBZero := if s.loadEn i then i.opB == 0 else s.opBZero
  divResZero := if s.loadEn i then (i.divShift lz).msb else s.divResZero

end DivState

end TeraNoC.Snitch
