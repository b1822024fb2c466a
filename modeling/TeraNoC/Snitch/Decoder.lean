import TeraNoC.Snitch.Instr

/-!
# The decoder of Snitch (`snitch`)

What an instruction word means to the rest of the core: which operands it selects,
where its result goes, and which unit it keeps busy. The decoder starts from defaults
and every case overrides a few of them; an instruction of an extension that is not
built in is illegal, and keeps the defaults.
-/

namespace TeraNoC.Snitch

open TeraNoC.Hw

/-- The parameters of the core and of its package. -/
structure CoreConfig where
  bootAddr : BitVec 32
  mtvec : BitVec 32
  rve : Bool
  /-- `RegNrWritePorts` is two. -/
  twoWritePorts : Bool
  xpulpimg : Bool
  zfinx : Bool
  zquarterinx : Bool
  xdivsqrt : Bool
  /-- `NumIntOutstandingLoads`. -/
  numLoads : Nat
  numLoads_pos : 0 < numLoads

/-- The core of a cluster with the default configuration. -/
def mempoolCore : CoreConfig where
  bootAddr := 0xa0000000
  mtvec := 0xa0000000
  rve := false
  twoWritePorts := true
  xpulpimg := true
  zfinx := true
  zquarterinx := false
  xdivsqrt := false
  numLoads := 8
  numLoads_pos := by decide

namespace CoreConfig

variable (cfg : CoreConfig)

def regWidth : Nat := if cfg.rve then 4 else 5

/-- `RegNrReadPorts >= 3`. -/
def thirdReadPort : Bool := cfg.xpulpimg || cfg.zfinx

def xf16 : Bool := true

def xf8 : Bool := cfg.zquarterinx

def xfvec : Bool := true

def fpEnabled (fmt : FpFormat) (divsqrt : Bool) : Bool :=
  cfg.zfinx && (!divsqrt || cfg.xdivsqrt) &&
    match fmt with
    | .s => true
    | .h => xf16
    | .b => cfg.xf8
    | .vh => xfvec && xf16
    | .vb => xfvec && cfg.xf8

end CoreConfig

/-- The name of a register. -/
abbrev RegIdx (cfg : CoreConfig) := BitVec cfg.regWidth

section Fields

variable (cfg : CoreConfig) (inst : BitVec 32)

def rd : RegIdx cfg := inst.extractLsb' 7 cfg.regWidth

def rs1 : RegIdx cfg := inst.extractLsb' 15 cfg.regWidth

def rs2 : RegIdx cfg := inst.extractLsb' 20 cfg.regWidth

/-- The third source of a fused multiply-add, `inst_data_i[27 + RegWidth - 1:27]`. -/
def rs3Field : RegIdx cfg := inst.extractLsb' 27 cfg.regWidth

def iimm : Word := (inst.extractLsb' 20 12).signExtend 32

def uimm : Word := inst.extractLsb' 12 20 ++ (0 : BitVec 12)

def jimm : Word :=
  (inst.extractLsb' 31 1 ++ inst.extractLsb' 12 8 ++ inst.extractLsb' 20 1 ++
    inst.extractLsb' 21 10 ++ (0 : BitVec 1)).signExtend 32

def bimm : Word :=
  (inst.extractLsb' 31 1 ++ inst.extractLsb' 7 1 ++ inst.extractLsb' 25 6 ++
    inst.extractLsb' 8 4 ++ (0 : BitVec 1)).signExtend 32

def simm : Word := (inst.extractLsb' 25 7 ++ inst.extractLsb' 7 5).signExtend 32

/-- The immediate of the immediate branches. -/
def pbimm : Word := (inst.extractLsb' 20 5).signExtend 32

def csrSourceDest : BitVec 12 := inst.extractLsb' 20 12

end Fields

def csrSsr : BitVec 12 := 0x7c0

inductive NextPc where
  | consec
  | alu
  | exception
  deriving DecidableEq, Repr

inductive RdSelect where
  | rdAlu
  | rdConsecPc
  | rdBypass
  deriving DecidableEq, Repr

/-- What `rd_bypass` is taken from. -/
inductive Bypass where
  | zero
  | uimm
  | csr
  deriving DecidableEq, Repr

/-- The outputs of the decoder. `accQvalid` and `fence` stand for an `acc_qvalid_o` that
follows `valid_instr` and a `fence_stall` that follows `!lsu_empty`. -/
structure Decoded where
  illegalInst : Bool := false
  aluOp : AluOp := .add
  opaSelect : OpSelect := .none
  opbSelect : OpSelect := .none
  opcSelect : OpSelect := .none
  nextPc : NextPc := .consec
  rdSelect : RdSelect := .rdAlu
  writeRd : Bool := true
  usesRd : Bool := true
  writeRs1 : Bool := false
  rdBypass : Bypass := .zero
  zeroLsb : Bool := false
  isBranch : Bool := false
  isLoad : Bool := false
  isStore : Bool := false
  isPostincr : Bool := false
  isSigned : Bool := false
  lsSize : LsSize := .byte
  lsAmo : AmoOp := .none
  accQvalid : Bool := false
  accQaddr : AccAddr := .xpulpIpu
  accRegisterRd : Bool := false
  csrEn : Bool := false
  fence : Bool := false
  isWfi : Bool := false

def illegal : Decoded where
  illegalInst := true

def FpThird.select : FpThird → OpSelect
  | .none => .none
  | .rs3 => .reg
  | .rd => .regRd

def Branch.decode (cfg : CoreConfig) (inst : BitVec 32) : Branch → Decoded
  | .arith op imm =>
      { aluOp := op, opaSelect := .reg, opbSelect := if imm then .iImmediate else .reg }
  | .lui => { rdSelect := .rdBypass, rdBypass := .uimm }
  | .auipc => { opaSelect := .uImmediate, opbSelect := .pc }
  | .jal =>
      { rdSelect := .rdConsecPc, opaSelect := .jImmediate, opbSelect := .pc, nextPc := .alu }
  | .jalr =>
      { rdSelect := .rdConsecPc, opaSelect := .reg, opbSelect := .iImmediate, nextPc := .alu
        zeroLsb := true }
  | .branch op =>
      { isBranch := true, writeRd := false, usesRd := false, aluOp := op, opaSelect := .reg
        opbSelect := .reg }
  | .store size =>
      { writeRd := false, usesRd := false, isStore := true, lsSize := size, opaSelect := .reg
        opbSelect := .sImmediate }
  | .load size signed =>
      { writeRd := false, isLoad := true, isSigned := signed, lsSize := size, opaSelect := .reg
        opbSelect := .iImmediate }
  | .csrWrite imm =>
      { opaSelect := if imm then .csrImmediate else .reg, rdSelect := .rdBypass
        rdBypass := .csr, csrEn := true }
  | .csrModify op imm =>
      -- enabling the stream registers is left to a unit outside the core
      if imm && csrSourceDest inst == csrSsr then { writeRd := false, accQvalid := true }
      else
        { aluOp := op, opaSelect := if imm then .csrImmediate else .reg, opbSelect := .csr
          rdSelect := .rdBypass, rdBypass := .csr, csrEn := true }
  | .environment => { writeRd := false, usesRd := false }
  | .fence => { writeRd := false, fence := true }
  | .wfi => { isWfi := true }
  | .amo op =>
      { aluOp := .bypassA, writeRd := false, isLoad := true, isSigned := true, lsSize := .word
        lsAmo := op, opaSelect := .reg, opbSelect := .reg }
  | .mulDiv =>
      { writeRd := false, accQvalid := true, opaSelect := .reg, opbSelect := .reg
        accRegisterRd := true }
  | .fp fmt divsqrt third =>
      if cfg.fpEnabled fmt divsqrt then
        { writeRd := false, accQvalid := true, opaSelect := .reg, opbSelect := .reg
          opcSelect := third.select, accRegisterRd := true
          accQaddr := if divsqrt then .fpDivsqrt else .fpSs }
      else illegal
  | .pulpLoad size signed reg post =>
      if cfg.xpulpimg then
        { writeRd := false, writeRs1 := post, isLoad := true, isPostincr := post
          isSigned := signed, lsSize := size, opaSelect := .reg
          opbSelect := if reg then .reg else .iImmediate }
      else illegal
  | .pulpStore size reg post =>
      if cfg.xpulpimg then
        -- with the offset in a register, `rd` is that register, and the data in `rs2` is
        -- checked as the third operand
        { writeRd := false, usesRd := reg, writeRs1 := post, isStore := true, isPostincr := post
          lsSize := size, opaSelect := .reg
          opbSelect := if reg then .regRd else .sImmediate
          opcSelect := if reg then .regRs2 else .none }
      else illegal
  | .immBranch op =>
      if cfg.xpulpimg then
        { isBranch := true, writeRd := false, usesRd := false, aluOp := op, opaSelect := .reg
          opbSelect := .pbImmediate }
      else illegal
  | .pulpIpu second third =>
      if cfg.xpulpimg then
        { writeRd := false, accQvalid := true, opaSelect := .reg
          opbSelect := if second then .reg else .none
          opcSelect := if third then .reg else .none, accRegisterRd := true }
      else illegal

def decode (cfg : CoreConfig) (inst : BitVec 32) : Decoded :=
  match rowOf inst with
  | some r => r.branch.decode cfg inst
  | none => illegal

end TeraNoC.Snitch
