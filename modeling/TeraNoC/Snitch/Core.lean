import TeraNoC.Hw.Wfi
import TeraNoC.Snitch.Lsu

/-!
# The integer core (`snitch`)

One clock cycle of the core. There is no pipeline: the instruction on the fetch port is
decoded, reads its registers and is issued in the cycle in which nothing holds it back.
Loads, atomics and offloaded instructions leave their destination marked busy in the
scoreboard, and their results come back through the load/store unit and the
accelerator port in any order. The signals below keep their names from the source; all
of them are functions of the state and of the inputs of the cycle.
-/

namespace TeraNoC.Snitch

open TeraNoC.Hw TeraNoC.Lib

/-! ## The ALU -/

/-- The shifter: a right shift of 33 bits, whose top bit is the sign of an arithmetic
shift. -/
def shiftRight (arithmetic : Bool) (a : Word) (amount : BitVec 5) : Word :=
  ((BitVec.ofBool (a.msb && arithmetic) ++ a : BitVec 33).sshiftRight amount.toNat).setWidth 32

/-- A flag on the lowest bit of the result. -/
def flag (b : Bool) : Word := (BitVec.ofBool b).setWidth 32

def alu (op : AluOp) (opa opb : Word) : Word :=
  let signed : BitVec 33 := opa.signExtend 33
  let unsigned : BitVec 33 := opa.setWidth 33
  let difference := signed + -opb.signExtend 33
  let unsignedDifference := unsigned + -opb.setWidth 33
  let amount := opb.extractLsb' 0 5
  match op with
  | .add => (signed + opb.signExtend 33).setWidth 32
  | .sub => difference.setWidth 32
  | .slt => flag (difference.getLsbD 32)
  | .ge => flag (!difference.getLsbD 32)
  | .sltu => flag (unsignedDifference.getLsbD 32)
  | .geu => flag (!unsignedDifference.getLsbD 32)
  | .sll => (shiftRight false opa.reverse amount).reverse
  | .srl => shiftRight false opa amount
  | .sra => shiftRight true opa amount
  | .lxor => opa ^^^ opb
  | .land => opa &&& opb
  | .lnand => ~~~opa &&& opb
  | .lor => opa ||| opb
  | .eq => flag (difference == 0)
  | .neq => flag (difference != 0)
  | .bypassA => opa

/-! ## The register file -/

structure WritePort (cfg : CoreConfig) where
  we : Bool
  waddr : RegIdx cfg
  wdata : Word

/-- The registers, of which the first is always zero. -/
@[ext]
structure RegFile (cfg : CoreConfig) where
  mem : RegIdx cfg → Word
  zero : mem 0 = 0

namespace RegFile

variable {cfg : CoreConfig}

def reset : RegFile cfg where
  mem _ := 0
  zero := rfl

/-- What the ports leave in register `a`: the last of those that write it wins. -/
def written (ports : List (WritePort cfg)) (a : RegIdx cfg) (v : Word) : Word :=
  ports.foldl (fun v p => if p.we && p.waddr == a then p.wdata else v) v

def write (r : RegFile cfg) (ports : List (WritePort cfg)) : RegFile cfg where
  mem a := if a = 0 then 0 else written ports a (r.mem a)
  zero := if_pos rfl

end RegFile

/-! ## State and ports -/

structure Fcsr where
  frm : BitVec 3
  fflags : BitVec 5
  deriving DecidableEq

structure CoreState {cfg : CoreConfig} (k : LsuCells cfg) where
  pc : Word
  wfi : WfiState
  sb : RegIdx cfg → Bool
  regs : RegFile cfg
  fcsr : Fcsr
  csrTrace : Word
  csrStackLimit : Word
  cycle : BitVec 64
  instret : BitVec 64
  stallIns : BitVec 32
  stallRaw : BitVec 32
  stallLsu : BitVec 32
  lsu : LsuState k

def CoreState.reset {cfg : CoreConfig} (k : LsuCells cfg) : CoreState k where
  pc := cfg.bootAddr
  wfi := .reset
  sb _ := false
  regs := .reset
  fcsr := ⟨0, 0⟩
  csrTrace := 0
  csrStackLimit := 0xffffffff
  cycle := 0
  instret := 0
  stallIns := 0
  stallRaw := 0
  stallLsu := 0
  lsu := .reset k

structure CoreIn (cfg : CoreConfig) where
  hartId : Word
  instData : BitVec 32
  instReady : Bool
  accQready : Bool
  accPdata : Word
  accPid : BitVec 5
  accPvalid : Bool
  dataQready : Bool
  dataPdata : Word
  dataPid : MetaId cfg
  dataPvalid : Bool
  wakeUpSync : Bool
  fpuStatus : BitVec 5

/-- A cycle in which every unit is ready and nothing comes back. -/
def CoreIn.present (cfg : CoreConfig) (inst : BitVec 32) : CoreIn cfg where
  hartId := 0
  instData := inst
  instReady := true
  accQready := true
  accPdata := 0
  accPid := 0
  accPvalid := false
  dataQready := true
  dataPdata := 0
  dataPid := ⟨0, cfg.numLoads_pos⟩
  dataPvalid := false
  wakeUpSync := false
  fpuStatus := 0

/-! ## Control and status registers -/

inductive Csr where
  | mhartid
  | trace
  | stacklimit
  | mcycle
  | minstret
  | mcycleh
  | minstreth
  | mhpmcounter3
  | mhpmcounter4
  | mhpmcounter5
  | fflags
  | frm
  | fcsr
  deriving DecidableEq, Repr

def csrTable : List (BitVec 12 × Csr) :=
  [(0xf14, .mhartid), (0x7d0, .trace), (0x7d1, .stacklimit), (0xb00, .mcycle),
    (0xb02, .minstret), (0xb80, .mcycleh), (0xb82, .minstreth), (0xb03, .mhpmcounter3),
    (0xb04, .mhpmcounter4), (0xb05, .mhpmcounter5), (0x001, .fflags), (0x002, .frm),
    (0x003, .fcsr)]

def csrOf (addr : BitVec 12) : Option Csr :=
  (csrTable.find? fun e => e.1 == addr).map Prod.snd

namespace CoreState

variable {cfg : CoreConfig} {k : LsuCells cfg} (s : CoreState k) (i : CoreIn cfg)

/-- The register the presented instruction addresses, if it is one that accesses a
control and status register at all. -/
def csrAccess (cfg : CoreConfig) (inst : BitVec 32) : Option Csr :=
  if (decode cfg inst).csrEn then csrOf (csrSourceDest inst) else none

def csrRvalue : Word :=
  match csrAccess cfg i.instData with
  | some .mhartid => i.hartId
  | some .trace => s.csrTrace
  | some .stacklimit => s.csrStackLimit
  | some .mcycle => s.cycle.extractLsb' 0 32
  | some .minstret => s.instret.extractLsb' 0 32
  | some .mcycleh => s.cycle.extractLsb' 32 32
  | some .minstreth => s.instret.extractLsb' 32 32
  | some .mhpmcounter3 => s.stallIns
  | some .mhpmcounter4 => s.stallLsu
  | some .mhpmcounter5 => s.stallRaw
  | some .fflags => if cfg.zfinx then s.fcsr.fflags.setWidth 32 else 0
  | some .frm => if cfg.zfinx then s.fcsr.frm.setWidth 32 else 0
  | some .fcsr => if cfg.zfinx then (s.fcsr.frm ++ s.fcsr.fflags).setWidth 32 else 0
  | none => 0

/-! ## Operands -/

/-- `rs3`, by the unit the instruction is for. -/
def rs3 (cfg : CoreConfig) (inst : BitVec 32) : RegIdx cfg :=
  match (decode cfg inst).accQaddr with
  | .fpSs | .fpDivsqrt => rs3Field cfg inst
  | .xpulpIpu => if cfg.xpulpimg then rd cfg inst else 0

/-- `gpr_raddr[2]`. With the floating-point extension the first alternative is the one
taken: `ZFINX || XPULPIMG && (opc_select == RegRd)`. -/
def gprRaddr2 (cfg : CoreConfig) (inst : BitVec 32) : RegIdx cfg :=
  if cfg.zfinx then
    if cfg.zfinx || cfg.xpulpimg && (decode cfg inst).opcSelect == .regRd then rd cfg inst
    else if cfg.zfinx || cfg.xpulpimg && (decode cfg inst).opcSelect == .reg then rs3 cfg inst
    else 0
  else rd cfg inst

def gprRdata0 : Word := s.regs.mem (rs1 cfg i.instData)

def gprRdata1 : Word := s.regs.mem (rs2 cfg i.instData)

def gprRdata2 : Word :=
  if cfg.thirdReadPort then s.regs.mem (gprRaddr2 cfg i.instData) else 0

def opa : Word :=
  match (decode cfg i.instData).opaSelect with
  | .reg => s.gprRdata0 i
  | .uImmediate => uimm i.instData
  | .jImmediate => jimm i.instData
  | .csrImmediate => (rs1 cfg i.instData).setWidth 32
  | _ => 0

def opb : Word :=
  match (decode cfg i.instData).opbSelect with
  | .reg => s.gprRdata1 i
  | .iImmediate => iimm i.instData
  | .sfImmediate | .sImmediate => simm i.instData
  | .pc => s.pc
  | .csr => s.csrRvalue i
  | .pbImmediate => pbimm i.instData
  | .regRd => s.gprRdata2 i
  | _ => 0

def aluResult : Word := alu (decode cfg i.instData).aluOp (s.opa i) (s.opb i)

/-! ## What holds an instruction back -/

def lsMisaligned : Bool :=
  match (decode cfg i.instData).lsSize with
  | .byte => false
  | .halfWord => (s.aluResult i).extractLsb' 0 1 != 0
  | .word => (s.aluResult i).extractLsb' 0 2 != 0
  | .double => (s.aluResult i).extractLsb' 0 3 != 0

/-- `ld_addr_misaligned | st_addr_misaligned`. -/
def addrMisaligned : Bool :=
  s.lsMisaligned i && ((decode cfg i.instData).isLoad || (decode cfg i.instData).isStore)

def exception : Bool := (decode cfg i.instData).illegalInst || s.addrMisaligned i

def writeRd : Bool := (decode cfg i.instData).writeRd && !s.exception i

def usesRd : Bool := (decode cfg i.instData).usesRd && !s.exception i

def writeRs1 : Bool := (decode cfg i.instData).writeRs1 && !s.exception i

def nextPc : NextPc := if s.exception i then .exception else (decode cfg i.instData).nextPc

def opaReady : Bool :=
  (decode cfg i.instData).opaSelect != .reg || !s.sb (rs1 cfg i.instData)

def opbReady : Bool :=
  let select := (decode cfg i.instData).opbSelect
  (select != .reg && select != .sImmediate || !s.sb (rs2 cfg i.instData)) &&
    (select != .regRd || !s.sb (rd cfg i.instData))

def opcReady : Bool :=
  let select := (decode cfg i.instData).opcSelect
  if cfg.zfinx then
    (select != .reg && select != .sImmediate || !s.sb (rs3 cfg i.instData)) &&
      (select != .regRs2 || !s.sb (rs2 cfg i.instData))
  else
    (select != .reg || !s.sb (rd cfg i.instData)) &&
      (select != .regRs2 || !s.sb (rs2 cfg i.instData))

def operandsReady : Bool := s.opaReady i && s.opbReady i && s.opcReady i

def dstReady : Bool := !s.usesRd i || (s.usesRd i && !s.sb (rd cfg i.instData))

def validInstr : Bool := (i.instReady && !s.wfi.wfi) && s.operandsReady i && s.dstReady i

def accQvalid : Bool :=
  (decode cfg i.instData).accQvalid && s.validInstr i && !s.exception i

def accStall : Bool := s.accQvalid i && !i.accQready

def lsuQvalid : Bool :=
  s.validInstr i && ((decode cfg i.instData).isLoad || (decode cfg i.instData).isStore) &&
    !s.addrMisaligned i

def lsuStall : Bool := s.lsuQvalid i && !s.lsu.lsuQready

def fenceStall : Bool := (decode cfg i.instData).fence && !s.lsu.lsuEmpty

def stall : Bool := !s.validInstr i || s.lsuStall i || s.accStall i || s.fenceStall i

def consecPc : Word :=
  s.pc + if (decode cfg i.instData).isBranch && (s.aluResult i).getLsbD 0 then bimm i.instData
    else 4

/-! ## The request to the load/store unit -/

def lsuQaddr : Word :=
  if s.lsuQvalid i then
    if (decode cfg i.instData).isPostincr then s.gprRdata0 i else s.aluResult i
  else 0

def lsuQdata : Word :=
  if s.lsuQvalid i &&
      ((decode cfg i.instData).isStore || (decode cfg i.instData).lsAmo != .none) then
    s.gprRdata1 i
  else 0

def lsuQtag : RegIdx cfg :=
  if s.lsuQvalid i &&
      (!(decode cfg i.instData).isStore || (decode cfg i.instData).lsAmo != .none) then
    rd cfg i.instData
  else 0

def lsuReq : LsuReq cfg where
  qtag := s.lsuQtag i
  qwrite := (decode cfg i.instData).isStore
  qsigned := (decode cfg i.instData).isSigned
  qaddr := s.lsuQaddr i
  qdata := s.lsuQdata i
  qsize := (decode cfg i.instData).lsSize
  qamo := (decode cfg i.instData).lsAmo

/-- The inputs of the load/store unit, but for whether its answer is taken. -/
def lsuPort (pready : Bool) : LsuIn cfg where
  req := s.lsuReq i
  qvalid := s.lsuQvalid i
  pready := pready
  dataQready := i.dataQready
  dataPdata := i.dataPdata
  dataPid := i.dataPid
  dataPvalid := i.dataPvalid

/-! ## Write-back -/

/-- The instruction writes its post-incremented base. -/
def retireP : Bool := s.writeRs1 i && !s.stall i && rs1 cfg i.instData != 0

/-- The instruction writes its destination in the cycle in which it is issued. -/
def retireI : Bool := s.writeRd i && s.validInstr i && rd cfg i.instData != 0

def aluWriteback : Word :=
  match (decode cfg i.instData).rdSelect with
  | .rdAlu => s.aluResult i
  | .rdConsecPc => s.consecPc i
  | .rdBypass =>
      match (decode cfg i.instData).rdBypass with
      | .zero => 0
      | .uimm => uimm i.instData
      | .csr => s.csrRvalue i

end CoreState

/-- The write ports, and which of the two answers is taken. -/
structure WriteBack (cfg : CoreConfig) where
  ports : List (WritePort cfg)
  lsuPready : Bool
  accPready : Bool
  retireLoad : Bool
  retireAcc : Bool

/-- `Write-Back`: the core's own result, a load and an accelerator's result compete for
one port or two. -/
def writeBack {cfg : CoreConfig} (two : Bool) (own load acc : WritePort cfg) : WriteBack cfg :=
  if two then
    if own.we then
      if load.we then ⟨[own, load], true, false, true, false⟩
      else if acc.we then ⟨[own, acc], true, true, false, true⟩
      else ⟨[own, load], true, false, false, false⟩
    else ⟨[if acc.we then acc else own, load], true, acc.we, load.we, acc.we⟩
  else
    if own.we then ⟨[own], false, false, false, false⟩
    else if load.we then ⟨[load], true, false, true, false⟩
    else if acc.we then ⟨[acc], true, true, false, true⟩
    else ⟨[own], true, false, false, false⟩

namespace CoreState

variable {cfg : CoreConfig} {k : LsuCells cfg} (s : CoreState k) (i : CoreIn cfg)

def ownPort : WritePort cfg where
  we := s.retireI i || s.retireP i
  waddr := if s.retireP i then rs1 cfg i.instData else rd cfg i.instData
  wdata := s.aluWriteback i

def loadPort : WritePort cfg where
  we := s.lsu.lsuPvalid (s.lsuPort i false)
  waddr := s.lsu.lsuPtag (s.lsuPort i false)
  wdata := s.lsu.ldResult (s.lsuPort i false)

def accPort (i : CoreIn cfg) : WritePort cfg where
  we := i.accPvalid
  waddr := i.accPid.setWidth cfg.regWidth
  wdata := i.accPdata

def writeBack : WriteBack cfg :=
  Snitch.writeBack cfg.twoWritePorts (s.ownPort i) (s.loadPort i) (accPort i)

/-! ## The clock edge -/

def pcD : Word :=
  if !s.stall i && !s.wfi.wfi then
    match s.nextPc i with
    | .consec => s.consecPc i
    | .alu => s.aluResult i &&& ~~~(BitVec.ofBool (decode cfg i.instData).zeroLsb).setWidth 32
    | .exception => cfg.mtvec
  else s.pc

/-- The instruction leaves its destination busy. -/
def marks : Bool :=
  ((decode cfg i.instData).isLoad || (decode cfg i.instData).accRegisterRd) && !s.stall i &&
    !s.exception i

def sbD (r : RegIdx cfg) : Bool :=
  if r = 0 then false
  else if (s.writeBack i).retireAcc && i.accPid.setWidth cfg.regWidth == r then false
  else if s.marks i && rd cfg i.instData == r then true
  else if (s.writeBack i).retireLoad && s.lsu.lsuPtag (s.lsuPort i false) == r then false
  else s.sb r

def fcsrD : Fcsr :=
  let flags := s.fcsr.fflags ||| i.fpuStatus
  match csrAccess cfg i.instData with
  | some .fflags =>
      if cfg.zfinx then ⟨s.fcsr.frm, (s.aluResult i).extractLsb' 0 5⟩ else ⟨s.fcsr.frm, flags⟩
  | some .frm =>
      if cfg.zfinx then ⟨(s.aluResult i).extractLsb' 0 3, flags⟩ else ⟨s.fcsr.frm, flags⟩
  | some .fcsr =>
      if cfg.zfinx then ⟨(s.aluResult i).extractLsb' 5 3, (s.aluResult i).extractLsb' 0 5⟩
      else ⟨s.fcsr.frm, flags⟩
  | _ => ⟨s.fcsr.frm, flags⟩

def csrTraceEn (cfg : CoreConfig) (inst : BitVec 32) : Bool := csrAccess cfg inst == some .trace

def csrStackLimitEn (cfg : CoreConfig) (inst : BitVec 32) : Bool :=
  csrAccess cfg inst == some .stacklimit

def next : CoreState k where
  pc := s.pcD i
  wfi := s.wfi.next ((decode cfg i.instData).isWfi && s.validInstr i) i.wakeUpSync
  sb := s.sbD i
  regs := s.regs.write (s.writeBack i).ports
  -- the register exists with the floating-point extension only
  fcsr := if cfg.zfinx then s.fcsrD i else s.fcsr
  csrTrace := if csrTraceEn cfg i.instData then s.aluResult i else s.csrTrace
  csrStackLimit := if csrStackLimitEn cfg i.instData then s.aluResult i else s.csrStackLimit
  cycle := s.cycle + 1
  instret := if !s.stall i then s.instret + 1 else s.instret
  stallIns := if s.stall i && !i.instReady && !s.wfi.wfi then s.stallIns + 1 else s.stallIns
  stallRaw := if !s.operandsReady i || !s.dstReady i then s.stallRaw + 1 else s.stallRaw
  stallLsu := if s.lsuStall i then s.stallLsu + 1 else s.stallLsu
  lsu := s.lsu.next (s.lsuPort i (s.writeBack i).lsuPready)

/-- The state after the cycles `is`. -/
def after (is : List (CoreIn cfg)) : CoreState k := is.foldl next s

end CoreState

end TeraNoC.Snitch
