import TeraNoC.Hw.TcdmAdapter

/-!
# The instruction words of Snitch (`riscv_instr`, `snitch`)

What the core's decoder distinguishes. An instruction word is recognised by the bits
its pattern fixes, and the patterns the core knows are one table, in the order of the
decoder's cases. Each row says which case of the decoder the instruction belongs to:
cases that differ in a constant only are one constructor of `Branch` with the constant
as its argument.
-/

namespace TeraNoC.Snitch

open TeraNoC.Hw

inductive AluOp where
  | add | sub
  | sll | srl | sra
  | lxor | lor | land | lnand
  | eq | neq | ge | geu
  | slt | sltu
  | bypassA
  deriving DecidableEq, Repr

inductive LsSize where
  | byte
  | halfWord
  | word
  | double
  deriving DecidableEq, Repr

/-- `acc_addr_e`: the units instructions are offloaded to. -/
inductive AccAddr where
  | xpulpIpu
  | fpSs
  | fpDivsqrt
  deriving DecidableEq, Repr

inductive OpSelect where
  | none | reg
  | iImmediate | uImmediate | jImmediate | sImmediate | sfImmediate
  | pc | csr | csrImmediate
  | pbImmediate
  | regRd | regRs2
  deriving DecidableEq, Repr

/-- The floating-point formats: single, half and quarter precision, and the vectors of
the two small ones. -/
inductive FpFormat where
  | s | h | b | vh | vb
  deriving DecidableEq, Repr

/-- The third operand of a floating-point instruction: none, the register in the upper
bits of a fused multiply-add, or the destination of an accumulating one. -/
inductive FpThird where
  | none | rs3 | rd
  deriving DecidableEq, Repr

/-- The cases of the decoder. -/
inductive Branch where
  | arith (op : AluOp) (imm : Bool)
  | lui
  | auipc
  | jal
  | jalr
  | branch (op : AluOp)
  | store (size : LsSize)
  | load (size : LsSize) (signed : Bool)
  | csrWrite (imm : Bool)
  | csrModify (op : AluOp) (imm : Bool)
  | environment
  | fence
  | wfi
  | amo (op : AmoOp)
  | mulDiv
  /-- Offloaded to a floating-point unit, which may be the one for division and roots. -/
  | fp (fmt : FpFormat) (divsqrt : Bool) (third : FpThird)
  /-- A load with the offset in a register, or with the base incremented after it. -/
  | pulpLoad (size : LsSize) (signed reg post : Bool)
  | pulpStore (size : LsSize) (reg post : Bool)
  | immBranch (op : AluOp)
  /-- Offloaded to the integer unit, with or without the operands `rs2` and `rd`. -/
  | pulpIpu (second third : Bool)
  deriving DecidableEq, Repr

inductive Op where
  | add | addi | sub | xor | xori | or | ori | and | andi | slt | slti | sltu | sltiu | sll | srl
  | sra | slli | srli | srai | lui | auipc | jal | jalr | beq | bne | blt | bltu | bge | bgeu
  | sb | sh | sw | lb | lh | lw | lbu | lhu | csrrw | csrrwi | csrrs | csrrsi | csrrc | csrrci
  | ecall | ebreak | fence | wfi | amoaddW | amoxorW | amoorW | amoandW | amominW | amomaxW
  | amominuW | amomaxuW | amoswapW | lrW | scW | mul | mulh | mulhsu | mulhu | div | divu | rem
  | remu | mulw | divw | divuw | remw | remuw | faddS | fsubS | fmulS | fsgnjS | fsgnjnS
  | fsgnjxS | fminS | fmaxS | fdivS | fsqrtS | fleS | fltS | feqS | fcvtWS | fcvtWuS | fmvXW
  | fclassS | fcvtSW | fcvtSWu | fmvWX | fmaddS | fmsubS | fnmsubS | fnmaddS | faddH | fsubH
  | fmulH | fsgnjH | fsgnjnH | fsgnjxH | fminH | fmaxH | fdivH | fsqrtH | fcvtSH | fcvtHS | fleH
  | fltH | feqH | fcvtWH | fcvtWuH | fmvXH | fclassH | fcvtHW | fcvtHWu | fmvHX | fmaddH | fmsubH
  | fnmsubH | fnmaddH | vfaddH | vfaddRH | vfsubH | vfsubRH | vfmulH | vfmulRH | vfminH | vfminRH
  | vfmaxH | vfmaxRH | vfclassH | vfsgnjH | vfsgnjRH | vfsgnjnH | vfsgnjnRH | vfsgnjxH
  | vfsgnjxRH | vfdivH | vfdivRH | vfsqrtH | vfcvtHS | vfcvtuHS | vfcvtSH | vfcvtuSH | vfeqH
  | vfeqRH | vfneH | vfneRH | vfltH | vfltRH | vfgeH | vfgeRH | vfleH | vfleRH | vfgtH | vfgtRH
  | vfmvXH | vfmvHX | vfcvtXH | vfcvtXuH | vfcvtHX | vfcvtHXu | vfmacH | vfmacRH | vfmreH
  | vfmreRH | vfcpkaHS | vfdotpexSH | vfdotpexSRH | vfndotpexSH | vfndotpexSRH | vfsumexSH
  | vfnsumexSH | fcdotpexSH | fcndotpexSH | fccdotpexSH | fccndotpexSH | faddB | fsubB | fmulB
  | fsgnjB | fsgnjnB | fsgnjxB | fminB | fmaxB | fdivB | fsqrtB | fcvtSB | fcvtBS | fcvtHB
  | fcvtBH | fleB | fltB | feqB | fcvtWB | fcvtWuB | fmvXB | fclassB | fcvtBW | fcvtBWu | fmaddB
  | fmsubB | fnmsubB | fnmaddB | vfaddB | vfaddRB | vfsubB | vfsubRB | vfmulB | vfmulRB | vfminB
  | vfminRB | vfmaxB | vfmaxRB | vfclassB | vfsgnjB | vfsgnjRB | vfsgnjnB | vfsgnjnRB | vfsgnjxB
  | vfsgnjxRB | vfdivB | vfdivRB | vfsqrtB | vfcvtBS | vfcvtuBS | vfcvtHB | vfcvtuHB | vfcvtBH
  | vfcvtuBH | vfeqB | vfeqRB | vfneB | vfneRB | vfltB | vfltRB | vfgeB | vfgeRB | vfleB | vfleRB
  | vfgtB | vfgtRB | vfmvXB | vfmvBX | vfcvtXB | vfcvtXuB | vfcvtBX | vfcvtBXu | vfmacB | vfmacRB
  | vfmreB | vfmreRB | vfcpkaBS | vfcpkbBS | vfdotpexHB | vfdotpexHRB | vfndotpexHB
  | vfndotpexHRB | vfsumexHB | vfnsumexHB | vfdotpexaSB | vfdotpexbSB | vfdotpexaSRB
  | vfdotpexbSRB | pLbIrpost | pLbuIrpost | pLhIrpost | pLhuIrpost | pLwIrpost | pLbRrpost
  | pLbuRrpost | pLhRrpost | pLhuRrpost | pLwRrpost | pLbRr | pLbuRr | pLhRr | pLhuRr | pLwRr
  | pSbIrpost | pShIrpost | pSwIrpost | pSbRrpost | pShRrpost | pSwRrpost | pSbRr | pShRr | pSwRr
  | pBeqimm | pBneimm | pAbs | pExths | pExthz | pExtbs | pExtbz | pClip | pClipu | pvAddSciH
  | pvAddSciB | pvSubSciH | pvSubSciB | pvAvgSciH | pvAvgSciB | pvAvguSciH | pvAvguSciB
  | pvMinSciH | pvMinSciB | pvMinuSciH | pvMinuSciB | pvMaxSciH | pvMaxSciB | pvMaxuSciH
  | pvMaxuSciB | pvSrlSciH | pvSrlSciB | pvSraSciH | pvSraSciB | pvSllSciH | pvSllSciB | pvOrSciH
  | pvOrSciB | pvXorSciH | pvXorSciB | pvAndSciB | pvAndSciH | pvAbsH | pvAbsB | pvExtractH
  | pvExtractB | pvExtractuH | pvExtractuB | pvDotupSciH | pvDotupSciB | pvDotuspSciH
  | pvDotuspSciB | pvDotspSciH | pvDotspSciB | pSlet | pSletu | pMin | pMinu | pMax | pMaxu
  | pClipr | pClipur | pvAddH | pvAddScH | pvAddB | pvAddScB | pvSubH | pvSubScH | pvSubB
  | pvSubScB | pvAvgH | pvAvgScH | pvAvgB | pvAvgScB | pvAvguH | pvAvguScH | pvAvguB | pvAvguScB
  | pvMinH | pvMinScH | pvMinB | pvMinScB | pvMinuH | pvMinuScH | pvMinuB | pvMinuScB | pvMaxH
  | pvMaxScH | pvMaxB | pvMaxScB | pvMaxuH | pvMaxuScH | pvMaxuB | pvMaxuScB | pvSrlH | pvSrlScH
  | pvSrlB | pvSrlScB | pvSraH | pvSraScH | pvSraB | pvSraScB | pvSllH | pvSllScH | pvSllB
  | pvSllScB | pvOrH | pvOrScH | pvOrB | pvOrScB | pvXorH | pvXorScH | pvXorB | pvXorScB | pvAndH
  | pvAndScH | pvAndB | pvAndScB | pvDotupH | pvDotupScH | pvDotupB | pvDotupScB | pvDotuspH
  | pvDotuspScH | pvDotuspB | pvDotuspScB | pvDotspH | pvDotspScH | pvDotspB | pvDotspScB
  | pvInsertH | pvInsertB | pvSdotupSciH | pvSdotupSciB | pvSdotuspSciH | pvSdotuspSciB
  | pvSdotspSciH | pvSdotspSciB | pMac | pMsu | pvSdotupH | pvSdotupScH | pvSdotupB | pvSdotupScB
  | pvSdotuspH | pvSdotuspScH | pvSdotuspB | pvSdotuspScB | pvSdotspH | pvSdotspScH | pvSdotspB
  | pvSdotspScB | pvShuffle2H | pvShuffle2B | pvPack | pvPackH
  deriving DecidableEq, Repr

/-- One row of the table: the bits the pattern fixes, their values, and the case. -/
structure Row where
  op : Op
  mask : BitVec 32
  value : BitVec 32
  branch : Branch
  deriving DecidableEq

def Row.accepts (r : Row) (inst : BitVec 32) : Bool := inst &&& r.mask == r.value

def baseRows : List Row :=
  [ ⟨.add, 0xfe00707f, 0x00000033, .arith .add false⟩,
    ⟨.addi, 0x0000707f, 0x00000013, .arith .add true⟩,
    ⟨.sub, 0xfe00707f, 0x40000033, .arith .sub false⟩,
    ⟨.xor, 0xfe00707f, 0x00004033, .arith .lxor false⟩,
    ⟨.xori, 0x0000707f, 0x00004013, .arith .lxor true⟩,
    ⟨.or, 0xfe00707f, 0x00006033, .arith .lor false⟩,
    ⟨.ori, 0x0000707f, 0x00006013, .arith .lor true⟩,
    ⟨.and, 0xfe00707f, 0x00007033, .arith .land false⟩,
    ⟨.andi, 0x0000707f, 0x00007013, .arith .land true⟩,
    ⟨.slt, 0xfe00707f, 0x00002033, .arith .slt false⟩,
    ⟨.slti, 0x0000707f, 0x00002013, .arith .slt true⟩,
    ⟨.sltu, 0xfe00707f, 0x00003033, .arith .sltu false⟩,
    ⟨.sltiu, 0x0000707f, 0x00003013, .arith .sltu true⟩,
    ⟨.sll, 0xfe00707f, 0x00001033, .arith .sll false⟩,
    ⟨.srl, 0xfe00707f, 0x00005033, .arith .srl false⟩,
    ⟨.sra, 0xfe00707f, 0x40005033, .arith .sra false⟩,
    ⟨.slli, 0xfc00707f, 0x00001013, .arith .sll true⟩,
    ⟨.srli, 0xfc00707f, 0x00005013, .arith .srl true⟩,
    ⟨.srai, 0xfc00707f, 0x40005013, .arith .sra true⟩,
    ⟨.lui, 0x0000007f, 0x00000037, .lui⟩,
    ⟨.auipc, 0x0000007f, 0x00000017, .auipc⟩,
    ⟨.jal, 0x0000007f, 0x0000006f, .jal⟩,
    ⟨.jalr, 0x0000707f, 0x00000067, .jalr⟩,
    ⟨.beq, 0x0000707f, 0x00000063, .branch .eq⟩,
    ⟨.bne, 0x0000707f, 0x00001063, .branch .neq⟩,
    ⟨.blt, 0x0000707f, 0x00004063, .branch .slt⟩,
    ⟨.bltu, 0x0000707f, 0x00006063, .branch .sltu⟩,
    ⟨.bge, 0x0000707f, 0x00005063, .branch .ge⟩,
    ⟨.bgeu, 0x0000707f, 0x00007063, .branch .geu⟩,
    ⟨.sb, 0x0000707f, 0x00000023, .store .byte⟩,
    ⟨.sh, 0x0000707f, 0x00001023, .store .halfWord⟩,
    ⟨.sw, 0x0000707f, 0x00002023, .store .word⟩,
    ⟨.lb, 0x0000707f, 0x00000003, .load .byte true⟩,
    ⟨.lh, 0x0000707f, 0x00001003, .load .halfWord true⟩,
    ⟨.lw, 0x0000707f, 0x00002003, .load .word true⟩,
    ⟨.lbu, 0x0000707f, 0x00004003, .load .byte false⟩,
    ⟨.lhu, 0x0000707f, 0x00005003, .load .halfWord false⟩ ]

def systemRows : List Row :=
  [ ⟨.csrrw, 0x0000707f, 0x00001073, .csrWrite false⟩,
    ⟨.csrrwi, 0x0000707f, 0x00005073, .csrWrite true⟩,
    ⟨.csrrs, 0x0000707f, 0x00002073, .csrModify .lor false⟩,
    ⟨.csrrsi, 0x0000707f, 0x00006073, .csrModify .lor true⟩,
    ⟨.csrrc, 0x0000707f, 0x00003073, .csrModify .lnand false⟩,
    ⟨.csrrci, 0x0000707f, 0x00007073, .csrModify .lnand true⟩,
    ⟨.ecall, 0xffffffff, 0x00000073, .environment⟩,
    ⟨.ebreak, 0xffffffff, 0x00100073, .environment⟩,
    ⟨.fence, 0x0000707f, 0x0000000f, .fence⟩,
    ⟨.wfi, 0xffffffff, 0x10500073, .wfi⟩,
    ⟨.amoaddW, 0xf800707f, 0x0000202f, .amo .add⟩,
    ⟨.amoxorW, 0xf800707f, 0x2000202f, .amo .xor⟩,
    ⟨.amoorW, 0xf800707f, 0x4000202f, .amo .or⟩,
    ⟨.amoandW, 0xf800707f, 0x6000202f, .amo .and⟩,
    ⟨.amominW, 0xf800707f, 0x8000202f, .amo .min⟩,
    ⟨.amomaxW, 0xf800707f, 0xa000202f, .amo .max⟩,
    ⟨.amominuW, 0xf800707f, 0xc000202f, .amo .minu⟩,
    ⟨.amomaxuW, 0xf800707f, 0xe000202f, .amo .maxu⟩,
    ⟨.amoswapW, 0xf800707f, 0x0800202f, .amo .swap⟩,
    ⟨.lrW, 0xf9f0707f, 0x1000202f, .amo .lr⟩,
    ⟨.scW, 0xf800707f, 0x1800202f, .amo .sc⟩,
    ⟨.mul, 0xfe00707f, 0x02000033, .mulDiv⟩,
    ⟨.mulh, 0xfe00707f, 0x02001033, .mulDiv⟩,
    ⟨.mulhsu, 0xfe00707f, 0x02002033, .mulDiv⟩,
    ⟨.mulhu, 0xfe00707f, 0x02003033, .mulDiv⟩,
    ⟨.div, 0xfe00707f, 0x02004033, .mulDiv⟩,
    ⟨.divu, 0xfe00707f, 0x02005033, .mulDiv⟩,
    ⟨.rem, 0xfe00707f, 0x02006033, .mulDiv⟩,
    ⟨.remu, 0xfe00707f, 0x02007033, .mulDiv⟩,
    ⟨.mulw, 0xfe00707f, 0x0200003b, .mulDiv⟩,
    ⟨.divw, 0xfe00707f, 0x0200403b, .mulDiv⟩,
    ⟨.divuw, 0xfe00707f, 0x0200503b, .mulDiv⟩,
    ⟨.remw, 0xfe00707f, 0x0200603b, .mulDiv⟩,
    ⟨.remuw, 0xfe00707f, 0x0200703b, .mulDiv⟩ ]

def singleRows : List Row :=
  [ ⟨.faddS, 0xfe00007f, 0x00000053, .fp .s false .none⟩,
    ⟨.fsubS, 0xfe00007f, 0x08000053, .fp .s false .none⟩,
    ⟨.fmulS, 0xfe00007f, 0x10000053, .fp .s false .none⟩,
    ⟨.fsgnjS, 0xfe00707f, 0x20000053, .fp .s false .none⟩,
    ⟨.fsgnjnS, 0xfe00707f, 0x20001053, .fp .s false .none⟩,
    ⟨.fsgnjxS, 0xfe00707f, 0x20002053, .fp .s false .none⟩,
    ⟨.fminS, 0xfe00707f, 0x28000053, .fp .s false .none⟩,
    ⟨.fmaxS, 0xfe00707f, 0x28001053, .fp .s false .none⟩,
    ⟨.fdivS, 0xfe00007f, 0x18000053, .fp .s true .none⟩,
    ⟨.fsqrtS, 0xfff0007f, 0x58000053, .fp .s true .none⟩,
    ⟨.fleS, 0xfe00707f, 0xa0000053, .fp .s false .none⟩,
    ⟨.fltS, 0xfe00707f, 0xa0001053, .fp .s false .none⟩,
    ⟨.feqS, 0xfe00707f, 0xa0002053, .fp .s false .none⟩,
    ⟨.fcvtWS, 0xfff0007f, 0xc0000053, .fp .s false .none⟩,
    ⟨.fcvtWuS, 0xfff0007f, 0xc0100053, .fp .s false .none⟩,
    ⟨.fmvXW, 0xfff0707f, 0xe0000053, .fp .s false .none⟩,
    ⟨.fclassS, 0xfff0707f, 0xe0001053, .fp .s false .none⟩,
    ⟨.fcvtSW, 0xfff0007f, 0xd0000053, .fp .s false .none⟩,
    ⟨.fcvtSWu, 0xfff0007f, 0xd0100053, .fp .s false .none⟩,
    ⟨.fmvWX, 0xfff0707f, 0xf0000053, .fp .s false .none⟩,
    ⟨.fmaddS, 0x0600007f, 0x00000043, .fp .s false .rs3⟩,
    ⟨.fmsubS, 0x0600007f, 0x00000047, .fp .s false .rs3⟩,
    ⟨.fnmsubS, 0x0600007f, 0x0000004b, .fp .s false .rs3⟩,
    ⟨.fnmaddS, 0x0600007f, 0x0000004f, .fp .s false .rs3⟩ ]

def halfRows : List Row :=
  [ ⟨.faddH, 0xfe00007f, 0x04000053, .fp .h false .none⟩,
    ⟨.fsubH, 0xfe00007f, 0x0c000053, .fp .h false .none⟩,
    ⟨.fmulH, 0xfe00007f, 0x14000053, .fp .h false .none⟩,
    ⟨.fsgnjH, 0xfe00707f, 0x24000053, .fp .h false .none⟩,
    ⟨.fsgnjnH, 0xfe00707f, 0x24001053, .fp .h false .none⟩,
    ⟨.fsgnjxH, 0xfe00707f, 0x24002053, .fp .h false .none⟩,
    ⟨.fminH, 0xfe00707f, 0x2c000053, .fp .h false .none⟩,
    ⟨.fmaxH, 0xfe00707f, 0x2c001053, .fp .h false .none⟩,
    ⟨.fdivH, 0xfe00007f, 0x1c000053, .fp .h true .none⟩,
    ⟨.fsqrtH, 0xfff0007f, 0x5c000053, .fp .h true .none⟩,
    ⟨.fcvtSH, 0xfff0007f, 0x40200053, .fp .h false .none⟩,
    ⟨.fcvtHS, 0xfff0007f, 0x44000053, .fp .h false .none⟩,
    ⟨.fleH, 0xfe00707f, 0xa4000053, .fp .h false .none⟩,
    ⟨.fltH, 0xfe00707f, 0xa4001053, .fp .h false .none⟩,
    ⟨.feqH, 0xfe00707f, 0xa4002053, .fp .h false .none⟩,
    ⟨.fcvtWH, 0xfff0007f, 0xc4000053, .fp .h false .none⟩,
    ⟨.fcvtWuH, 0xfff0007f, 0xc4100053, .fp .h false .none⟩,
    ⟨.fmvXH, 0xfff0707f, 0xe4000053, .fp .h false .none⟩,
    ⟨.fclassH, 0xfff0707f, 0xe4001053, .fp .h false .none⟩,
    ⟨.fcvtHW, 0xfff0007f, 0xd4000053, .fp .h false .none⟩,
    ⟨.fcvtHWu, 0xfff0007f, 0xd4100053, .fp .h false .none⟩,
    ⟨.fmvHX, 0xfff0707f, 0xf4000053, .fp .h false .none⟩,
    ⟨.fmaddH, 0x0600007f, 0x04000043, .fp .h false .rs3⟩,
    ⟨.fmsubH, 0x0600007f, 0x04000047, .fp .h false .rs3⟩,
    ⟨.fnmsubH, 0x0600007f, 0x0400004b, .fp .h false .rs3⟩,
    ⟨.fnmaddH, 0x0600007f, 0x0400004f, .fp .h false .rs3⟩ ]

def vectorHalfRows : List Row :=
  [ ⟨.vfaddH, 0xfe00707f, 0x82002033, .fp .vh false .none⟩,
    ⟨.vfaddRH, 0xfe00707f, 0x82006033, .fp .vh false .none⟩,
    ⟨.vfsubH, 0xfe00707f, 0x84002033, .fp .vh false .none⟩,
    ⟨.vfsubRH, 0xfe00707f, 0x84006033, .fp .vh false .none⟩,
    ⟨.vfmulH, 0xfe00707f, 0x86002033, .fp .vh false .none⟩,
    ⟨.vfmulRH, 0xfe00707f, 0x86006033, .fp .vh false .none⟩,
    ⟨.vfminH, 0xfe00707f, 0x8a002033, .fp .vh false .none⟩,
    ⟨.vfminRH, 0xfe00707f, 0x8a006033, .fp .vh false .none⟩,
    ⟨.vfmaxH, 0xfe00707f, 0x8c002033, .fp .vh false .none⟩,
    ⟨.vfmaxRH, 0xfe00707f, 0x8c006033, .fp .vh false .none⟩,
    ⟨.vfclassH, 0xfff0707f, 0x98102033, .fp .vh false .none⟩,
    ⟨.vfsgnjH, 0xfe00707f, 0x9a002033, .fp .vh false .none⟩,
    ⟨.vfsgnjRH, 0xfe00707f, 0x9a006033, .fp .vh false .none⟩,
    ⟨.vfsgnjnH, 0xfe00707f, 0x9c002033, .fp .vh false .none⟩,
    ⟨.vfsgnjnRH, 0xfe00707f, 0x9c006033, .fp .vh false .none⟩,
    ⟨.vfsgnjxH, 0xfe00707f, 0x9e002033, .fp .vh false .none⟩,
    ⟨.vfsgnjxRH, 0xfe00707f, 0x9e006033, .fp .vh false .none⟩,
    ⟨.vfdivH, 0xfe00707f, 0x88002033, .fp .vh true .none⟩,
    ⟨.vfdivRH, 0xfe00707f, 0x88006033, .fp .vh true .none⟩,
    ⟨.vfsqrtH, 0xfff0707f, 0x8e002033, .fp .vh true .none⟩,
    ⟨.vfcvtHS, 0xfff0707f, 0x98402033, .fp .vh false .none⟩,
    ⟨.vfcvtuHS, 0xfff0707f, 0x98406033, .fp .vh false .none⟩,
    ⟨.vfcvtSH, 0xfff0707f, 0x98600033, .fp .vh false .none⟩,
    ⟨.vfcvtuSH, 0xfff0707f, 0x98604033, .fp .vh false .none⟩,
    ⟨.vfeqH, 0xfe00707f, 0xa0002033, .fp .vh false .none⟩,
    ⟨.vfeqRH, 0xfe00707f, 0xa0006033, .fp .vh false .none⟩,
    ⟨.vfneH, 0xfe00707f, 0xa2002033, .fp .vh false .none⟩,
    ⟨.vfneRH, 0xfe00707f, 0xa2006033, .fp .vh false .none⟩,
    ⟨.vfltH, 0xfe00707f, 0xa4002033, .fp .vh false .none⟩,
    ⟨.vfltRH, 0xfe00707f, 0xa4006033, .fp .vh false .none⟩,
    ⟨.vfgeH, 0xfe00707f, 0xa6002033, .fp .vh false .none⟩,
    ⟨.vfgeRH, 0xfe00707f, 0xa6006033, .fp .vh false .none⟩,
    ⟨.vfleH, 0xfe00707f, 0xa8002033, .fp .vh false .none⟩,
    ⟨.vfleRH, 0xfe00707f, 0xa8006033, .fp .vh false .none⟩,
    ⟨.vfgtH, 0xfe00707f, 0xaa002033, .fp .vh false .none⟩,
    ⟨.vfgtRH, 0xfe00707f, 0xaa006033, .fp .vh false .none⟩,
    ⟨.vfmvXH, 0xfff0707f, 0x98002033, .fp .vh false .none⟩,
    ⟨.vfmvHX, 0xfff0707f, 0x98006033, .fp .vh false .none⟩,
    ⟨.vfcvtXH, 0xfff0707f, 0x98202033, .fp .vh false .none⟩,
    ⟨.vfcvtXuH, 0xfff0707f, 0x98206033, .fp .vh false .none⟩,
    ⟨.vfcvtHX, 0xfff0707f, 0x98302033, .fp .vh false .none⟩,
    ⟨.vfcvtHXu, 0xfff0707f, 0x98306033, .fp .vh false .none⟩,
    ⟨.vfmacH, 0xfe00707f, 0x90002033, .fp .vh false .rd⟩,
    ⟨.vfmacRH, 0xfe00707f, 0x90006033, .fp .vh false .rd⟩,
    ⟨.vfmreH, 0xfe00707f, 0x92002033, .fp .vh false .rd⟩,
    ⟨.vfmreRH, 0xfe00707f, 0x92006033, .fp .vh false .rd⟩,
    ⟨.vfcpkaHS, 0xfe00707f, 0xb0002033, .fp .vh false .none⟩,
    ⟨.vfdotpexSH, 0xfe00707f, 0x96000033, .fp .vh false .rd⟩,
    ⟨.vfdotpexSRH, 0xfe00707f, 0x96004033, .fp .vh false .rd⟩,
    ⟨.vfndotpexSH, 0xfe00707f, 0xba000033, .fp .vh false .rd⟩,
    ⟨.vfndotpexSRH, 0xfe00707f, 0xba004033, .fp .vh false .rd⟩,
    ⟨.vfsumexSH, 0xfff0707f, 0x8f600033, .fp .vh false .rd⟩,
    ⟨.vfnsumexSH, 0xfff0707f, 0xaf600033, .fp .vh false .rd⟩,
    ⟨.fcdotpexSH, 0xfe00707f, 0x96000077, .fp .vh false .rd⟩,
    ⟨.fcndotpexSH, 0xfe00707f, 0x96004077, .fp .vh false .rd⟩,
    ⟨.fccdotpexSH, 0xfe00707f, 0xba000077, .fp .vh false .rd⟩,
    ⟨.fccndotpexSH, 0xfe00707f, 0xba004077, .fp .vh false .rd⟩ ]

def quarterRows : List Row :=
  [ ⟨.faddB, 0xfe00007f, 0x06000053, .fp .b false .none⟩,
    ⟨.fsubB, 0xfe00007f, 0x0e000053, .fp .b false .none⟩,
    ⟨.fmulB, 0xfe00007f, 0x16000053, .fp .b false .none⟩,
    ⟨.fsgnjB, 0xfe00707f, 0x26000053, .fp .b false .none⟩,
    ⟨.fsgnjnB, 0xfe00707f, 0x26001053, .fp .b false .none⟩,
    ⟨.fsgnjxB, 0xfe00707f, 0x26002053, .fp .b false .none⟩,
    ⟨.fminB, 0xfe00707f, 0x2e000053, .fp .b false .none⟩,
    ⟨.fmaxB, 0xfe00707f, 0x2e001053, .fp .b false .none⟩,
    ⟨.fdivB, 0xfe00007f, 0x1e000053, .fp .b true .none⟩,
    ⟨.fsqrtB, 0xfff0007f, 0x5e000053, .fp .b true .none⟩,
    ⟨.fcvtSB, 0xfff0707f, 0x40300053, .fp .b false .none⟩,
    ⟨.fcvtBS, 0xfff0007f, 0x46000053, .fp .b false .none⟩,
    ⟨.fcvtHB, 0xfff0707f, 0x44300053, .fp .b false .none⟩,
    ⟨.fcvtBH, 0xfff0007f, 0x46200053, .fp .b false .none⟩,
    ⟨.fleB, 0xfe00707f, 0xa6000053, .fp .b false .none⟩,
    ⟨.fltB, 0xfe00707f, 0xa6001053, .fp .b false .none⟩,
    ⟨.feqB, 0xfe00707f, 0xa6002053, .fp .b false .none⟩,
    ⟨.fcvtWB, 0xfff0007f, 0xc6000053, .fp .b false .none⟩,
    ⟨.fcvtWuB, 0xfff0007f, 0xc6100053, .fp .b false .none⟩,
    ⟨.fmvXB, 0xfff0707f, 0xe6000053, .fp .b false .none⟩,
    ⟨.fclassB, 0xfff0707f, 0xe6001053, .fp .b false .none⟩,
    ⟨.fcvtBW, 0xfff0007f, 0xd6000053, .fp .b false .none⟩,
    ⟨.fcvtBWu, 0xfff0007f, 0xd6100053, .fp .b false .none⟩,
    ⟨.fmaddB, 0x0600007f, 0x06000043, .fp .b false .rs3⟩,
    ⟨.fmsubB, 0x0600007f, 0x06000047, .fp .b false .rs3⟩,
    ⟨.fnmsubB, 0x0600007f, 0x0600004b, .fp .b false .rs3⟩,
    ⟨.fnmaddB, 0x0600007f, 0x0600004f, .fp .b false .rs3⟩ ]

def vectorQuarterRows : List Row :=
  [ ⟨.vfaddB, 0xfe00707f, 0x82003033, .fp .vb false .none⟩,
    ⟨.vfaddRB, 0xfe00707f, 0x82007033, .fp .vb false .none⟩,
    ⟨.vfsubB, 0xfe00707f, 0x84003033, .fp .vb false .none⟩,
    ⟨.vfsubRB, 0xfe00707f, 0x84007033, .fp .vb false .none⟩,
    ⟨.vfmulB, 0xfe00707f, 0x86003033, .fp .vb false .none⟩,
    ⟨.vfmulRB, 0xfe00707f, 0x86007033, .fp .vb false .none⟩,
    ⟨.vfminB, 0xfe00707f, 0x8a003033, .fp .vb false .none⟩,
    ⟨.vfminRB, 0xfe00707f, 0x8a007033, .fp .vb false .none⟩,
    ⟨.vfmaxB, 0xfe00707f, 0x8c003033, .fp .vb false .none⟩,
    ⟨.vfmaxRB, 0xfe00707f, 0x8c007033, .fp .vb false .none⟩,
    ⟨.vfclassB, 0xfff0707f, 0x98103033, .fp .vb false .none⟩,
    ⟨.vfsgnjB, 0xfe00707f, 0x9a003033, .fp .vb false .none⟩,
    ⟨.vfsgnjRB, 0xfe00707f, 0x9a007033, .fp .vb false .none⟩,
    ⟨.vfsgnjnB, 0xfe00707f, 0x9c003033, .fp .vb false .none⟩,
    ⟨.vfsgnjnRB, 0xfe00707f, 0x9c007033, .fp .vb false .none⟩,
    ⟨.vfsgnjxB, 0xfe00707f, 0x9e003033, .fp .vb false .none⟩,
    ⟨.vfsgnjxRB, 0xfe00707f, 0x9e007033, .fp .vb false .none⟩,
    ⟨.vfdivB, 0xfe00707f, 0x88003033, .fp .vb true .none⟩,
    ⟨.vfdivRB, 0xfe00707f, 0x88007033, .fp .vb true .none⟩,
    ⟨.vfsqrtB, 0xfff0707f, 0x8e003033, .fp .vb true .none⟩,
    ⟨.vfcvtBS, 0xfff0707f, 0x98403033, .fp .vb false .none⟩,
    ⟨.vfcvtuBS, 0xfff0707f, 0x98407033, .fp .vb false .none⟩,
    ⟨.vfcvtHB, 0xfff0707f, 0x98702033, .fp .vb false .none⟩,
    ⟨.vfcvtuHB, 0xfff0707f, 0x98706033, .fp .vb false .none⟩,
    ⟨.vfcvtBH, 0xfff0707f, 0x98603033, .fp .vb false .none⟩,
    ⟨.vfcvtuBH, 0xfff0707f, 0x98607033, .fp .vb false .none⟩,
    ⟨.vfeqB, 0xfe00707f, 0xa0003033, .fp .vb false .none⟩,
    ⟨.vfeqRB, 0xfe00707f, 0xa0007033, .fp .vb false .none⟩,
    ⟨.vfneB, 0xfe00707f, 0xa2003033, .fp .vb false .none⟩,
    ⟨.vfneRB, 0xfe00707f, 0xa2007033, .fp .vb false .none⟩,
    ⟨.vfltB, 0xfe00707f, 0xa4003033, .fp .vb false .none⟩,
    ⟨.vfltRB, 0xfe00707f, 0xa4007033, .fp .vb false .none⟩,
    ⟨.vfgeB, 0xfe00707f, 0xa6003033, .fp .vb false .none⟩,
    ⟨.vfgeRB, 0xfe00707f, 0xa6007033, .fp .vb false .none⟩,
    ⟨.vfleB, 0xfe00707f, 0xa8003033, .fp .vb false .none⟩,
    ⟨.vfleRB, 0xfe00707f, 0xa8007033, .fp .vb false .none⟩,
    ⟨.vfgtB, 0xfe00707f, 0xaa003033, .fp .vb false .none⟩,
    ⟨.vfgtRB, 0xfe00707f, 0xaa007033, .fp .vb false .none⟩,
    ⟨.vfmvXB, 0xfff0707f, 0x98003033, .fp .vb false .none⟩,
    ⟨.vfmvBX, 0xfff0707f, 0x98007033, .fp .vb false .none⟩,
    ⟨.vfcvtXB, 0xfff0707f, 0x98203033, .fp .vb false .none⟩,
    ⟨.vfcvtXuB, 0xfff0707f, 0x98207033, .fp .vb false .none⟩,
    ⟨.vfcvtBX, 0xfff0707f, 0x98303033, .fp .vb false .none⟩,
    ⟨.vfcvtBXu, 0xfff0707f, 0x98307033, .fp .vb false .none⟩,
    ⟨.vfmacB, 0xfe00707f, 0x90003033, .fp .vb false .rd⟩,
    ⟨.vfmacRB, 0xfe00707f, 0x90007033, .fp .vb false .rd⟩,
    ⟨.vfmreB, 0xfe00707f, 0x92003033, .fp .vb false .rd⟩,
    ⟨.vfmreRB, 0xfe00707f, 0x92007033, .fp .vb false .rd⟩,
    ⟨.vfcpkaBS, 0xfe00707f, 0xb0003033, .fp .vb false .none⟩,
    ⟨.vfcpkbBS, 0xfe00707f, 0xb0007033, .fp .vb false .none⟩,
    ⟨.vfdotpexHB, 0xfe00707f, 0x96002033, .fp .vb false .rd⟩,
    ⟨.vfdotpexHRB, 0xfe00707f, 0x96006033, .fp .vb false .rd⟩,
    ⟨.vfndotpexHB, 0xfe00707f, 0xba002033, .fp .vb false .rd⟩,
    ⟨.vfndotpexHRB, 0xfe00707f, 0xba006033, .fp .vb false .rd⟩,
    ⟨.vfsumexHB, 0xfff0707f, 0x8f702033, .fp .vb false .rd⟩,
    ⟨.vfnsumexHB, 0xfff0707f, 0xaf702033, .fp .vb false .rd⟩,
    ⟨.vfdotpexaSB, 0xfe00707f, 0xb8000033, .fp .vb false .rd⟩,
    ⟨.vfdotpexbSB, 0xfe00707f, 0xbc000033, .fp .vb false .rd⟩,
    ⟨.vfdotpexaSRB, 0xfe00707f, 0xb8004033, .fp .vb false .rd⟩,
    ⟨.vfdotpexbSRB, 0xfe00707f, 0xbc004033, .fp .vb false .rd⟩ ]

def pulpMemoryRows : List Row :=
  [ ⟨.pLbIrpost, 0x0000707f, 0x0000000b, .pulpLoad .byte true false true⟩,
    ⟨.pLbuIrpost, 0x0000707f, 0x0000400b, .pulpLoad .byte false false true⟩,
    ⟨.pLhIrpost, 0x0000707f, 0x0000100b, .pulpLoad .halfWord true false true⟩,
    ⟨.pLhuIrpost, 0x0000707f, 0x0000500b, .pulpLoad .halfWord false false true⟩,
    ⟨.pLwIrpost, 0x0000707f, 0x0000200b, .pulpLoad .word true false true⟩,
    ⟨.pLbRrpost, 0xfe00707f, 0x0000700b, .pulpLoad .byte true true true⟩,
    ⟨.pLbuRrpost, 0xfe00707f, 0x4000700b, .pulpLoad .byte false true true⟩,
    ⟨.pLhRrpost, 0xfe00707f, 0x1000700b, .pulpLoad .halfWord true true true⟩,
    ⟨.pLhuRrpost, 0xfe00707f, 0x5000700b, .pulpLoad .halfWord false true true⟩,
    ⟨.pLwRrpost, 0xfe00707f, 0x2000700b, .pulpLoad .word true true true⟩,
    ⟨.pLbRr, 0xfe00707f, 0x00007003, .pulpLoad .byte true true false⟩,
    ⟨.pLbuRr, 0xfe00707f, 0x40007003, .pulpLoad .byte false true false⟩,
    ⟨.pLhRr, 0xfe00707f, 0x10007003, .pulpLoad .halfWord true true false⟩,
    ⟨.pLhuRr, 0xfe00707f, 0x50007003, .pulpLoad .halfWord false true false⟩,
    ⟨.pLwRr, 0xfe00707f, 0x20007003, .pulpLoad .word true true false⟩,
    ⟨.pSbIrpost, 0x0000707f, 0x0000002b, .pulpStore .byte false true⟩,
    ⟨.pShIrpost, 0x0000707f, 0x0000102b, .pulpStore .halfWord false true⟩,
    ⟨.pSwIrpost, 0x0000707f, 0x0000202b, .pulpStore .word false true⟩,
    ⟨.pSbRrpost, 0xfe00707f, 0x0000402b, .pulpStore .byte true true⟩,
    ⟨.pShRrpost, 0xfe00707f, 0x0000502b, .pulpStore .halfWord true true⟩,
    ⟨.pSwRrpost, 0xfe00707f, 0x0000602b, .pulpStore .word true true⟩,
    ⟨.pSbRr, 0xfe00707f, 0x00004023, .pulpStore .byte true false⟩,
    ⟨.pShRr, 0xfe00707f, 0x00005023, .pulpStore .halfWord true false⟩,
    ⟨.pSwRr, 0xfe00707f, 0x00006023, .pulpStore .word true false⟩,
    ⟨.pBeqimm, 0x0000707f, 0x00002063, .immBranch .eq⟩,
    ⟨.pBneimm, 0x0000707f, 0x00003063, .immBranch .neq⟩ ]

def pulpOneRows : List Row :=
  [ ⟨.pAbs, 0xfff0707f, 0x04000033, .pulpIpu false false⟩,
    ⟨.pExths, 0xfff0707f, 0x10004033, .pulpIpu false false⟩,
    ⟨.pExthz, 0xfff0707f, 0x10005033, .pulpIpu false false⟩,
    ⟨.pExtbs, 0xfff0707f, 0x10006033, .pulpIpu false false⟩,
    ⟨.pExtbz, 0xfff0707f, 0x10007033, .pulpIpu false false⟩,
    ⟨.pClip, 0xfe00707f, 0x14001033, .pulpIpu false false⟩,
    ⟨.pClipu, 0xfe00707f, 0x14002033, .pulpIpu false false⟩,
    ⟨.pvAddSciH, 0xfc00707f, 0x00006057, .pulpIpu false false⟩,
    ⟨.pvAddSciB, 0xfc00707f, 0x00007057, .pulpIpu false false⟩,
    ⟨.pvSubSciH, 0xfc00707f, 0x08006057, .pulpIpu false false⟩,
    ⟨.pvSubSciB, 0xfc00707f, 0x08007057, .pulpIpu false false⟩,
    ⟨.pvAvgSciH, 0xfc00707f, 0x10006057, .pulpIpu false false⟩,
    ⟨.pvAvgSciB, 0xfc00707f, 0x10007057, .pulpIpu false false⟩,
    ⟨.pvAvguSciH, 0xfc00707f, 0x18006057, .pulpIpu false false⟩,
    ⟨.pvAvguSciB, 0xfc00707f, 0x18007057, .pulpIpu false false⟩,
    ⟨.pvMinSciH, 0xfc00707f, 0x20006057, .pulpIpu false false⟩,
    ⟨.pvMinSciB, 0xfc00707f, 0x20007057, .pulpIpu false false⟩,
    ⟨.pvMinuSciH, 0xfc00707f, 0x28006057, .pulpIpu false false⟩,
    ⟨.pvMinuSciB, 0xfc00707f, 0x28007057, .pulpIpu false false⟩,
    ⟨.pvMaxSciH, 0xfc00707f, 0x30006057, .pulpIpu false false⟩,
    ⟨.pvMaxSciB, 0xfc00707f, 0x30007057, .pulpIpu false false⟩,
    ⟨.pvMaxuSciH, 0xfc00707f, 0x38006057, .pulpIpu false false⟩,
    ⟨.pvMaxuSciB, 0xfc00707f, 0x38007057, .pulpIpu false false⟩,
    ⟨.pvSrlSciH, 0xfc00707f, 0x40006057, .pulpIpu false false⟩,
    ⟨.pvSrlSciB, 0xfc00707f, 0x40007057, .pulpIpu false false⟩,
    ⟨.pvSraSciH, 0xfc00707f, 0x48006057, .pulpIpu false false⟩,
    ⟨.pvSraSciB, 0xfc00707f, 0x48007057, .pulpIpu false false⟩,
    ⟨.pvSllSciH, 0xfc00707f, 0x50006057, .pulpIpu false false⟩,
    ⟨.pvSllSciB, 0xfc00707f, 0x50007057, .pulpIpu false false⟩,
    ⟨.pvOrSciH, 0xfc00707f, 0x58006057, .pulpIpu false false⟩,
    ⟨.pvOrSciB, 0xfc00707f, 0x58007057, .pulpIpu false false⟩,
    ⟨.pvXorSciH, 0xfc00707f, 0x60006057, .pulpIpu false false⟩,
    ⟨.pvXorSciB, 0xfc00707f, 0x60007057, .pulpIpu false false⟩,
    ⟨.pvAndSciB, 0xfc00707f, 0x68007057, .pulpIpu false false⟩,
    ⟨.pvAndSciH, 0xfc00707f, 0x68006057, .pulpIpu false false⟩,
    ⟨.pvAbsH, 0xfff0707f, 0x70000057, .pulpIpu false false⟩,
    ⟨.pvAbsB, 0xfff0707f, 0x70001057, .pulpIpu false false⟩,
    ⟨.pvExtractH, 0xfc00707f, 0x78006057, .pulpIpu false false⟩,
    ⟨.pvExtractB, 0xfc00707f, 0x78007057, .pulpIpu false false⟩,
    ⟨.pvExtractuH, 0xfc00707f, 0x90006057, .pulpIpu false false⟩,
    ⟨.pvExtractuB, 0xfc00707f, 0x90007057, .pulpIpu false false⟩,
    ⟨.pvDotupSciH, 0xfc00707f, 0x80006057, .pulpIpu false false⟩,
    ⟨.pvDotupSciB, 0xfc00707f, 0x80007057, .pulpIpu false false⟩,
    ⟨.pvDotuspSciH, 0xfc00707f, 0x88006057, .pulpIpu false false⟩,
    ⟨.pvDotuspSciB, 0xfc00707f, 0x88007057, .pulpIpu false false⟩,
    ⟨.pvDotspSciH, 0xfc00707f, 0x98006057, .pulpIpu false false⟩,
    ⟨.pvDotspSciB, 0xfc00707f, 0x98007057, .pulpIpu false false⟩ ]

def pulpTwoRows : List Row :=
  [ ⟨.pSlet, 0xfe00707f, 0x04002033, .pulpIpu true false⟩,
    ⟨.pSletu, 0xfe00707f, 0x04003033, .pulpIpu true false⟩,
    ⟨.pMin, 0xfe00707f, 0x04004033, .pulpIpu true false⟩,
    ⟨.pMinu, 0xfe00707f, 0x04005033, .pulpIpu true false⟩,
    ⟨.pMax, 0xfe00707f, 0x04006033, .pulpIpu true false⟩,
    ⟨.pMaxu, 0xfe00707f, 0x04007033, .pulpIpu true false⟩,
    ⟨.pClipr, 0xfe00707f, 0x14005033, .pulpIpu true false⟩,
    ⟨.pClipur, 0xfe00707f, 0x14006033, .pulpIpu true false⟩,
    ⟨.pvAddH, 0xfe00707f, 0x00000057, .pulpIpu true false⟩,
    ⟨.pvAddScH, 0xfe00707f, 0x00004057, .pulpIpu true false⟩,
    ⟨.pvAddB, 0xfe00707f, 0x00001057, .pulpIpu true false⟩,
    ⟨.pvAddScB, 0xfe00707f, 0x00005057, .pulpIpu true false⟩,
    ⟨.pvSubH, 0xfe00707f, 0x08000057, .pulpIpu true false⟩,
    ⟨.pvSubScH, 0xfe00707f, 0x08004057, .pulpIpu true false⟩,
    ⟨.pvSubB, 0xfe00707f, 0x08001057, .pulpIpu true false⟩,
    ⟨.pvSubScB, 0xfe00707f, 0x08005057, .pulpIpu true false⟩,
    ⟨.pvAvgH, 0xfe00707f, 0x10000057, .pulpIpu true false⟩,
    ⟨.pvAvgScH, 0xfe00707f, 0x10004057, .pulpIpu true false⟩,
    ⟨.pvAvgB, 0xfe00707f, 0x10001057, .pulpIpu true false⟩,
    ⟨.pvAvgScB, 0xfe00707f, 0x10005057, .pulpIpu true false⟩,
    ⟨.pvAvguH, 0xfe00707f, 0x18000057, .pulpIpu true false⟩,
    ⟨.pvAvguScH, 0xfe00707f, 0x18004057, .pulpIpu true false⟩,
    ⟨.pvAvguB, 0xfe00707f, 0x18001057, .pulpIpu true false⟩,
    ⟨.pvAvguScB, 0xfe00707f, 0x18005057, .pulpIpu true false⟩,
    ⟨.pvMinH, 0xfe00707f, 0x20000057, .pulpIpu true false⟩,
    ⟨.pvMinScH, 0xfe00707f, 0x20004057, .pulpIpu true false⟩,
    ⟨.pvMinB, 0xfe00707f, 0x20001057, .pulpIpu true false⟩,
    ⟨.pvMinScB, 0xfe00707f, 0x20005057, .pulpIpu true false⟩,
    ⟨.pvMinuH, 0xfe00707f, 0x28000057, .pulpIpu true false⟩,
    ⟨.pvMinuScH, 0xfe00707f, 0x28004057, .pulpIpu true false⟩,
    ⟨.pvMinuB, 0xfe00707f, 0x28001057, .pulpIpu true false⟩,
    ⟨.pvMinuScB, 0xfe00707f, 0x28005057, .pulpIpu true false⟩,
    ⟨.pvMaxH, 0xfe00707f, 0x30000057, .pulpIpu true false⟩,
    ⟨.pvMaxScH, 0xfe00707f, 0x30004057, .pulpIpu true false⟩,
    ⟨.pvMaxB, 0xfe00707f, 0x30001057, .pulpIpu true false⟩,
    ⟨.pvMaxScB, 0xfe00707f, 0x30005057, .pulpIpu true false⟩,
    ⟨.pvMaxuH, 0xfe00707f, 0x38000057, .pulpIpu true false⟩,
    ⟨.pvMaxuScH, 0xfe00707f, 0x38004057, .pulpIpu true false⟩,
    ⟨.pvMaxuB, 0xfe00707f, 0x38001057, .pulpIpu true false⟩,
    ⟨.pvMaxuScB, 0xfe00707f, 0x38005057, .pulpIpu true false⟩,
    ⟨.pvSrlH, 0xfe00707f, 0x40000057, .pulpIpu true false⟩,
    ⟨.pvSrlScH, 0xfe00707f, 0x40004057, .pulpIpu true false⟩,
    ⟨.pvSrlB, 0xfe00707f, 0x40001057, .pulpIpu true false⟩,
    ⟨.pvSrlScB, 0xfe00707f, 0x40005057, .pulpIpu true false⟩,
    ⟨.pvSraH, 0xfe00707f, 0x48000057, .pulpIpu true false⟩,
    ⟨.pvSraScH, 0xfe00707f, 0x48004057, .pulpIpu true false⟩,
    ⟨.pvSraB, 0xfe00707f, 0x48001057, .pulpIpu true false⟩,
    ⟨.pvSraScB, 0xfe00707f, 0x48005057, .pulpIpu true false⟩,
    ⟨.pvSllH, 0xfe00707f, 0x50000057, .pulpIpu true false⟩,
    ⟨.pvSllScH, 0xfe00707f, 0x50004057, .pulpIpu true false⟩,
    ⟨.pvSllB, 0xfe00707f, 0x50001057, .pulpIpu true false⟩,
    ⟨.pvSllScB, 0xfe00707f, 0x50005057, .pulpIpu true false⟩,
    ⟨.pvOrH, 0xfe00707f, 0x58000057, .pulpIpu true false⟩,
    ⟨.pvOrScH, 0xfe00707f, 0x58004057, .pulpIpu true false⟩,
    ⟨.pvOrB, 0xfe00707f, 0x58001057, .pulpIpu true false⟩,
    ⟨.pvOrScB, 0xfe00707f, 0x58005057, .pulpIpu true false⟩,
    ⟨.pvXorH, 0xfe00707f, 0x60000057, .pulpIpu true false⟩,
    ⟨.pvXorScH, 0xfe00707f, 0x60004057, .pulpIpu true false⟩,
    ⟨.pvXorB, 0xfe00707f, 0x60001057, .pulpIpu true false⟩,
    ⟨.pvXorScB, 0xfe00707f, 0x60005057, .pulpIpu true false⟩,
    ⟨.pvAndH, 0xfe00707f, 0x68000057, .pulpIpu true false⟩,
    ⟨.pvAndScH, 0xfe00707f, 0x68004057, .pulpIpu true false⟩,
    ⟨.pvAndB, 0xfe00707f, 0x68001057, .pulpIpu true false⟩,
    ⟨.pvAndScB, 0xfe00707f, 0x68005057, .pulpIpu true false⟩,
    ⟨.pvDotupH, 0xfe00707f, 0x80000057, .pulpIpu true false⟩,
    ⟨.pvDotupScH, 0xfe00707f, 0x80004057, .pulpIpu true false⟩,
    ⟨.pvDotupB, 0xfe00707f, 0x80001057, .pulpIpu true false⟩,
    ⟨.pvDotupScB, 0xfe00707f, 0x80005057, .pulpIpu true false⟩,
    ⟨.pvDotuspH, 0xfe00707f, 0x88000057, .pulpIpu true false⟩,
    ⟨.pvDotuspScH, 0xfe00707f, 0x88004057, .pulpIpu true false⟩,
    ⟨.pvDotuspB, 0xfe00707f, 0x88001057, .pulpIpu true false⟩,
    ⟨.pvDotuspScB, 0xfe00707f, 0x88005057, .pulpIpu true false⟩,
    ⟨.pvDotspH, 0xfe00707f, 0x98000057, .pulpIpu true false⟩,
    ⟨.pvDotspScH, 0xfe00707f, 0x98004057, .pulpIpu true false⟩,
    ⟨.pvDotspB, 0xfe00707f, 0x98001057, .pulpIpu true false⟩,
    ⟨.pvDotspScB, 0xfe00707f, 0x98005057, .pulpIpu true false⟩ ]

def pulpThreeRows : List Row :=
  [ ⟨.pvInsertH, 0xfc00707f, 0xb0006057, .pulpIpu false true⟩,
    ⟨.pvInsertB, 0xfc00707f, 0xb0007057, .pulpIpu false true⟩,
    ⟨.pvSdotupSciH, 0xfc00707f, 0xa0006057, .pulpIpu false true⟩,
    ⟨.pvSdotupSciB, 0xfc00707f, 0xa0007057, .pulpIpu false true⟩,
    ⟨.pvSdotuspSciH, 0xfc00707f, 0xa8006057, .pulpIpu false true⟩,
    ⟨.pvSdotuspSciB, 0xfc00707f, 0xa8007057, .pulpIpu false true⟩,
    ⟨.pvSdotspSciH, 0xfc00707f, 0xb8006057, .pulpIpu false true⟩,
    ⟨.pvSdotspSciB, 0xfc00707f, 0xb8007057, .pulpIpu false true⟩,
    ⟨.pMac, 0xfe00707f, 0x42000033, .pulpIpu true true⟩,
    ⟨.pMsu, 0xfe00707f, 0x42001033, .pulpIpu true true⟩,
    ⟨.pvSdotupH, 0xfe00707f, 0xa0000057, .pulpIpu true true⟩,
    ⟨.pvSdotupScH, 0xfe00707f, 0xa0004057, .pulpIpu true true⟩,
    ⟨.pvSdotupB, 0xfe00707f, 0xa0001057, .pulpIpu true true⟩,
    ⟨.pvSdotupScB, 0xfe00707f, 0xa0005057, .pulpIpu true true⟩,
    ⟨.pvSdotuspH, 0xfe00707f, 0xa8000057, .pulpIpu true true⟩,
    ⟨.pvSdotuspScH, 0xfe00707f, 0xa8004057, .pulpIpu true true⟩,
    ⟨.pvSdotuspB, 0xfe00707f, 0xa8001057, .pulpIpu true true⟩,
    ⟨.pvSdotuspScB, 0xfe00707f, 0xa8005057, .pulpIpu true true⟩,
    ⟨.pvSdotspH, 0xfe00707f, 0xb8000057, .pulpIpu true true⟩,
    ⟨.pvSdotspScH, 0xfe00707f, 0xb8004057, .pulpIpu true true⟩,
    ⟨.pvSdotspB, 0xfe00707f, 0xb8001057, .pulpIpu true true⟩,
    ⟨.pvSdotspScB, 0xfe00707f, 0xb8005057, .pulpIpu true true⟩,
    ⟨.pvShuffle2H, 0xfe00707f, 0xc8000057, .pulpIpu true true⟩,
    ⟨.pvShuffle2B, 0xfe00707f, 0xc8001057, .pulpIpu true true⟩,
    ⟨.pvPack, 0xfe00707f, 0xd0000057, .pulpIpu true true⟩,
    ⟨.pvPackH, 0xfe00707f, 0xd2000057, .pulpIpu true true⟩ ]

/-- All rows, in the order of the decoder. -/
def rows : List Row :=
  baseRows ++ systemRows ++ singleRows ++ halfRows ++ vectorHalfRows ++
    quarterRows ++ vectorQuarterRows ++ pulpMemoryRows ++ pulpOneRows ++ pulpTwoRows ++
    pulpThreeRows

/-- `unique casez`: the row an instruction word belongs to. -/
def rowOf (inst : BitVec 32) : Option Row := rows.find? fun r => r.accepts inst

end TeraNoC.Snitch
