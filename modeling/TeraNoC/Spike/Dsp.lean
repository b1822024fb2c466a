import TeraNoC.Snitch.Instr

/-!
# The DSP instructions of Xpulpimg in the instruction set simulator (`riscv-isa-sim`)

The golden model's view of the arithmetic of Xpulpimg: the bodies of `riscv/insns/p_*.h`
and `pv_*.h` at `xlen` 32. Registers have 64 bits and hold the sign extension of their
32 bits; a body computes on 64 bits and cuts the result where it is assigned to a
smaller variable. The instructions on half-words and on bytes, and those with a vector,
a scalar and an immediate as second operand, differ in nothing else, so that each
family is one function.
-/

namespace TeraNoC.Spike

open TeraNoC.Hw TeraNoC.Snitch

/-- `reg_t` and `sreg_t`. -/
abbrev Reg := BitVec 64

/-- The instruction word, and the registers it names. -/
structure DspArgs where
  insn : BitVec 32
  rs1 : Reg
  rs2 : Reg
  rd : Reg

/-- What an instruction writes to `rd`. -/
abbrev DspInsn := DspArgs → Reg

/-- `sext_xlen`. -/
def sextXlen (x : Reg) : Reg := (x <<< 32).sshiftRight 32

/-! ## Fields -/

namespace DspArgs

variable (x : DspArgs)

def zimm5 : Nat := (x.insn.extractLsb' 20 5).toNat

def zimm6 : Reg :=
  (x.insn.extractLsb' 25 1).setWidth 64 + (x.insn.extractLsb' 20 5).setWidth 64 <<< 1

def simm6 : Reg :=
  (x.insn.extractLsb' 25 1).setWidth 64 + (x.insn.extractLsb' 20 5).signExtend 64 <<< 1

end DspArgs

/-! ## Lanes -/

/-- Half-words (`_h`) or bytes (`_b`). -/
inductive Lanes where
  | h
  | b

namespace Lanes

def width : Lanes → Nat
  | .h => 16
  | .b => 8

/-- `xlen / 16` and `xlen / 8`. -/
def count : Lanes → Nat
  | .h => 2
  | .b => 4

/-- The bits of a lane's number. -/
def bits : Lanes → Nat
  | .h => 1
  | .b => 2

def mask : Lanes → Reg
  | .h => 0xffff
  | .b => 0xff

/-- The bits of a lane's shift amount. -/
def shiftMask : Lanes → Reg
  | .h => 0x0f
  | .b => 0x07

/-- `sext16` and `sext8`. -/
def sext (l : Lanes) (v : Reg) : Reg := (v.setWidth l.width).signExtend 64

/-- `zext16` and `zext8`. -/
def zext (l : Lanes) (v : Reg) : Reg := (v.setWidth l.width).setWidth 64

/-- `RS1_H` and `RS1_B`, and the same of the other registers. -/
def get (l : Lanes) (v : Reg) (i : Nat) : Reg := v >>> (l.width * (i % l.count)) &&& l.mask

/-- The loop over the lanes, from the highest, that puts `temp` into `simd_rd`. -/
def simd (l : Lanes) (temp : Nat → Reg) : Reg :=
  let simdRd : BitVec 32 := (List.range l.count).foldr
    (fun i simdRd => simdRd <<< l.width + ((temp i).setWidth l.width).setWidth 32) 0
  sextXlen (simdRd.setWidth 64)

/-- The loop that adds the products of the lanes to a signed or unsigned accumulator of
32 bits. -/
def accumulate (l : Lanes) (signed : Bool) (acc : BitVec 32) (term : Nat → Reg) : Reg :=
  let acc := (List.range l.count).foldr (fun i (acc : BitVec 32) =>
    ((if signed then acc.signExtend 64 else acc.setWidth 64) + term i).setWidth 32) acc
  sextXlen (if signed then acc.signExtend 64 else acc.setWidth 64)

end Lanes

/-- The second operand: the lanes of `rs2`, its lowest lane (`_sc`), or the immediate
(`_sci`). -/
inductive Second where
  | vect
  | sc
  | sci

namespace Second

def sext (m : Second) (l : Lanes) (x : DspArgs) (i : Nat) : Reg :=
  match m with
  | .vect => l.sext (l.get x.rs2 i)
  | .sc => l.sext (l.get x.rs2 0)
  | .sci => x.simm6

def zext (m : Second) (l : Lanes) (x : DspArgs) (i : Nat) : Reg :=
  match m with
  | .vect => l.zext (l.get x.rs2 i)
  | .sc => l.zext (l.get x.rs2 0)
  | .sci => x.zimm6

/-- Without an extension, and with a signed immediate. -/
def raw (m : Second) (l : Lanes) (x : DspArgs) (i : Nat) : Reg :=
  match m with
  | .vect => l.get x.rs2 i
  | .sc => l.get x.rs2 0
  | .sci => x.simm6

/-- Without an extension, and with an unsigned immediate. -/
def rawu (m : Second) (l : Lanes) (x : DspArgs) (i : Nat) : Reg :=
  match m with
  | .vect => l.get x.rs2 i
  | .sc => l.get x.rs2 0
  | .sci => x.zimm6

/-- The amount of a shift. -/
def amount (m : Second) (l : Lanes) (x : DspArgs) (i : Nat) : Nat :=
  let v := match m with
    | .vect => l.zext (l.get x.rs2 i)
    | .sc => l.zext (l.get x.rs2 0)
    | .sci => x.simm6
  (v &&& l.shiftMask).toNat

end Second

/-! ## Scalar instructions -/

def pAbs : DspInsn := fun x => if BitVec.slt 0 x.rs1 then x.rs1 else -x.rs1

def pSlet : DspInsn := fun x => if x.rs1.sle x.rs2 then 1 else 0

def pSletu : DspInsn := fun x => if x.rs1.ule x.rs2 then 1 else 0

def pMin : DspInsn := fun x => if x.rs1.sle x.rs2 then x.rs1 else x.rs2

def pMinu : DspInsn := fun x => if x.rs1.ule x.rs2 then x.rs1 else x.rs2

def pMax : DspInsn := fun x => if x.rs2.slt x.rs1 then x.rs1 else x.rs2

def pMaxu : DspInsn := fun x => if x.rs2.ult x.rs1 then x.rs1 else x.rs2

def pExths : DspInsn := fun x => Lanes.h.sext x.rs1

def pExthz : DspInsn := fun x => Lanes.h.zext x.rs1

def pExtbs : DspInsn := fun x => Lanes.b.sext x.rs1

def pExtbz : DspInsn := fun x => Lanes.b.zext x.rs1

/-- `rs1` between two bounds, of which the lower one is looked at first. -/
def clamp (lower upper : DspArgs → Reg) : DspInsn := fun x =>
  if x.rs1.sle (lower x) then lower x
  else if (upper x).sle x.rs1 then upper x
  else x.rs1

def clipLower (x : DspArgs) : Reg := if x.zimm5 ≠ 0 then -(1 <<< (x.zimm5 - 1)) else -1

def clipUpper (x : DspArgs) : Reg := if x.zimm5 ≠ 0 then 1 <<< (x.zimm5 - 1) - 1 else 0

def pClip : DspInsn := clamp clipLower clipUpper

def pClipu : DspInsn := clamp (fun _ => 0) clipUpper

def pClipr : DspInsn := clamp (fun x => -(x.rs2 + 1)) (fun x => x.rs2)

def pClipur : DspInsn := clamp (fun _ => 0) (fun x => x.rs2)

def pMac : DspInsn := fun x => sextXlen (x.rd + sextXlen (x.rs1 * x.rs2))

def pMsu : DspInsn := fun x => sextXlen (x.rd - sextXlen (x.rs1 * x.rs2))

/-! ## Instructions on lanes -/

def pvAdd (l : Lanes) (m : Second) : DspInsn := fun x =>
  l.simd fun i => l.sext (l.get x.rs1 i) + m.sext l x i

def pvAddH : DspInsn := pvAdd .h .vect

def pvAddScH : DspInsn := pvAdd .h .sc

def pvAddSciH : DspInsn := pvAdd .h .sci

def pvAddB : DspInsn := pvAdd .b .vect

def pvAddScB : DspInsn := pvAdd .b .sc

def pvAddSciB : DspInsn := pvAdd .b .sci

def pvSub (l : Lanes) (m : Second) : DspInsn := fun x =>
  l.simd fun i => l.sext (l.get x.rs1 i) - m.sext l x i

def pvSubH : DspInsn := pvSub .h .vect

def pvSubScH : DspInsn := pvSub .h .sc

def pvSubSciH : DspInsn := pvSub .h .sci

def pvSubB : DspInsn := pvSub .b .vect

def pvSubScB : DspInsn := pvSub .b .sc

def pvSubSciB : DspInsn := pvSub .b .sci

def pvAvg (l : Lanes) (m : Second) : DspInsn := fun x =>
  l.simd fun i => (l.sext (l.sext (l.get x.rs1 i) + m.sext l x i)).sshiftRight 1

def pvAvgH : DspInsn := pvAvg .h .vect

def pvAvgScH : DspInsn := pvAvg .h .sc

def pvAvgSciH : DspInsn := pvAvg .h .sci

def pvAvgB : DspInsn := pvAvg .b .vect

def pvAvgScB : DspInsn := pvAvg .b .sc

def pvAvgSciB : DspInsn := pvAvg .b .sci

def pvAvgu (l : Lanes) (m : Second) : DspInsn := fun x =>
  l.simd fun i => l.zext (l.zext (l.get x.rs1 i) + m.zext l x i) >>> 1

def pvAvguH : DspInsn := pvAvgu .h .vect

def pvAvguScH : DspInsn := pvAvgu .h .sc

def pvAvguSciH : DspInsn := pvAvgu .h .sci

def pvAvguB : DspInsn := pvAvgu .b .vect

def pvAvguScB : DspInsn := pvAvgu .b .sc

def pvAvguSciB : DspInsn := pvAvgu .b .sci

def pvMin (l : Lanes) (m : Second) : DspInsn := fun x =>
  l.simd fun i => if (l.sext (l.get x.rs1 i)).sle (m.sext l x i) then l.get x.rs1 i else m.raw l x i

def pvMinH : DspInsn := pvMin .h .vect

def pvMinScH : DspInsn := pvMin .h .sc

def pvMinSciH : DspInsn := pvMin .h .sci

def pvMinB : DspInsn := pvMin .b .vect

def pvMinScB : DspInsn := pvMin .b .sc

def pvMinSciB : DspInsn := pvMin .b .sci

def pvMinu (l : Lanes) (m : Second) : DspInsn := fun x =>
  l.simd fun i =>
    if (l.zext (l.get x.rs1 i)).ule (m.zext l x i) then l.get x.rs1 i else m.rawu l x i

def pvMinuH : DspInsn := pvMinu .h .vect

def pvMinuScH : DspInsn := pvMinu .h .sc

def pvMinuSciH : DspInsn := pvMinu .h .sci

def pvMinuB : DspInsn := pvMinu .b .vect

def pvMinuScB : DspInsn := pvMinu .b .sc

def pvMinuSciB : DspInsn := pvMinu .b .sci

def pvMax (l : Lanes) (m : Second) : DspInsn := fun x =>
  l.simd fun i => if (m.sext l x i).slt (l.sext (l.get x.rs1 i)) then l.get x.rs1 i else m.raw l x i

def pvMaxH : DspInsn := pvMax .h .vect

def pvMaxScH : DspInsn := pvMax .h .sc

def pvMaxSciH : DspInsn := pvMax .h .sci

def pvMaxB : DspInsn := pvMax .b .vect

def pvMaxScB : DspInsn := pvMax .b .sc

def pvMaxSciB : DspInsn := pvMax .b .sci

def pvMaxu (l : Lanes) (m : Second) : DspInsn := fun x =>
  l.simd fun i =>
    if (m.zext l x i).ult (l.zext (l.get x.rs1 i)) then l.get x.rs1 i else m.rawu l x i

def pvMaxuH : DspInsn := pvMaxu .h .vect

def pvMaxuScH : DspInsn := pvMaxu .h .sc

def pvMaxuSciH : DspInsn := pvMaxu .h .sci

def pvMaxuB : DspInsn := pvMaxu .b .vect

def pvMaxuScB : DspInsn := pvMaxu .b .sc

def pvMaxuSciB : DspInsn := pvMaxu .b .sci

def pvSrl (l : Lanes) (m : Second) : DspInsn := fun x =>
  l.simd fun i => l.zext (l.get x.rs1 i) >>> m.amount l x i

def pvSrlH : DspInsn := pvSrl .h .vect

def pvSrlScH : DspInsn := pvSrl .h .sc

def pvSrlSciH : DspInsn := pvSrl .h .sci

def pvSrlB : DspInsn := pvSrl .b .vect

def pvSrlScB : DspInsn := pvSrl .b .sc

def pvSrlSciB : DspInsn := pvSrl .b .sci

def pvSra (l : Lanes) (m : Second) : DspInsn := fun x =>
  l.simd fun i => (l.sext (l.get x.rs1 i)).sshiftRight (m.amount l x i)

def pvSraH : DspInsn := pvSra .h .vect

def pvSraScH : DspInsn := pvSra .h .sc

def pvSraSciH : DspInsn := pvSra .h .sci

def pvSraB : DspInsn := pvSra .b .vect

def pvSraScB : DspInsn := pvSra .b .sc

def pvSraSciB : DspInsn := pvSra .b .sci

def pvSll (l : Lanes) (m : Second) : DspInsn := fun x =>
  l.simd fun i => l.zext (l.get x.rs1 i) <<< m.amount l x i

def pvSllH : DspInsn := pvSll .h .vect

def pvSllScH : DspInsn := pvSll .h .sc

def pvSllSciH : DspInsn := pvSll .h .sci

def pvSllB : DspInsn := pvSll .b .vect

def pvSllScB : DspInsn := pvSll .b .sc

def pvSllSciB : DspInsn := pvSll .b .sci

def pvOr (l : Lanes) (m : Second) : DspInsn := fun x =>
  l.simd fun i => l.get x.rs1 i ||| m.raw l x i

def pvOrH : DspInsn := pvOr .h .vect

def pvOrScH : DspInsn := pvOr .h .sc

def pvOrSciH : DspInsn := pvOr .h .sci

def pvOrB : DspInsn := pvOr .b .vect

def pvOrScB : DspInsn := pvOr .b .sc

def pvOrSciB : DspInsn := pvOr .b .sci

def pvXor (l : Lanes) (m : Second) : DspInsn := fun x =>
  l.simd fun i => l.get x.rs1 i ^^^ m.raw l x i

def pvXorH : DspInsn := pvXor .h .vect

def pvXorScH : DspInsn := pvXor .h .sc

def pvXorSciH : DspInsn := pvXor .h .sci

def pvXorB : DspInsn := pvXor .b .vect

def pvXorScB : DspInsn := pvXor .b .sc

def pvXorSciB : DspInsn := pvXor .b .sci

def pvAnd (l : Lanes) (m : Second) : DspInsn := fun x =>
  l.simd fun i => l.get x.rs1 i &&& m.raw l x i

def pvAndH : DspInsn := pvAnd .h .vect

def pvAndScH : DspInsn := pvAnd .h .sc

/-- This one takes four turns on two half-words, and keeps the low byte of each. -/
def pvAndSciH : DspInsn := fun x =>
  let simdRd : BitVec 32 := (List.range 4).foldr (fun i simdRd =>
    simdRd <<< 16 + ((Lanes.h.get x.rs1 i &&& x.simm6).setWidth 8).setWidth 32) 0
  sextXlen (simdRd.setWidth 64)

def pvAndB : DspInsn := pvAnd .b .vect

def pvAndScB : DspInsn := pvAnd .b .sc

def pvAndSciB : DspInsn := pvAnd .b .sci

def pvAbs (l : Lanes) : DspInsn := fun x =>
  l.simd fun i =>
    if BitVec.slt 0 (l.sext (l.get x.rs1 i)) then l.get x.rs1 i else -l.sext (l.get x.rs1 i)

def pvAbsH : DspInsn := pvAbs .h

def pvAbsB : DspInsn := pvAbs .b

/-- `p_zimm6() & 0x01` and `p_zimm6() & 0x03`. -/
def laneOf (l : Lanes) (x : DspArgs) : Nat := x.zimm6.toNat % l.count

def pvExtract (l : Lanes) : DspInsn := fun x => l.sext (l.get x.rs1 (laneOf l x))

def pvExtractH : DspInsn := pvExtract .h

def pvExtractB : DspInsn := pvExtract .b

def pvExtractu (l : Lanes) : DspInsn := fun x => l.zext (l.get x.rs1 (laneOf l x))

def pvExtractuH : DspInsn := pvExtractu .h

def pvExtractuB : DspInsn := pvExtractu .b

def pvInsert (l : Lanes) : DspInsn := fun x =>
  let place := l.width * laneOf l x
  let insRd : BitVec 32 := x.rd.setWidth 32 &&& ~~~(l.mask.setWidth 32 <<< place)
  let insRd := insRd.setWidth 64 ||| (Lanes.h.get x.rs1 0 &&& l.mask) <<< place
  sextXlen ((insRd.setWidth 32).setWidth 64)

def pvInsertH : DspInsn := pvInsert .h

def pvInsertB : DspInsn := pvInsert .b

def pvDotup (l : Lanes) (m : Second) : DspInsn := fun x =>
  l.accumulate false 0 fun i => l.zext (l.get x.rs1 i) * m.zext l x i

def pvDotupH : DspInsn := pvDotup .h .vect

def pvDotupScH : DspInsn := pvDotup .h .sc

def pvDotupSciH : DspInsn := pvDotup .h .sci

def pvDotupB : DspInsn := pvDotup .b .vect

def pvDotupScB : DspInsn := pvDotup .b .sc

def pvDotupSciB : DspInsn := pvDotup .b .sci

def pvDotusp (l : Lanes) (m : Second) : DspInsn := fun x =>
  l.accumulate true 0 fun i => l.zext (l.get x.rs1 i) * m.sext l x i

def pvDotuspH : DspInsn := pvDotusp .h .vect

def pvDotuspScH : DspInsn := pvDotusp .h .sc

def pvDotuspSciH : DspInsn := pvDotusp .h .sci

def pvDotuspB : DspInsn := pvDotusp .b .vect

def pvDotuspScB : DspInsn := pvDotusp .b .sc

def pvDotuspSciB : DspInsn := pvDotusp .b .sci

def pvDotsp (l : Lanes) (m : Second) : DspInsn := fun x =>
  l.accumulate true 0 fun i => l.sext (l.get x.rs1 i) * m.sext l x i

def pvDotspH : DspInsn := pvDotsp .h .vect

def pvDotspScH : DspInsn := pvDotsp .h .sc

def pvDotspSciH : DspInsn := pvDotsp .h .sci

def pvDotspB : DspInsn := pvDotsp .b .vect

def pvDotspScB : DspInsn := pvDotsp .b .sc

def pvDotspSciB : DspInsn := pvDotsp .b .sci

def pvSdotup (l : Lanes) (m : Second) : DspInsn := fun x =>
  l.accumulate false (x.rd.setWidth 32) fun i => l.zext (l.get x.rs1 i) * m.zext l x i

def pvSdotupH : DspInsn := pvSdotup .h .vect

def pvSdotupScH : DspInsn := pvSdotup .h .sc

def pvSdotupSciH : DspInsn := pvSdotup .h .sci

def pvSdotupB : DspInsn := pvSdotup .b .vect

def pvSdotupScB : DspInsn := pvSdotup .b .sc

def pvSdotupSciB : DspInsn := pvSdotup .b .sci

def pvSdotusp (l : Lanes) (m : Second) : DspInsn := fun x =>
  l.accumulate true (x.rd.setWidth 32) fun i => l.zext (l.get x.rs1 i) * m.sext l x i

def pvSdotuspH : DspInsn := pvSdotusp .h .vect

def pvSdotuspScH : DspInsn := pvSdotusp .h .sc

def pvSdotuspSciH : DspInsn := pvSdotusp .h .sci

def pvSdotuspB : DspInsn := pvSdotusp .b .vect

def pvSdotuspScB : DspInsn := pvSdotusp .b .sc

def pvSdotuspSciB : DspInsn := pvSdotusp .b .sci

def pvSdotsp (l : Lanes) (m : Second) : DspInsn := fun x =>
  l.accumulate true (x.rd.setWidth 32) fun i => l.sext (l.get x.rs1 i) * m.sext l x i

def pvSdotspH : DspInsn := pvSdotsp .h .vect

def pvSdotspScH : DspInsn := pvSdotsp .h .sc

def pvSdotspSciH : DspInsn := pvSdotsp .h .sci

def pvSdotspB : DspInsn := pvSdotsp .b .vect

def pvSdotspScB : DspInsn := pvSdotsp .b .sc

def pvSdotspSciB : DspInsn := pvSdotsp .b .sci

def pvShuffle2 (l : Lanes) : DspInsn := fun x =>
  l.simd fun i =>
    let sel := (l.get x.rs2 i).toNat % l.count
    if l.get x.rs2 i >>> l.bits &&& 1 ≠ 0 then l.get x.rs1 sel else l.get x.rd sel

def pvShuffle2H : DspInsn := pvShuffle2 .h

def pvShuffle2B : DspInsn := pvShuffle2 .b

def pvPack : DspInsn := fun x =>
  let insRd := (Lanes.h.get x.rs1 0 &&& 0xffff) <<< 16 ||| Lanes.h.get x.rs2 0 &&& 0xffff
  sextXlen ((insRd.setWidth 32).setWidth 64)

def pvPackH : DspInsn := fun x =>
  let insRd := Lanes.h.get x.rs1 1 <<< 16 &&& 0xffff0000 ||| Lanes.h.get x.rs2 1 &&& 0xffff
  sextXlen ((insRd.setWidth 32).setWidth 64)

/-! ## The instructions -/

def dspInsns : List (Op × DspInsn) :=
  [ (.pAbs, pAbs), (.pSlet, pSlet), (.pSletu, pSletu), (.pMin, pMin), (.pMinu, pMinu),
    (.pMax, pMax), (.pMaxu, pMaxu), (.pExths, pExths), (.pExthz, pExthz), (.pExtbs, pExtbs),
    (.pExtbz, pExtbz), (.pClip, pClip), (.pClipu, pClipu), (.pClipr, pClipr),
    (.pClipur, pClipur), (.pMac, pMac), (.pMsu, pMsu), (.pvAddH, pvAddH), (.pvAddScH, pvAddScH),
    (.pvAddSciH, pvAddSciH), (.pvAddB, pvAddB), (.pvAddScB, pvAddScB), (.pvAddSciB, pvAddSciB),
    (.pvSubH, pvSubH), (.pvSubScH, pvSubScH), (.pvSubSciH, pvSubSciH), (.pvSubB, pvSubB),
    (.pvSubScB, pvSubScB), (.pvSubSciB, pvSubSciB), (.pvAvgH, pvAvgH), (.pvAvgScH, pvAvgScH),
    (.pvAvgSciH, pvAvgSciH), (.pvAvgB, pvAvgB), (.pvAvgScB, pvAvgScB), (.pvAvgSciB, pvAvgSciB),
    (.pvAvguH, pvAvguH), (.pvAvguScH, pvAvguScH), (.pvAvguSciH, pvAvguSciH), (.pvAvguB, pvAvguB),
    (.pvAvguScB, pvAvguScB), (.pvAvguSciB, pvAvguSciB), (.pvMinH, pvMinH), (.pvMinScH, pvMinScH),
    (.pvMinSciH, pvMinSciH), (.pvMinB, pvMinB), (.pvMinScB, pvMinScB), (.pvMinSciB, pvMinSciB),
    (.pvMinuH, pvMinuH), (.pvMinuScH, pvMinuScH), (.pvMinuSciH, pvMinuSciH), (.pvMinuB, pvMinuB),
    (.pvMinuScB, pvMinuScB), (.pvMinuSciB, pvMinuSciB), (.pvMaxH, pvMaxH), (.pvMaxScH, pvMaxScH),
    (.pvMaxSciH, pvMaxSciH), (.pvMaxB, pvMaxB), (.pvMaxScB, pvMaxScB), (.pvMaxSciB, pvMaxSciB),
    (.pvMaxuH, pvMaxuH), (.pvMaxuScH, pvMaxuScH), (.pvMaxuSciH, pvMaxuSciH), (.pvMaxuB, pvMaxuB),
    (.pvMaxuScB, pvMaxuScB), (.pvMaxuSciB, pvMaxuSciB), (.pvSrlH, pvSrlH), (.pvSrlScH, pvSrlScH),
    (.pvSrlSciH, pvSrlSciH), (.pvSrlB, pvSrlB), (.pvSrlScB, pvSrlScB), (.pvSrlSciB, pvSrlSciB),
    (.pvSraH, pvSraH), (.pvSraScH, pvSraScH), (.pvSraSciH, pvSraSciH), (.pvSraB, pvSraB),
    (.pvSraScB, pvSraScB), (.pvSraSciB, pvSraSciB), (.pvSllH, pvSllH), (.pvSllScH, pvSllScH),
    (.pvSllSciH, pvSllSciH), (.pvSllB, pvSllB), (.pvSllScB, pvSllScB), (.pvSllSciB, pvSllSciB),
    (.pvOrH, pvOrH), (.pvOrScH, pvOrScH), (.pvOrSciH, pvOrSciH), (.pvOrB, pvOrB),
    (.pvOrScB, pvOrScB), (.pvOrSciB, pvOrSciB), (.pvXorH, pvXorH), (.pvXorScH, pvXorScH),
    (.pvXorSciH, pvXorSciH), (.pvXorB, pvXorB), (.pvXorScB, pvXorScB), (.pvXorSciB, pvXorSciB),
    (.pvAndH, pvAndH), (.pvAndScH, pvAndScH), (.pvAndSciH, pvAndSciH), (.pvAndB, pvAndB),
    (.pvAndScB, pvAndScB), (.pvAndSciB, pvAndSciB), (.pvAbsH, pvAbsH), (.pvAbsB, pvAbsB),
    (.pvExtractH, pvExtractH), (.pvExtractB, pvExtractB), (.pvExtractuH, pvExtractuH),
    (.pvExtractuB, pvExtractuB), (.pvInsertH, pvInsertH), (.pvInsertB, pvInsertB),
    (.pvDotupH, pvDotupH), (.pvDotupScH, pvDotupScH), (.pvDotupSciH, pvDotupSciH),
    (.pvDotupB, pvDotupB), (.pvDotupScB, pvDotupScB), (.pvDotupSciB, pvDotupSciB),
    (.pvDotuspH, pvDotuspH), (.pvDotuspScH, pvDotuspScH), (.pvDotuspSciH, pvDotuspSciH),
    (.pvDotuspB, pvDotuspB), (.pvDotuspScB, pvDotuspScB), (.pvDotuspSciB, pvDotuspSciB),
    (.pvDotspH, pvDotspH), (.pvDotspScH, pvDotspScH), (.pvDotspSciH, pvDotspSciH),
    (.pvDotspB, pvDotspB), (.pvDotspScB, pvDotspScB), (.pvDotspSciB, pvDotspSciB),
    (.pvSdotupH, pvSdotupH), (.pvSdotupScH, pvSdotupScH), (.pvSdotupSciH, pvSdotupSciH),
    (.pvSdotupB, pvSdotupB), (.pvSdotupScB, pvSdotupScB), (.pvSdotupSciB, pvSdotupSciB),
    (.pvSdotuspH, pvSdotuspH), (.pvSdotuspScH, pvSdotuspScH), (.pvSdotuspSciH, pvSdotuspSciH),
    (.pvSdotuspB, pvSdotuspB), (.pvSdotuspScB, pvSdotuspScB), (.pvSdotuspSciB, pvSdotuspSciB),
    (.pvSdotspH, pvSdotspH), (.pvSdotspScH, pvSdotspScH), (.pvSdotspSciH, pvSdotspSciH),
    (.pvSdotspB, pvSdotspB), (.pvSdotspScB, pvSdotspScB), (.pvSdotspSciB, pvSdotspSciB),
    (.pvShuffle2H, pvShuffle2H), (.pvShuffle2B, pvShuffle2B), (.pvPack, pvPack),
    (.pvPackH, pvPackH) ]

def dspInsn (op : Op) : Option DspInsn := dspInsns.lookup op

end TeraNoC.Spike
