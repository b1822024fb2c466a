import TeraNoC.Snitch.Decoder

/-!
# The DSP unit (`dspu` of `snitch_ipu`)

The combinational unit behind the accelerator port that executes the arithmetic of
Xpulpimg and the multiplications. Its decoder sets a handful of flags, and the flags
steer one comparator, one multiplier and one datapath on half-words or bytes, which all
instructions share. Half-words and bytes are lanes of a word, lane 0 the lowest.
-/

namespace TeraNoC.Snitch

open TeraNoC.Hw

namespace Dspu

/-! ## Decoder -/

inductive CmpOpBSel where
  | none | reg | zero | clipBound
  deriving DecidableEq, Repr

inductive MacOp where
  | noMul | mulLow | mulHigh | mulMac
  deriving DecidableEq, Repr

inductive SimdOp where
  | nop
  | add | sub | avg | min | max
  | srl | sra | sll
  | or | xor | and | abs
  | ext | ins | dotp | shuffle | pack
  deriving DecidableEq, Repr

inductive SimdSize where
  | halfWord | byte
  deriving DecidableEq, Repr

inductive SimdMode where
  | vect | sc | sci | high
  deriving DecidableEq, Repr

inductive ResSel where
  | nop
  | abs | sle | min | max
  | exths | exthz | extbs | extbz
  | clip | mac | simd
  deriving DecidableEq, Repr

/-- The internal control signals, with their defaults. -/
structure Control where
  cmpSigned : Bool := true
  cmpOpBSel : CmpOpBSel := .none
  clipUnsigned : Bool := false
  clipRegister : Bool := false
  macOp : MacOp := .noMul
  macMsu : Bool := false
  macOpASign : Bool := false
  macOpBSign : Bool := false
  resSel : ResSel := .nop
  simdOp : SimdOp := .nop
  simdSize : SimdSize := .halfWord
  simdMode : SimdMode := .vect
  simdSigned : Bool := true
  simdDotpOpASigned : Bool := true
  simdDotpOpBSigned : Bool := true
  simdDotpAcc : Bool := false

/-- A comparison with `op_b_i`. -/
def compare (res : ResSel) (signed : Bool) : Control where
  cmpSigned := signed
  cmpOpBSel := .reg
  resSel := res

def clip (unsigned register : Bool) : Control where
  clipUnsigned := unsigned
  clipRegister := register
  cmpOpBSel := .clipBound
  resSel := .clip

def multiply (op : MacOp) (signA signB : Bool) : Control where
  macOp := op
  macOpASign := signA
  macOpBSign := signB
  resSel := .mac

def simd (op : SimdOp) (size : SimdSize) (mode : SimdMode) (signed : Bool) : Control where
  simdOp := op
  simdSize := size
  simdMode := mode
  simdSigned := signed
  resSel := .simd

/-- A dot product; with `acc` it is added to the destination. -/
def dotp (signed signA signB acc : Bool) (size : SimdSize) (mode : SimdMode) : Control where
  simdOp := .dotp
  simdSize := size
  simdMode := mode
  simdSigned := signed
  simdDotpOpASigned := signA
  simdDotpOpBSigned := signB
  simdDotpAcc := acc
  resSel := .simd

def dotup : SimdSize → SimdMode → Control := dotp false false false false

def dotusp : SimdSize → SimdMode → Control := dotp true false true false

def dotsp : SimdSize → SimdMode → Control := dotp true true true false

def sdotup : SimdSize → SimdMode → Control := dotp false false false true

def sdotusp : SimdSize → SimdMode → Control := dotp true false true true

def sdotsp : SimdSize → SimdMode → Control := dotp true true true true

/-- The cases of the decoder. -/
def control : Op → Control
  | .mul => multiply .mulLow true true
  | .mulh => multiply .mulHigh true true
  | .mulhsu => multiply .mulHigh true false
  | .mulhu => multiply .mulHigh false false
  | .pAbs => { cmpOpBSel := .zero, resSel := .abs }
  | .pSlet => compare .sle true
  | .pSletu => compare .sle false
  | .pMin => compare .min true
  | .pMinu => compare .min false
  | .pMax => compare .max true
  | .pMaxu => compare .max false
  | .pExths => compare .exths true
  | .pExthz => compare .exthz true
  | .pExtbs => compare .extbs true
  | .pExtbz => compare .extbz true
  | .pClip => clip false false
  | .pClipu => clip true false
  | .pClipr => clip false true
  | .pClipur => clip true true
  | .pMac => multiply .mulMac true true
  | .pMsu => { multiply .mulMac true true with macMsu := true }
  | .pvAddH => simd .add .halfWord .vect true
  | .pvAddScH => simd .add .halfWord .sc true
  | .pvAddSciH => simd .add .halfWord .sci true
  | .pvAddB => simd .add .byte .vect true
  | .pvAddScB => simd .add .byte .sc true
  | .pvAddSciB => simd .add .byte .sci true
  | .pvSubH => simd .sub .halfWord .vect true
  | .pvSubScH => simd .sub .halfWord .sc true
  | .pvSubSciH => simd .sub .halfWord .sci true
  | .pvSubB => simd .sub .byte .vect true
  | .pvSubScB => simd .sub .byte .sc true
  | .pvSubSciB => simd .sub .byte .sci true
  | .pvAvgH => simd .avg .halfWord .vect true
  | .pvAvgScH => simd .avg .halfWord .sc true
  | .pvAvgSciH => simd .avg .halfWord .sci true
  | .pvAvgB => simd .avg .byte .vect true
  | .pvAvgScB => simd .avg .byte .sc true
  | .pvAvgSciB => simd .avg .byte .sci true
  | .pvAvguH => simd .avg .halfWord .vect false
  | .pvAvguScH => simd .avg .halfWord .sc false
  | .pvAvguSciH => simd .avg .halfWord .sci false
  | .pvAvguB => simd .avg .byte .vect false
  | .pvAvguScB => simd .avg .byte .sc false
  | .pvAvguSciB => simd .avg .byte .sci false
  | .pvMinH => simd .min .halfWord .vect true
  | .pvMinScH => simd .min .halfWord .sc true
  | .pvMinSciH => simd .min .halfWord .sci true
  | .pvMinB => simd .min .byte .vect true
  | .pvMinScB => simd .min .byte .sc true
  | .pvMinSciB => simd .min .byte .sci true
  | .pvMinuH => simd .min .halfWord .vect false
  | .pvMinuScH => simd .min .halfWord .sc false
  | .pvMinuSciH => simd .min .halfWord .sci false
  | .pvMinuB => simd .min .byte .vect false
  | .pvMinuScB => simd .min .byte .sc false
  | .pvMinuSciB => simd .min .byte .sci false
  | .pvMaxH => simd .max .halfWord .vect true
  | .pvMaxScH => simd .max .halfWord .sc true
  | .pvMaxSciH => simd .max .halfWord .sci true
  | .pvMaxB => simd .max .byte .vect true
  | .pvMaxScB => simd .max .byte .sc true
  | .pvMaxSciB => simd .max .byte .sci true
  | .pvMaxuH => simd .max .halfWord .vect false
  | .pvMaxuScH => simd .max .halfWord .sc false
  | .pvMaxuSciH => simd .max .halfWord .sci false
  | .pvMaxuB => simd .max .byte .vect false
  | .pvMaxuScB => simd .max .byte .sc false
  | .pvMaxuSciB => simd .max .byte .sci false
  | .pvSrlH => simd .srl .halfWord .vect true
  | .pvSrlScH => simd .srl .halfWord .sc true
  | .pvSrlSciH => simd .srl .halfWord .sci true
  | .pvSrlB => simd .srl .byte .vect true
  | .pvSrlScB => simd .srl .byte .sc true
  | .pvSrlSciB => simd .srl .byte .sci true
  | .pvSraH => simd .sra .halfWord .vect true
  | .pvSraScH => simd .sra .halfWord .sc true
  | .pvSraSciH => simd .sra .halfWord .sci true
  | .pvSraB => simd .sra .byte .vect true
  | .pvSraScB => simd .sra .byte .sc true
  | .pvSraSciB => simd .sra .byte .sci true
  | .pvSllH => simd .sll .halfWord .vect true
  | .pvSllScH => simd .sll .halfWord .sc true
  | .pvSllSciH => simd .sll .halfWord .sci true
  | .pvSllB => simd .sll .byte .vect true
  | .pvSllScB => simd .sll .byte .sc true
  | .pvSllSciB => simd .sll .byte .sci true
  | .pvOrH => simd .or .halfWord .vect true
  | .pvOrScH => simd .or .halfWord .sc true
  | .pvOrSciH => simd .or .halfWord .sci true
  | .pvOrB => simd .or .byte .vect true
  | .pvOrScB => simd .or .byte .sc true
  | .pvOrSciB => simd .or .byte .sci true
  | .pvXorH => simd .xor .halfWord .vect true
  | .pvXorScH => simd .xor .halfWord .sc true
  | .pvXorSciH => simd .xor .halfWord .sci true
  | .pvXorB => simd .xor .byte .vect true
  | .pvXorScB => simd .xor .byte .sc true
  | .pvXorSciB => simd .xor .byte .sci true
  | .pvAndH => simd .and .halfWord .vect true
  | .pvAndScH => simd .and .halfWord .sc true
  | .pvAndSciH => simd .and .halfWord .sci true
  | .pvAndB => simd .and .byte .vect true
  | .pvAndScB => simd .and .byte .sc true
  | .pvAndSciB => simd .and .byte .sci true
  | .pvAbsH => simd .abs .halfWord .vect true
  | .pvAbsB => simd .abs .byte .vect true
  | .pvExtractH => simd .ext .halfWord .vect true
  | .pvExtractB => simd .ext .byte .vect true
  | .pvExtractuH => simd .ext .halfWord .vect false
  | .pvExtractuB => simd .ext .byte .vect false
  | .pvInsertH => simd .ins .halfWord .vect true
  | .pvInsertB => simd .ins .byte .vect true
  | .pvDotupH => dotup .halfWord .vect
  | .pvDotupScH => dotup .halfWord .sc
  | .pvDotupSciH => dotup .halfWord .sci
  | .pvDotupB => dotup .byte .vect
  | .pvDotupScB => dotup .byte .sc
  | .pvDotupSciB => dotup .byte .sci
  | .pvDotuspH => dotusp .halfWord .vect
  | .pvDotuspScH => dotusp .halfWord .sc
  | .pvDotuspSciH => dotusp .halfWord .sci
  | .pvDotuspB => dotusp .byte .vect
  | .pvDotuspScB => dotusp .byte .sc
  | .pvDotuspSciB => dotusp .byte .sci
  | .pvDotspH => dotsp .halfWord .vect
  | .pvDotspScH => dotsp .halfWord .sc
  | .pvDotspSciH => dotsp .halfWord .sci
  | .pvDotspB => dotsp .byte .vect
  | .pvDotspScB => dotsp .byte .sc
  | .pvDotspSciB => dotsp .byte .sci
  | .pvSdotupH => sdotup .halfWord .vect
  | .pvSdotupScH => sdotup .halfWord .sc
  | .pvSdotupSciH => sdotup .halfWord .sci
  | .pvSdotupB => sdotup .byte .vect
  | .pvSdotupScB => sdotup .byte .sc
  | .pvSdotupSciB => sdotup .byte .sci
  | .pvSdotuspH => sdotusp .halfWord .vect
  | .pvSdotuspScH => sdotusp .halfWord .sc
  | .pvSdotuspSciH => sdotusp .halfWord .sci
  | .pvSdotuspB => sdotusp .byte .vect
  | .pvSdotuspScB => sdotusp .byte .sc
  | .pvSdotuspSciB => sdotusp .byte .sci
  | .pvSdotspH => sdotsp .halfWord .vect
  | .pvSdotspScH => sdotsp .halfWord .sc
  | .pvSdotspSciH => sdotsp .halfWord .sci
  | .pvSdotspB => sdotsp .byte .vect
  | .pvSdotspScB => sdotsp .byte .sc
  | .pvSdotspSciB => sdotsp .byte .sci
  | .pvShuffle2H => simd .shuffle .halfWord .vect true
  | .pvShuffle2B => simd .shuffle .byte .vect true
  | .pvPack => simd .pack .halfWord .vect true
  | .pvPackH => simd .pack .halfWord .high true
  | _ => {}

/-! ## Lanes -/

/-- A half-word of a word, the lowest one first. -/
def half (x : Word) (i : Nat) : BitVec 16 := x.extractLsb' (16 * i) 16

def byte (x : Word) (i : Nat) : BitVec 8 := x.extractLsb' (8 * i) 8

/-- The word of two half-words. -/
def halves (f : Nat → BitVec 16) : Word := f 1 ++ f 0

def bytes (f : Nat → BitVec 8) : Word := f 3 ++ f 2 ++ f 1 ++ f 0

/-- A value with one more bit, which is its sign or zero: a signed operation on it is a
signed or an unsigned one on the value. -/
def extended (signed : Bool) {w : Nat} (x : BitVec w) : BitVec (1 + w) :=
  BitVec.ofBool (x.msb && signed) ++ x

/-! ## Datapath -/

section Datapath

variable (ctl : Control) (operator : BitVec 32) (opA opB opC : Word)

def imm5 : BitVec 5 := operator.extractLsb' 20 5

def imm6 : BitVec 6 := operator.extractLsb' 20 5 ++ operator.extractLsb' 25 1

/-! ### Clips -/

def clipLower : Word := ((BitVec.allOnes 33 <<< (imm5 operator).toNat) >>> 1).setWidth 32

def clipOpBN : Word :=
  if ctl.clipUnsigned then 0 else if ctl.clipRegister then ~~~opB else clipLower operator

def clipOpB : Word := if ctl.clipRegister then opB else ~~~clipLower operator

def clipUseNBound : Bool := opA.msb || (clipOpB ctl operator opB).msb

def clipComp : Word :=
  if clipUseNBound ctl operator opA opB then clipOpBN ctl operator opB
  else clipOpB ctl operator opB

/-! ### Shared comparator -/

def cmpOpB : Word :=
  match ctl.cmpOpBSel with
  | .reg => opB
  | .zero => 0
  | .clipBound => clipComp ctl operator opA opB
  | .none => 0

def cmpResult : Bool :=
  (extended ctl.cmpSigned opA).sle (extended ctl.cmpSigned (cmpOpB ctl operator opA opB))

/-! ### Multiplier and accumulator -/

/-- The operands of the multiplier are held at zero while it is not used. -/
def macGated {w : Nat} (x : BitVec w) : BitVec w := if ctl.macOp != .noMul then x else 0

def macOpA : Word := if ctl.macMsu then -macGated ctl opA else macGated ctl opA

def mulResult : BitVec 64 :=
  (extended ctl.macOpASign (macOpA ctl opA)).signExtend 64 *
    (extended ctl.macOpBSign (macGated ctl opB)).signExtend 64

def macResult : Word :=
  match ctl.macOp with
  | .mulLow => (mulResult ctl opA opB).extractLsb' 0 32
  | .mulHigh => (mulResult ctl opA opB).extractLsb' 32 32
  | .mulMac => macGated ctl opC + (mulResult ctl opA opB).extractLsb' 0 32
  | .noMul => 0

/-! ### SIMD operations -/

def simdGated {w : Nat} (x : BitVec w) : BitVec w :=
  if ctl.macOp != .noMul then 0 else if ctl.simdOp != .nop then x else 0

def simdImm : BitVec 16 :=
  if ctl.simdSigned then (simdGated ctl (imm6 operator)).signExtend 16
  else (simdGated ctl (imm6 operator)).setWidth 16

def simdOpBHalf (i : Nat) : BitVec 16 :=
  match ctl.simdMode with
  | .vect | .high => half (simdGated ctl opB) i
  | .sc => half (simdGated ctl opB) 0
  | .sci => simdImm ctl operator

def simdOpBByte (i : Nat) : BitVec 8 :=
  match ctl.simdMode with
  | .vect => byte (simdGated ctl opB) i
  | .sc => byte (simdGated ctl opB) 0
  | .sci | .high => (simdImm ctl operator).extractLsb' 0 8

/-- The operations that work on each lane alone; shifts look at the lowest `shift` bits
of the second operand. -/
def lane (op : SimdOp) (signed : Bool) (shift : Nat) {w : Nat} (a b : BitVec w) : BitVec w :=
  match op with
  | .add => a + b
  | .sub => a - b
  | .avg => (extended signed (a + b) >>> 1).setWidth w
  | .min => if (extended signed a).sle (extended signed b) then a else b
  | .max => if (extended signed b).slt (extended signed a) then a else b
  | .srl => a >>> (b.extractLsb' 0 shift).toNat
  | .sra => a.sshiftRight (b.extractLsb' 0 shift).toNat
  | .sll => a <<< (b.extractLsb' 0 shift).toNat
  | .or => a ||| b
  | .xor => a ^^^ b
  | .and => a &&& b
  | .abs => if BitVec.slt 0 a then a else -a
  | _ => 0

/-- What a dot product starts from. -/
def dotpInit : Word := if ctl.simdDotpAcc then opC else 0

def dotpTerm {w : Nat} (a b : BitVec w) : Word :=
  (extended ctl.simdDotpOpASigned a).signExtend 32 *
    (extended ctl.simdDotpOpBSigned b).signExtend 32

def simdHalf : Word :=
  let a := half (simdGated ctl opA)
  let b := simdOpBHalf ctl operator opB
  let c := half (simdGated ctl opC)
  let index := ((simdGated ctl (imm6 operator)).extractLsb' 0 1).toNat
  match ctl.simdOp with
  | .nop => 0
  | .ext => (if (a index).msb && ctl.simdSigned then BitVec.allOnes 16 else 0) ++ a index
  | .ins => halves fun i => if i = index then a 0 else c i
  | .dotp => (List.range 2).foldl (fun acc i => acc + dotpTerm ctl (a i) (b i)) (dotpInit ctl opC)
  | .shuffle =>
      halves fun i =>
        let source := ((b i).extractLsb' 0 1).toNat
        if (b i).getLsbD 1 then a source else c source
  | .pack => if ctl.simdMode == .high then a 1 ++ b 1 else a 0 ++ b 0
  | op => halves fun i => lane op ctl.simdSigned 4 (a i) (b i)

def simdByte : Word :=
  let a := byte (simdGated ctl opA)
  let b := simdOpBByte ctl operator opB
  let c := byte (simdGated ctl opC)
  let index := ((simdGated ctl (imm6 operator)).extractLsb' 0 2).toNat
  match ctl.simdOp with
  | .nop | .pack => 0
  | .ext => (if (a index).msb && ctl.simdSigned then BitVec.allOnes 24 else 0) ++ a index
  | .ins => bytes fun i => if i = index then a 0 else c i
  | .dotp =>
      (List.range 4).foldl (fun acc i => acc + dotpTerm ctl (a i) (b i))
        (dotpInit ctl (simdGated ctl opC))
  | .shuffle =>
      bytes fun i =>
        let source := ((b i).extractLsb' 0 2).toNat
        if (b i).getLsbD 2 then a source else c source
  | op => bytes fun i => lane op ctl.simdSigned 3 (a i) (b i)

def simdResult : Word :=
  match ctl.simdSize with
  | .halfWord => simdHalf ctl operator opA opB opC
  | .byte => simdByte ctl operator opA opB opC

/-! ### Result -/

def result : Word :=
  let cmp := cmpResult ctl operator opA opB
  match ctl.resSel with
  | .nop => 0
  | .abs => if cmp then -opA else opA
  | .sle => (BitVec.ofBool cmp).setWidth 32
  | .min => if cmp then opA else opB
  | .max => if !cmp then opA else opB
  | .exths => (opA.extractLsb' 0 16).signExtend 32
  | .exthz => (opA.extractLsb' 0 16).setWidth 32
  | .extbs => (opA.extractLsb' 0 8).signExtend 32
  | .extbz => (opA.extractLsb' 0 8).setWidth 32
  | .clip =>
      if cmp then if clipUseNBound ctl operator opA opB then clipOpBN ctl operator opB else opA
      else if opA.msb then opA else clipOpB ctl operator opB
  | .mac => macResult ctl opA opB opC
  | .simd => simdResult ctl operator opA opB opC

end Datapath

end Dspu

/-- The result of the unit for an instruction word and the contents of `rs1`, `rs2` and
`rd`. -/
def dspu (operator : BitVec 32) (opA opB opC : Word) : Word :=
  match rowOf operator with
  | some row => Dspu.result (Dspu.control row.op) operator opA opB opC
  | none => Dspu.result {} operator opA opB opC

end TeraNoC.Snitch
