import Mathlib.Data.List.Fold
import TeraNoC.Proofs.DspLanes

/-!
# The DSP unit agrees with the instruction set simulator

An instruction agrees with the simulator when the unit's result is what the simulator
puts into the lowest 32 bits of the destination, for every instruction word and all
contents of the registers. The instructions of a family share their proof: what has to
be compared is one lane, where the simulator computes on an extension of what the unit
computes on.

One instruction does not agree. The simulator's `pv.and.sci.h` keeps its lanes in a
variable of eight bits, so that it loses the upper byte of each half-word; the unit
does not. They differ as soon as the immediate is negative and the operand has a bit in
one of these bytes.
-/

namespace TeraNoC.Spike

open TeraNoC.Hw TeraNoC.Snitch TeraNoC.Lib

/-- The unit's result for an operation, and the simulator's instruction for it. -/
def Agrees (op : Op) (f : DspInsn) : Prop :=
  ∀ (insn : BitVec 32) (a b c : Word),
    (f (args insn a b c)).setWidth 32 = Dspu.result (Dspu.control op) insn a b c

/-! ## Instructions on lanes -/

section LaneWise

variable {op : Op} (l : Lanes) (m : Second)

/-- It is enough that the two agree on each lane. -/
theorem lanes_agree {simdOp : Dspu.SimdOp} {signed : Bool} {temp : DspArgs → Nat → Reg}
    (hop : Dspu.control op = Dspu.simd simdOp l.size m.mode signed)
    (hlane : simdOp ∉ [.nop, .ext, .ins, .dotp, .shuffle, .pack])
    (htemp : ∀ insn a b c i, i < l.count → (temp (args insn a b c) i).setWidth l.width =
      Dspu.lane simdOp signed l.shift (l.cut a i) (m.operand l signed insn b i)) :
    Agrees op fun x => l.simd (temp x) := by
  intro insn a b c
  rw [hop, result_simd m signed insn a b c l hlane]
  exact l.simd_eq_join fun i hi => htemp insn a b c i hi

theorem le_reg : l.width ≤ 64 := l.width_le.trans (by decide)

theorem add_agrees (hop : Dspu.control op = Dspu.simd .add l.size m.mode true) :
    Agrees op (pvAdd l m) := by
  refine lanes_agree l m hop (by decide) fun insn a b c i hi => ?_
  have hrs1 := l.sext_get hi a
  have hop2 := m.sext_eq insn a b c hi
  change (l.sext (l.get (reg a) i) + m.sext l (args insn a b c) i).setWidth l.width =
    l.cut a i + m.operand l true insn b i
  rw [hrs1, hop2, BitVec.setWidth_add _ _ (le_reg l), setWidth_signExtend (le_reg l),
    setWidth_signExtend (le_reg l)]

theorem sub_agrees (hop : Dspu.control op = Dspu.simd .sub l.size m.mode true) :
    Agrees op (pvSub l m) := by
  refine lanes_agree l m hop (by decide) fun insn a b c i hi => ?_
  have hrs1 := l.sext_get hi a
  have hop2 := m.sext_eq insn a b c hi
  change (l.sext (l.get (reg a) i) - m.sext l (args insn a b c) i).setWidth l.width =
    l.cut a i - m.operand l true insn b i
  rw [hrs1, hop2, setWidth_sub (le_reg l), setWidth_signExtend (le_reg l),
    setWidth_signExtend (le_reg l)]

theorem avg_agrees (hop : Dspu.control op = Dspu.simd .avg l.size m.mode true) :
    Agrees op (pvAvg l m) := by
  refine lanes_agree l m hop (by decide) fun insn a b c i hi => ?_
  have hrs1 := l.sext_get hi a
  have hop2 := m.sext_eq insn a b c hi
  change ((l.sext (l.sext (l.get (reg a) i) + m.sext l (args insn a b c) i)).sshiftRight 1).setWidth
    l.width = (Dspu.extended true (l.cut a i + m.operand l true insn b i) >>> 1).setWidth l.width
  rw [hrs1, hop2, Lanes.sext, BitVec.setWidth_add _ _ (le_reg l),
    setWidth_signExtend (le_reg l), setWidth_signExtend (le_reg l),
    sshiftRight_signExtend (le_reg l), setWidth_signExtend (le_reg l), avg_signed]

theorem avgu_agrees (hop : Dspu.control op = Dspu.simd .avg l.size m.mode false) :
    Agrees op (pvAvgu l m) := by
  refine lanes_agree l m hop (by decide) fun insn a b c i hi => ?_
  have hrs1 := l.zext_get hi a
  have hop2 := m.zext_eq insn a b c hi
  change (l.zext (l.zext (l.get (reg a) i) + m.zext l (args insn a b c) i) >>> 1).setWidth
    l.width = (Dspu.extended false (l.cut a i + m.operand l false insn b i) >>> 1).setWidth l.width
  rw [hrs1, hop2, Lanes.zext, BitVec.setWidth_add _ _ (le_reg l), setWidth_extend (le_reg l),
    setWidth_extend (le_reg l), shiftRight_extend (le_reg l), avg_unsigned]

theorem min_agrees (hop : Dspu.control op = Dspu.simd .min l.size m.mode true) :
    Agrees op (pvMin l m) := by
  refine lanes_agree l m hop (by decide) fun insn a b c i hi => ?_
  have hrs1 := l.sext_get hi a
  have hop2 := m.sext_eq insn a b c hi
  have hraw1 := l.setWidth_get hi a
  have hraw2 := m.raw_eq insn a b c hi
  change (if (l.sext (l.get (reg a) i)).sle (m.sext l (args insn a b c) i) then _ else _ :
    Reg).setWidth l.width = if (Dspu.extended true (l.cut a i)).sle
      (Dspu.extended true (m.operand l true insn b i)) then l.cut a i
      else m.operand l true insn b i
  rw [hrs1, hop2, sle_signExtend (le_reg l), sle_extended_signed]
  split
  · exact hraw1
  · exact hraw2

theorem minu_agrees (hop : Dspu.control op = Dspu.simd .min l.size m.mode false) :
    Agrees op (pvMinu l m) := by
  refine lanes_agree l m hop (by decide) fun insn a b c i hi => ?_
  have hrs1 := l.zext_get hi a
  have hop2 := m.zext_eq insn a b c hi
  have hraw1 := l.setWidth_get hi a
  have hraw2 := m.rawu_eq insn a b c hi
  change (if (l.zext (l.get (reg a) i)).ule (m.zext l (args insn a b c) i) then _ else _ :
    Reg).setWidth l.width = if (Dspu.extended false (l.cut a i)).sle
      (Dspu.extended false (m.operand l false insn b i)) then l.cut a i
      else m.operand l false insn b i
  rw [hrs1, hop2, ule_extend (le_reg l), sle_extended_unsigned]
  split
  · exact hraw1
  · exact hraw2

theorem max_agrees (hop : Dspu.control op = Dspu.simd .max l.size m.mode true) :
    Agrees op (pvMax l m) := by
  refine lanes_agree l m hop (by decide) fun insn a b c i hi => ?_
  have hrs1 := l.sext_get hi a
  have hop2 := m.sext_eq insn a b c hi
  have hraw1 := l.setWidth_get hi a
  have hraw2 := m.raw_eq insn a b c hi
  change (if (m.sext l (args insn a b c) i).slt (l.sext (l.get (reg a) i)) then _ else _ :
    Reg).setWidth l.width = if (Dspu.extended true (m.operand l true insn b i)).slt
      (Dspu.extended true (l.cut a i)) then l.cut a i else m.operand l true insn b i
  rw [hrs1, hop2, slt_signExtend (le_reg l), slt_extended_signed]
  split
  · exact hraw1
  · exact hraw2

theorem maxu_agrees (hop : Dspu.control op = Dspu.simd .max l.size m.mode false) :
    Agrees op (pvMaxu l m) := by
  refine lanes_agree l m hop (by decide) fun insn a b c i hi => ?_
  have hrs1 := l.zext_get hi a
  have hop2 := m.zext_eq insn a b c hi
  have hraw1 := l.setWidth_get hi a
  have hraw2 := m.rawu_eq insn a b c hi
  change (if (m.zext l (args insn a b c) i).ult (l.zext (l.get (reg a) i)) then _ else _ :
    Reg).setWidth l.width = if (Dspu.extended false (m.operand l false insn b i)).slt
      (Dspu.extended false (l.cut a i)) then l.cut a i else m.operand l false insn b i
  rw [hrs1, hop2, ult_extend (le_reg l), slt_extended_unsigned]
  split
  · exact hraw1
  · exact hraw2

theorem srl_agrees (hop : Dspu.control op = Dspu.simd .srl l.size m.mode true) :
    Agrees op (pvSrl l m) := by
  refine lanes_agree l m hop (by decide) fun insn a b c i hi => ?_
  have hrs1 := l.zext_get hi a
  change (l.zext (l.get (reg a) i) >>> m.amount l (args insn a b c) i).setWidth l.width =
    l.cut a i >>> ((m.operand l true insn b i).extractLsb' 0 l.shift).toNat
  rw [hrs1, m.amount_eq insn a b c hi, shiftRight_extend (le_reg l)]

theorem sra_agrees (hop : Dspu.control op = Dspu.simd .sra l.size m.mode true) :
    Agrees op (pvSra l m) := by
  refine lanes_agree l m hop (by decide) fun insn a b c i hi => ?_
  have hrs1 := l.sext_get hi a
  change ((l.sext (l.get (reg a) i)).sshiftRight (m.amount l (args insn a b c) i)).setWidth
    l.width = (l.cut a i).sshiftRight ((m.operand l true insn b i).extractLsb' 0 l.shift).toNat
  rw [hrs1, m.amount_eq insn a b c hi, sshiftRight_signExtend (le_reg l),
    setWidth_signExtend (le_reg l)]

theorem sll_agrees (hop : Dspu.control op = Dspu.simd .sll l.size m.mode true) :
    Agrees op (pvSll l m) := by
  refine lanes_agree l m hop (by decide) fun insn a b c i hi => ?_
  have hrs1 := l.zext_get hi a
  change (l.zext (l.get (reg a) i) <<< m.amount l (args insn a b c) i).setWidth l.width =
    l.cut a i <<< ((m.operand l true insn b i).extractLsb' 0 l.shift).toNat
  rw [hrs1, m.amount_eq insn a b c hi, shiftLeft_extend (le_reg l)]

theorem or_agrees (hop : Dspu.control op = Dspu.simd .or l.size m.mode true) :
    Agrees op (pvOr l m) := by
  refine lanes_agree l m hop (by decide) fun insn a b c i hi => ?_
  have hraw1 := l.setWidth_get hi a
  have hraw2 := m.raw_eq insn a b c hi
  change (l.get (reg a) i ||| m.raw l (args insn a b c) i).setWidth l.width =
    l.cut a i ||| m.operand l true insn b i
  rw [BitVec.setWidth_or, hraw1, hraw2]

theorem xor_agrees (hop : Dspu.control op = Dspu.simd .xor l.size m.mode true) :
    Agrees op (pvXor l m) := by
  refine lanes_agree l m hop (by decide) fun insn a b c i hi => ?_
  have hraw1 := l.setWidth_get hi a
  have hraw2 := m.raw_eq insn a b c hi
  change (l.get (reg a) i ^^^ m.raw l (args insn a b c) i).setWidth l.width =
    l.cut a i ^^^ m.operand l true insn b i
  rw [BitVec.setWidth_xor, hraw1, hraw2]

theorem and_agrees (hop : Dspu.control op = Dspu.simd .and l.size m.mode true) :
    Agrees op (pvAnd l m) := by
  refine lanes_agree l m hop (by decide) fun insn a b c i hi => ?_
  have hraw1 := l.setWidth_get hi a
  have hraw2 := m.raw_eq insn a b c hi
  change (l.get (reg a) i &&& m.raw l (args insn a b c) i).setWidth l.width =
    l.cut a i &&& m.operand l true insn b i
  rw [BitVec.setWidth_and, hraw1, hraw2]

theorem pvAbs_agrees (hop : Dspu.control op = Dspu.simd .abs l.size .vect true) :
    Agrees op (pvAbs l) := by
  refine lanes_agree l .vect hop (by decide) fun insn a b c i hi => ?_
  have hrs1 := l.sext_get hi a
  have hraw1 := l.setWidth_get hi a
  have hzero : (0 : Reg) = (0 : BitVec l.width).signExtend 64 := by cases l <;> decide
  change (if BitVec.slt 0 (l.sext (l.get (reg a) i)) then l.get (reg a) i
    else -l.sext (l.get (reg a) i) : Reg).setWidth l.width =
      if BitVec.slt 0 (l.cut a i) then l.cut a i else -l.cut a i
  rw [hrs1, hzero, slt_signExtend (le_reg l)]
  split
  · exact hraw1
  · rw [BitVec.setWidth_neg_of_le (le_reg l), setWidth_signExtend (le_reg l)]

end LaneWise

/-! ## Dot products -/

section Dot

variable {op : Op} (l : Lanes) (m : Second)

/-- The accumulator has 32 bits all the way, so that the sum may as well be made of the
lowest 32 bits of the products, and from the lowest lane upwards. -/
theorem low_accumulate (signed : Bool) (acc : Word) (term : Nat → Reg) :
    (l.accumulate signed acc term).setWidth 32 =
      (List.range l.count).foldl (fun acc i => acc + (term i).setWidth 32) acc := by
  have hlow : ∀ acc : Word,
      (if signed then acc.signExtend 64 else acc.setWidth 64).setWidth 32 = acc := by
    intro acc
    cases signed with
    | false => exact setWidth_extend (by decide) acc
    | true => exact setWidth_signExtend (by decide) acc
  have hturn : (fun i (acc : Word) =>
      ((if signed then acc.signExtend 64 else acc.setWidth 64) + term i).setWidth 32) =
        fun i acc => acc + (term i).setWidth 32 := by
    funext i acc
    rw [BitVec.setWidth_add _ _ (by decide), hlow]
  have hcomm : RightCommutative fun (acc : Word) i => acc + (term i).setWidth 32 :=
    ⟨fun x i j => add_right_comm x _ _⟩
  rw [Lanes.accumulate, low_sextXlen, hlow, hturn]
  exact List.foldr_flip_eq_foldl

theorem foldl_lanes {f g : Word → Nat → Word} (n : Nat) (h : ∀ s, ∀ i < n, f s i = g s i)
    (init : Word) : (List.range n).foldl f init = (List.range n).foldl g init :=
  List.foldl_ext _ _ _ fun s i hi => h s i (List.mem_range.mp hi)

variable (signed signA signB acc : Bool) (insn : BitVec 32) (a b c : Word)

theorem result_dotp_half (ctl : Dspu.Control)
    (hctl : ctl = Dspu.dotp signed signA signB acc .halfWord m.mode) :
    Dspu.result ctl insn a b c = (List.range 2).foldl (fun s i =>
      s + Dspu.dotpTerm ctl (Dspu.half a i) (m.operand .h signed insn b i))
        (if acc then c else 0) := by
  have hresult : Dspu.result ctl insn a b c = (List.range 2).foldl (fun s i =>
      s + Dspu.dotpTerm ctl (Dspu.half a i) (Dspu.simdOpBHalf ctl insn b i))
        (if acc then c else 0) := by
    rw [hctl]
    rfl
  have hop2 : ∀ i, Dspu.simdOpBHalf ctl insn b i = m.operand .h signed insn b i := by
    rw [hctl]
    exact operand_half m signed insn b (by decide : Dspu.SimdOp.dotp ≠ .nop)
  rw [hresult]
  exact foldl_lanes 2 (fun s i _ => by rw [hop2]) _

theorem result_dotp_byte (ctl : Dspu.Control)
    (hctl : ctl = Dspu.dotp signed signA signB acc .byte m.mode) :
    Dspu.result ctl insn a b c = (List.range 4).foldl (fun s i =>
      s + Dspu.dotpTerm ctl (Dspu.byte a i) (m.operand .b signed insn b i))
        (if acc then c else 0) := by
  have hresult : Dspu.result ctl insn a b c = (List.range 4).foldl (fun s i =>
      s + Dspu.dotpTerm ctl (Dspu.byte a i) (Dspu.simdOpBByte ctl insn b i))
        (if acc then c else 0) := by
    rw [hctl]
    rfl
  have hop2 : ∀ i, Dspu.simdOpBByte ctl insn b i = m.operand .b signed insn b i := by
    rw [hctl]
    exact operand_byte m signed insn b (by decide : Dspu.SimdOp.dotp ≠ .nop)
  rw [hresult]
  exact foldl_lanes 4 (fun s i _ => by rw [hop2]) _

theorem result_dotp (ctl : Dspu.Control)
    (hctl : ctl = Dspu.dotp signed signA signB acc l.size m.mode) :
    Dspu.result ctl insn a b c = (List.range l.count).foldl (fun s i =>
      s + Dspu.dotpTerm ctl (l.cut a i) (m.operand l signed insn b i))
        (if acc then c else 0) := by
  cases l with
  | h => exact result_dotp_half m signed signA signB acc insn a b c ctl hctl
  | b => exact result_dotp_byte m signed signA signB acc insn a b c ctl hctl

/-- It is enough that the products agree in their lowest 32 bits. -/
theorem dotp_agrees {term : DspArgs → Nat → Reg}
    (hop : Dspu.control op = Dspu.dotp signed signA signB acc l.size m.mode)
    (hterm : ∀ insn a b c i, i < l.count → (term (args insn a b c) i).setWidth 32 =
      (Dspu.extended signA (l.cut a i)).signExtend 32 *
        (Dspu.extended signB (m.operand l signed insn b i)).signExtend 32) :
    Agrees op fun x =>
      l.accumulate signed (if acc then x.rd.setWidth 32 else 0) (term x) := by
  intro insn a b c
  have hinit : (if acc then (reg c).setWidth 32 else 0) = if acc then c else 0 := by
    rw [low_reg]
  rw [low_accumulate, result_dotp l m signed signA signB acc insn a b c _ hop]
  change (List.range l.count).foldl _ (if acc then (reg c).setWidth 32 else 0) = _
  rw [hinit]
  refine foldl_lanes l.count (fun s i hi => ?_) _
  rw [hterm insn a b c i hi, hop]
  rfl

theorem low_mul {x y : Reg} : (x * y).setWidth 32 = x.setWidth 32 * y.setWidth 32 :=
  BitVec.setWidth_mul x y (by decide)

theorem width_lt (l : Lanes) : 1 + l.width ≤ 32 := by cases l <;> decide

/-- The lowest 32 bits of a signed lane. -/
theorem low_signed (v : BitVec l.width) :
    (v.signExtend 64).setWidth 32 = (Dspu.extended true v).signExtend 32 := by
  rw [setWidth_signExtend_of_le (by decide), signExtend_extended_signed (width_lt l)]

theorem low_unsigned (v : BitVec l.width) :
    (v.setWidth 64).setWidth 32 = (Dspu.extended false v).signExtend 32 := by
  rw [BitVec.setWidth_setWidth_of_le _ (by decide), signExtend_extended_unsigned (width_lt l)]

/-- Both factors unsigned, with or without the accumulator. -/
theorem dotup_term {i : Nat} (hi : i < l.count) :
    (l.zext (l.get (reg a) i) * m.zext l (args insn a b c) i).setWidth 32 =
      (Dspu.extended false (l.cut a i)).signExtend 32 *
        (Dspu.extended false (m.operand l false insn b i)).signExtend 32 := by
  rw [l.zext_get hi, m.zext_eq insn a b c hi, low_mul, low_unsigned, low_unsigned]

theorem dotusp_term {i : Nat} (hi : i < l.count) :
    (l.zext (l.get (reg a) i) * m.sext l (args insn a b c) i).setWidth 32 =
      (Dspu.extended false (l.cut a i)).signExtend 32 *
        (Dspu.extended true (m.operand l true insn b i)).signExtend 32 := by
  rw [l.zext_get hi, m.sext_eq insn a b c hi, low_mul, low_unsigned, low_signed]

theorem dotsp_term {i : Nat} (hi : i < l.count) :
    (l.sext (l.get (reg a) i) * m.sext l (args insn a b c) i).setWidth 32 =
      (Dspu.extended true (l.cut a i)).signExtend 32 *
        (Dspu.extended true (m.operand l true insn b i)).signExtend 32 := by
  rw [l.sext_get hi, m.sext_eq insn a b c hi, low_mul, low_signed, low_signed]

theorem dotup_agrees (hop : Dspu.control op = Dspu.dotup l.size m.mode) :
    Agrees op (pvDotup l m) :=
  dotp_agrees l m false false false false hop fun insn a b c _ => dotup_term l m insn a b c

theorem dotusp_agrees (hop : Dspu.control op = Dspu.dotusp l.size m.mode) :
    Agrees op (pvDotusp l m) :=
  dotp_agrees l m true false true false hop fun insn a b c _ => dotusp_term l m insn a b c

theorem dotsp_agrees (hop : Dspu.control op = Dspu.dotsp l.size m.mode) :
    Agrees op (pvDotsp l m) :=
  dotp_agrees l m true true true false hop fun insn a b c _ => dotsp_term l m insn a b c

theorem sdotup_agrees (hop : Dspu.control op = Dspu.sdotup l.size m.mode) :
    Agrees op (pvSdotup l m) :=
  dotp_agrees l m false false false true hop fun insn a b c _ => dotup_term l m insn a b c

theorem sdotusp_agrees (hop : Dspu.control op = Dspu.sdotusp l.size m.mode) :
    Agrees op (pvSdotusp l m) :=
  dotp_agrees l m true false true true hop fun insn a b c _ => dotusp_term l m insn a b c

theorem sdotsp_agrees (hop : Dspu.control op = Dspu.sdotsp l.size m.mode) :
    Agrees op (pvSdotsp l m) :=
  dotp_agrees l m true true true true hop fun insn a b c _ => dotsp_term l m insn a b c

end Dot

/-! ## Moves of lanes -/

section Moves

variable {op : Op} (l : Lanes) (insn : BitVec 32) (a b c : Word)

/-- The unit's number of a lane, from the immediate. -/
theorem laneOf_eq : laneOf l (args insn a b c) =
    ((Dspu.imm6 insn).extractLsb' 0 l.bits).toNat := by
  have hcount : l.count = 2 ^ l.bits := by cases l <;> rfl
  have hle : (6 : Nat) ≤ 64 := by decide
  rw [laneOf, zimm6_eq, BitVec.toNat_setWidth_of_le hle, BitVec.extractLsb'_toNat, hcount,
    Nat.shiftRight_zero]
  rfl

theorem laneOf_lt : laneOf l (args insn a b c) < l.count :=
  Nat.mod_lt _ (Second.count_pos l)

/-- A lane in front of which stand its sign bits, or zeros. -/
theorem result_ext_half (signed : Bool) {i : Nat}
    (hi : ((Dspu.imm6 insn).extractLsb' 0 1).toNat = i) :
    Dspu.result (Dspu.simd .ext .halfWord .vect signed) insn a b c =
      if signed then (Dspu.half a i).signExtend 32 else (Dspu.half a i).setWidth 32 := by
  have hresult : Dspu.result (Dspu.simd .ext .halfWord .vect signed) insn a b c =
      (if (Dspu.half a i).msb && signed then BitVec.allOnes 16 else 0#16) ++ Dspu.half a i := by
    rw [← hi]
    rfl
  rw [hresult]
  cases signed with
  | false => rw [Bool.and_false]; exact zero_append 16 _
  | true => rw [Bool.and_true]; exact sign_append 16 _

theorem result_ext_byte (signed : Bool) {i : Nat}
    (hi : ((Dspu.imm6 insn).extractLsb' 0 2).toNat = i) :
    Dspu.result (Dspu.simd .ext .byte .vect signed) insn a b c =
      if signed then (Dspu.byte a i).signExtend 32 else (Dspu.byte a i).setWidth 32 := by
  have hresult : Dspu.result (Dspu.simd .ext .byte .vect signed) insn a b c =
      (if (Dspu.byte a i).msb && signed then BitVec.allOnes 24 else 0#24) ++ Dspu.byte a i := by
    rw [← hi]
    rfl
  rw [hresult]
  cases signed with
  | false => rw [Bool.and_false]; exact zero_append 24 _
  | true => rw [Bool.and_true]; exact sign_append 24 _

theorem result_ext (signed : Bool) :
    Dspu.result (Dspu.simd .ext l.size .vect signed) insn a b c =
      if signed then (l.cut a (laneOf l (args insn a b c))).signExtend 32
      else (l.cut a (laneOf l (args insn a b c))).setWidth 32 := by
  cases l with
  | h => exact result_ext_half insn a b c signed (laneOf_eq .h insn a b c).symm
  | b => exact result_ext_byte insn a b c signed (laneOf_eq .b insn a b c).symm

theorem extract_agrees (hop : Dspu.control op = Dspu.simd .ext l.size .vect true) :
    Agrees op (pvExtract l) := by
  intro insn a b c
  rw [hop, result_ext, if_pos rfl]
  change (l.sext (l.get (reg a) (laneOf l (args insn a b c)))).setWidth 32 = _
  rw [l.sext_get (laneOf_lt l insn a b c), setWidth_signExtend_of_le (by decide)]

theorem extractu_agrees (hop : Dspu.control op = Dspu.simd .ext l.size .vect false) :
    Agrees op (pvExtractu l) := by
  intro insn a b c
  rw [hop, result_ext, if_neg Bool.false_ne_true]
  change (l.zext (l.get (reg a) (laneOf l (args insn a b c)))).setWidth 32 = _
  rw [l.zext_get (laneOf_lt l insn a b c), BitVec.setWidth_setWidth_of_le _ (by decide)]

theorem result_ins : Dspu.result (Dspu.simd .ins l.size .vect true) insn a b c =
    l.join fun i => if i = laneOf l (args insn a b c) then l.cut a 0 else l.cut c i := by
  cases l with
  | h =>
      rw [laneOf_eq]
      rfl
  | b =>
      rw [laneOf_eq]
      rfl

theorem insert_agrees (hop : Dspu.control op = Dspu.simd .ins l.size .vect true) :
    Agrees op (pvInsert l) := by
  intro insn a b c
  rw [hop, result_ins]
  have hw : 0 < l.width := l.width_pos
  have hle : l.width ≤ 16 := by cases l <;> decide
  generalize hplace : laneOf l (args insn a b c) = i
  change (sextXlen (((((reg c).setWidth 32 &&&
    ~~~(l.mask.setWidth 32 <<< (l.width * laneOf l (args insn a b c)))).setWidth 64 |||
      (Lanes.h.get (reg a) 0 &&& l.mask) <<< (l.width * laneOf l (args insn a b c))).setWidth
        32).setWidth 64)).setWidth 32 = _
  rw [hplace, low_sextXlen_extend, low_reg, Lanes.get_reg (by decide)]
  apply BitVec.eq_of_getLsbD_eq
  intro j hj
  have h64 : j < 64 := by omega
  have hj' : l.width * (j / l.width) + j % l.width = j := Nat.div_add_mod j l.width
  have hmod : j % l.width < l.width := Nat.mod_lt _ hw
  rw [l.getLsbD_join _ hj]
  rw [BitVec.getLsbD_setWidth, BitVec.getLsbD_or, BitVec.getLsbD_setWidth, BitVec.getLsbD_and,
    BitVec.getLsbD_not, BitVec.getLsbD_shiftLeft, BitVec.getLsbD_shiftLeft, BitVec.getLsbD_and,
    Lanes.mask_low, Lanes.getLsbD_mask, BitVec.getLsbD_setWidth]
  by_cases hi : j / l.width = i
  · -- the lane that is replaced
    have hge : ¬ j < l.width * i := by
      rw [← hi]
      omega
    have hsub : j - l.width * i = j % l.width := by
      rw [← hi]
      omega
    have hcut : (Lanes.h.cut a 0).getLsbD (j % l.width) = a.getLsbD (j % l.width) := by
      rw [Lanes.getLsbD_cut .h a 0 (hmod.trans_le hle), Nat.mul_zero, Nat.zero_add]
    have hlow : j % l.width < 64 := by omega
    rw [if_pos hi, l.getLsbD_cut a 0 hmod, hsub, hcut, Nat.mul_zero, Nat.zero_add]
    simp [hj, h64, hge, hmod, hlow]
  · -- a lane of the destination, above or below
    have hout : j < l.width * i ∨ ¬ j - l.width * i < l.width := by
      rcases Nat.lt_or_gt_of_ne hi with hlt | hgt
      · left
        exact (Nat.div_lt_iff_lt_mul hw).mp hlt |>.trans_eq (Nat.mul_comm _ _)
      · right
        have hstep : (i + 1) * l.width ≤ j := (Nat.le_div_iff_mul_le hw).mp hgt
        rw [Nat.add_mul, Nat.one_mul, Nat.mul_comm] at hstep
        omega
    rw [if_neg hi, l.getLsbD_cut c _ hmod, hj']
    rcases hout with hlt | hge
    · simp [hj, h64, hlt]
    · simp [hj, h64, hge]

theorem result_shuffle_half : Dspu.result (Dspu.simd .shuffle .halfWord .vect true) insn a b c =
    Dspu.halves fun i =>
      if (Dspu.half b i).getLsbD 1 then Dspu.half a ((Dspu.half b i).toNat % 2)
      else Dspu.half c ((Dspu.half b i).toNat % 2) := by
  have hsel : ∀ v : BitVec 16, (v.extractLsb' 0 1).toNat = v.toNat % 2 := fun v => by
    rw [BitVec.extractLsb'_toNat, Nat.shiftRight_zero]
  have hresult : Dspu.result (Dspu.simd .shuffle .halfWord .vect true) insn a b c =
      Dspu.halves fun i =>
        if (Dspu.half b i).getLsbD 1 then Dspu.half a ((Dspu.half b i).extractLsb' 0 1).toNat
        else Dspu.half c ((Dspu.half b i).extractLsb' 0 1).toNat := rfl
  rw [hresult]
  exact Lanes.halves_congr fun i _ => by rw [hsel]

theorem result_shuffle_byte : Dspu.result (Dspu.simd .shuffle .byte .vect true) insn a b c =
    Dspu.bytes fun i =>
      if (Dspu.byte b i).getLsbD 2 then Dspu.byte a ((Dspu.byte b i).toNat % 4)
      else Dspu.byte c ((Dspu.byte b i).toNat % 4) := by
  have hsel : ∀ v : BitVec 8, (v.extractLsb' 0 2).toNat = v.toNat % 4 := fun v => by
    rw [BitVec.extractLsb'_toNat, Nat.shiftRight_zero]
  have hresult : Dspu.result (Dspu.simd .shuffle .byte .vect true) insn a b c =
      Dspu.bytes fun i =>
        if (Dspu.byte b i).getLsbD 2 then Dspu.byte a ((Dspu.byte b i).extractLsb' 0 2).toNat
        else Dspu.byte c ((Dspu.byte b i).extractLsb' 0 2).toNat := rfl
  rw [hresult]
  exact Lanes.bytes_congr fun i _ => by rw [hsel]

/-- The lanes of a selector: the lowest bits are the lane's number, and the next one tells
the register. -/
theorem result_shuffle : Dspu.result (Dspu.simd .shuffle l.size .vect true) insn a b c =
    l.join fun i =>
      if (l.cut b i).getLsbD l.bits then l.cut a ((l.cut b i).toNat % l.count)
      else l.cut c ((l.cut b i).toNat % l.count) := by
  cases l with
  | h => exact result_shuffle_half insn a b c
  | b => exact result_shuffle_byte insn a b c

theorem bit_ne_zero (v : Reg) (k : Nat) : (v >>> k &&& 1 ≠ 0) ↔ v.getLsbD k = true := by
  have hbit : v >>> k &&& 1#64 = (BitVec.ofBool (v.getLsbD k)).setWidth 64 := by
    apply BitVec.eq_of_getLsbD_eq
    intro j hj
    rw [BitVec.getLsbD_and, BitVec.getLsbD_ushiftRight, BitVec.getLsbD_setWidth,
      BitVec.getLsbD_ofBool, BitVec.getLsbD_one]
    by_cases hzero : j = 0
    · subst hzero
      simp
    · simp [hzero]
  change v >>> k &&& 1#64 ≠ 0#64 ↔ _
  rw [hbit]
  cases v.getLsbD k <;> decide

theorem shuffle2_agrees (hop : Dspu.control op = Dspu.simd .shuffle l.size .vect true) :
    Agrees op (pvShuffle2 l) := by
  intro insn a b c
  rw [hop, result_shuffle]
  refine l.simd_eq_join fun i hi => ?_
  have hcount := Second.count_pos l
  have hsel : (l.get (reg b) i).toNat = (l.cut b i).toNat := by
    rw [l.get_reg hi, BitVec.toNat_setWidth_of_le (le_reg l)]
  have hlt : (l.cut b i).toNat % l.count < l.count := Nat.mod_lt _ hcount
  have hbit : (l.get (reg b) i).getLsbD l.bits = (l.cut b i).getLsbD l.bits := by
    have hbits : l.bits < 64 := by cases l <;> decide
    rw [l.get_reg hi, BitVec.getLsbD_setWidth, decide_eq_true hbits, Bool.true_and]
  change (if l.get (reg b) i >>> l.bits &&& 1 ≠ 0
    then l.get (reg a) ((l.get (reg b) i).toNat % l.count)
    else l.get (reg c) ((l.get (reg b) i).toNat % l.count) : Reg).setWidth l.width = _
  rw [hsel]
  simp only [bit_ne_zero, hbit]
  split
  · exact l.setWidth_get hlt a
  · exact l.setWidth_get hlt c

end Moves

/-! ## Packs -/

theorem low_word (v : Reg) : (sextXlen ((v.setWidth 32).setWidth 64)).setWidth 32 =
    v.setWidth 32 := low_sextXlen_extend _

/-- Two half-words, one above the other. -/
theorem low_pair (u v : BitVec 16) :
    (u.setWidth 64 <<< 16 ||| v.setWidth 64).setWidth 32 = u ++ v := by
  apply BitVec.eq_of_getLsbD_eq
  intro j hj
  have h64 : j < 64 := by omega
  rw [BitVec.getLsbD_setWidth, BitVec.getLsbD_or, BitVec.getLsbD_shiftLeft,
    BitVec.getLsbD_setWidth, BitVec.getLsbD_setWidth, BitVec.getLsbD_append]
  by_cases hlow : j < 16
  · simp [hj, h64, hlow]
  · have hsub : j - 16 < 64 := by omega
    simp [hj, h64, hlow, hsub, BitVec.getLsbD_of_ge v j (by omega)]

theorem and_mask_half (u : BitVec 16) : u.setWidth 64 &&& (0xffff : Reg) = u.setWidth 64 := by
  change u.setWidth 64 &&& Lanes.h.mask = _
  apply BitVec.eq_of_getLsbD_eq
  intro j hj
  rw [BitVec.getLsbD_and, Lanes.getLsbD_mask, BitVec.getLsbD_setWidth]
  by_cases hlow : j < Lanes.h.width
  · simp [hlow]
  · simp [BitVec.getLsbD_of_ge u j (Nat.le_of_not_lt hlow)]

theorem and_mask_high (u : BitVec 16) :
    u.setWidth 64 <<< 16 &&& (0xffff0000 : Reg) = u.setWidth 64 <<< 16 := by
  have hmask : (0xffff0000 : Reg) = (0xffff : Reg) <<< 16 := by decide
  rw [hmask, ← BitVec.shiftLeft_and_distrib, and_mask_half]

theorem get_half (v : Word) {i : Nat} (hi : i < 2) :
    Lanes.h.get (reg v) i = (Dspu.half v i).setWidth 64 :=
  Lanes.get_reg hi v

theorem pack_agrees : Agrees .pvPack pvPack := by
  intro insn a b c
  have hresult : Dspu.result (Dspu.control .pvPack) insn a b c =
      Dspu.half a 0 ++ Dspu.half b 0 := rfl
  change (sextXlen ((((Lanes.h.get (reg a) 0 &&& 0xffff) <<< 16 |||
    Lanes.h.get (reg b) 0 &&& 0xffff).setWidth 32).setWidth 64)).setWidth 32 = _
  rw [hresult, low_word, get_half a (by decide), get_half b (by decide), and_mask_half,
    and_mask_half, low_pair]

theorem packH_agrees : Agrees .pvPackH pvPackH := by
  intro insn a b c
  have hresult : Dspu.result (Dspu.control .pvPackH) insn a b c =
      Dspu.half a 1 ++ Dspu.half b 1 := rfl
  change (sextXlen (((Lanes.h.get (reg a) 1 <<< 16 &&& 0xffff0000 |||
    Lanes.h.get (reg b) 1 &&& 0xffff).setWidth 32).setWidth 64)).setWidth 32 = _
  rw [hresult, low_word, get_half a (by decide), get_half b (by decide), and_mask_high,
    and_mask_half, low_pair]

/-! ## Scalar instructions -/

section Scalar

variable {op : Op} (insn : BitVec 32) (a b c : Word)

/-- The comparator, with `op_b_i`. -/
theorem cmp_signed (res : Dspu.ResSel) :
    Dspu.cmpResult (Dspu.compare res true) insn a b = a.sle b :=
  sle_extended_signed a b

theorem cmp_unsigned (res : Dspu.ResSel) :
    Dspu.cmpResult (Dspu.compare res false) insn a b = a.ule b :=
  sle_extended_unsigned a b

theorem sle_reg : (reg a).sle (reg b) = a.sle b := sle_signExtend (by decide) a b

theorem slt_reg : (reg a).slt (reg b) = a.slt b := slt_signExtend (by decide) a b

theorem ule_reg : (reg a).ule (reg b) = a.ule b := ule_signExtend (by decide) a b

theorem ult_reg : (reg a).ult (reg b) = a.ult b := ult_signExtend (by decide) a b

theorem abs_agrees : Agrees .pAbs pAbs := by
  intro insn a b c
  have hresult : Dspu.result (Dspu.control .pAbs) insn a b c =
      if (Dspu.extended true a).sle (Dspu.extended true 0) then -a else a := rfl
  have hzero : (0 : Reg) = reg 0 := by decide
  change (if BitVec.slt 0 (reg a) then reg a else -reg a : Reg).setWidth 32 = _
  rw [hresult, sle_extended_signed, BitVec.sle_eq_not_slt, hzero, slt_reg]
  cases BitVec.slt 0 a with
  | false => exact (BitVec.setWidth_neg_of_le (by decide)).trans (congrArg _ (low_reg a))
  | true => exact low_reg a

theorem low_flag (t : Bool) :
    (if t then (1 : Reg) else 0).setWidth 32 = (BitVec.ofBool t).setWidth 32 := by
  cases t <;> decide

theorem slet_agrees : Agrees .pSlet pSlet := by
  intro insn a b c
  change (if (reg a).sle (reg b) then (1 : Reg) else 0).setWidth 32 =
    (BitVec.ofBool (Dspu.cmpResult (Dspu.compare .sle true) insn a b)).setWidth 32
  rw [cmp_signed, sle_reg, low_flag]

theorem sletu_agrees : Agrees .pSletu pSletu := by
  intro insn a b c
  change (if (reg a).ule (reg b) then (1 : Reg) else 0).setWidth 32 =
    (BitVec.ofBool (Dspu.cmpResult (Dspu.compare .sle false) insn a b)).setWidth 32
  rw [cmp_unsigned, ule_reg, low_flag]

theorem low_choice (t : Bool) :
    (if t then reg a else reg b).setWidth 32 = if t then a else b := by
  cases t
  · exact low_reg b
  · exact low_reg a

theorem pMin_agrees : Agrees .pMin pMin := by
  intro insn a b c
  change (if (reg a).sle (reg b) then reg a else reg b).setWidth 32 =
    if Dspu.cmpResult (Dspu.compare .min true) insn a b then a else b
  rw [cmp_signed, sle_reg, low_choice]

theorem pMinu_agrees : Agrees .pMinu pMinu := by
  intro insn a b c
  change (if (reg a).ule (reg b) then reg a else reg b).setWidth 32 =
    if Dspu.cmpResult (Dspu.compare .min false) insn a b then a else b
  rw [cmp_unsigned, ule_reg, low_choice]

theorem pMax_agrees : Agrees .pMax pMax := by
  intro insn a b c
  change (if (reg b).slt (reg a) then reg a else reg b).setWidth 32 =
    if !Dspu.cmpResult (Dspu.compare .max true) insn a b then a else b
  rw [cmp_signed, slt_reg, low_choice, BitVec.sle_eq_not_slt, Bool.not_not]

theorem pMaxu_agrees : Agrees .pMaxu pMaxu := by
  intro insn a b c
  change (if (reg b).ult (reg a) then reg a else reg b).setWidth 32 =
    if !Dspu.cmpResult (Dspu.compare .max false) insn a b then a else b
  rw [cmp_unsigned, ult_reg, low_choice, BitVec.ule_eq_not_ult, Bool.not_not]

theorem reg_cut (l : Lanes) : (reg a).setWidth l.width = a.extractLsb' 0 l.width := by
  rw [reg, setWidth_signExtend_of_le (le_reg l), ← BitVec.setWidth_eq_extractLsb' l.width_le,
    BitVec.signExtend_eq_setWidth_of_le _ l.width_le]

theorem exts_low (l : Lanes) :
    (l.sext (reg a)).setWidth 32 = (a.extractLsb' 0 l.width).signExtend 32 := by
  rw [Lanes.sext, reg_cut, setWidth_signExtend_of_le (by decide)]

theorem extz_low (l : Lanes) :
    (l.zext (reg a)).setWidth 32 = (a.extractLsb' 0 l.width).setWidth 32 := by
  rw [Lanes.zext, reg_cut, BitVec.setWidth_setWidth_of_le _ (by decide)]

theorem exths_agrees : Agrees .pExths pExths := fun _ a _ _ => exts_low a .h

theorem exthz_agrees : Agrees .pExthz pExthz := fun _ a _ _ => extz_low a .h

theorem extbs_agrees : Agrees .pExtbs pExtbs := fun _ a _ _ => exts_low a .b

theorem extbz_agrees : Agrees .pExtbz pExtbz := fun _ a _ _ => extz_low a .b

end Scalar

/-! ## Clips -/

section Clip

/-- The unit makes one comparison: with the lower bound if the operand or the upper bound
is negative, else with the upper bound. That is enough if only one of the bounds can
matter then. -/
theorem one_comparison {a lower upper : Word}
    (hbounds : if upper.msb then lower.msb = false else lower.sle 0) :
    (if a.sle (if a.msb || upper.msb then lower else upper)
      then if a.msb || upper.msb then lower else a
      else if a.msb then a else upper) =
      if a.sle lower then lower else if upper.sle a then upper else a := by
  have hsle : ∀ x y : Word, x.sle y = true ↔ x.toInt ≤ y.toInt := fun x y =>
    BitVec.sle_iff_toInt_le
  have hmsb : ∀ x : Word, x.msb = true ↔ x.toInt < 0 := fun x => by
    rw [BitVec.msb_eq_toInt, decide_eq_true_eq]
  have hmsb' : ∀ x : Word, x.msb = false ↔ 0 ≤ x.toInt := fun x => by
    rw [← Bool.not_eq_true, hmsb, Int.not_lt]
  cases hu : upper.msb with
  | true =>
      -- a negative upper bound lies below the lower one
      rw [hu, if_pos rfl] at hbounds
      have hlower := (hmsb' lower).mp hbounds
      have hupper := (hmsb upper).mp hu
      rw [Bool.or_true, if_pos rfl, if_pos rfl]
      by_cases hle : a.sle lower = true
      · rw [if_pos hle, if_pos hle]
      · have hgt := (hsle a lower).not.mp hle
        have hnonneg : a.msb = false := (hmsb' a).mpr (by omega)
        have hover : upper.sle a = true := (hsle upper a).mpr (by omega)
        rw [if_neg hle, if_neg hle, if_pos hover, hnonneg, if_neg Bool.false_ne_true]
  | false =>
      rw [hu, if_neg Bool.false_ne_true] at hbounds
      have hlower : lower.toInt ≤ 0 := (hsle lower 0).mp hbounds
      have hupper := (hmsb' upper).mp hu
      rw [Bool.or_false]
      cases ha : a.msb with
      | true =>
          have hneg := (hmsb a).mp ha
          have hunder : ¬ upper.sle a = true := (hsle upper a).not.mpr (by omega)
          rw [if_pos rfl, if_pos rfl, if_pos rfl, if_neg hunder]
      | false =>
          have hnonneg := (hmsb' a).mp ha
          rw [if_neg Bool.false_ne_true, if_neg Bool.false_ne_true, if_neg Bool.false_ne_true]
          by_cases hle : a.sle upper = true
          · rw [if_pos hle]
            have hau := (hsle a upper).mp hle
            by_cases hlo : a.sle lower = true
            · have heq : a = lower := BitVec.eq_of_toInt_eq (by
                have := (hsle a lower).mp hlo
                omega)
              rw [if_pos hlo, heq]
            · rw [if_neg hlo]
              by_cases hup : upper.sle a = true
              · have heq : a = upper := BitVec.eq_of_toInt_eq (by
                  have := (hsle upper a).mp hup
                  omega)
                rw [if_pos hup, heq]
              · rw [if_neg hup]
          · have hau := (hsle a upper).not.mp hle
            have hlo : ¬ a.sle lower = true := (hsle a lower).not.mpr (by omega)
            have hup : upper.sle a = true := (hsle upper a).mpr (by omega)
            rw [if_neg hle, if_neg hlo, if_pos hup]

theorem low_clamp {lower upper : DspArgs → Reg} {insn : BitVec 32} {a b c lo up : Word}
    (hlo : lower (args insn a b c) = reg lo) (hup : upper (args insn a b c) = reg up) :
    (clamp lower upper (args insn a b c)).setWidth 32 =
      if a.sle lo then lo else if up.sle a then up else a := by
  change (if (reg a).sle (lower (args insn a b c)) then lower (args insn a b c)
    else if (upper (args insn a b c)).sle (reg a) then upper (args insn a b c)
    else reg a).setWidth 32 = _
  rw [hlo, hup, sle_reg, sle_reg]
  split
  · exact low_reg lo
  · split
    · exact low_reg up
    · exact low_reg a

theorem clip_agrees {op : Op} (unsigned register : Bool) {lower upper : DspArgs → Reg}
    (hop : Dspu.control op = Dspu.clip unsigned register)
    (hlo : ∀ insn a b c, lower (args insn a b c) =
      reg (Dspu.clipOpBN (Dspu.clip unsigned register) insn b))
    (hup : ∀ insn a b c, upper (args insn a b c) =
      reg (Dspu.clipOpB (Dspu.clip unsigned register) insn b))
    (hbounds : ∀ insn b, if (Dspu.clipOpB (Dspu.clip unsigned register) insn b).msb
      then (Dspu.clipOpBN (Dspu.clip unsigned register) insn b).msb = false
      else (Dspu.clipOpBN (Dspu.clip unsigned register) insn b).sle 0) :
    Agrees op (clamp lower upper) := by
  intro insn a b c
  have hresult : Dspu.result (Dspu.clip unsigned register) insn a b c =
      if (Dspu.extended true a).sle (Dspu.extended true
        (Dspu.clipComp (Dspu.clip unsigned register) insn a b))
      then if Dspu.clipUseNBound (Dspu.clip unsigned register) insn a b
        then Dspu.clipOpBN (Dspu.clip unsigned register) insn b else a
      else if a.msb then a else Dspu.clipOpB (Dspu.clip unsigned register) insn b := rfl
  rw [low_clamp (hlo insn a b c) (hup insn a b c), hop, hresult, sle_extended_signed]
  exact (one_comparison (hbounds insn b)).symm

variable (insn : BitVec 32) (a b c : Word)

theorem clipLower_eq : clipLower (args insn a b c) = reg (Dspu.clipLower insn) := by
  have hall : ∀ v : BitVec 5,
      (if v.toNat ≠ 0 then -(1 <<< (v.toNat - 1)) else -1 : Reg) =
        reg (((BitVec.allOnes 33 <<< v.toNat) >>> 1).setWidth 32) := by decide
  exact hall _

theorem clipUpper_eq : clipUpper (args insn a b c) = reg (~~~Dspu.clipLower insn) := by
  have hall : ∀ v : BitVec 5,
      (if v.toNat ≠ 0 then 1 <<< (v.toNat - 1) - 1 else 0 : Reg) =
        reg (~~~((BitVec.allOnes 33 <<< v.toNat) >>> 1).setWidth 32) := by decide
  exact hall _

theorem clipLower_msb : (Dspu.clipLower insn).msb = true := by
  have hall : ∀ v : BitVec 5,
      (((BitVec.allOnes 33 <<< v.toNat) >>> 1).setWidth 32).msb = true := by decide
  exact hall _

theorem clipUpper_msb : (~~~Dspu.clipLower insn).msb = false := by
  rw [BitVec.msb_not, clipLower_msb]
  rfl

theorem sle_zero_of_msb {v : Word} (h : v.msb = true) : v.sle 0 = true := by
  rw [BitVec.msb_eq_toInt, decide_eq_true_eq] at h
  exact BitVec.sle_iff_toInt_le.mpr h.le

theorem pClip_agrees : Agrees .pClip pClip := by
  refine clip_agrees false false rfl clipLower_eq clipUpper_eq ?_
  intro insn b
  change (if (~~~Dspu.clipLower insn).msb then _ else (Dspu.clipLower insn).sle 0 = true : Prop)
  rw [clipUpper_msb, if_neg Bool.false_ne_true]
  exact sle_zero_of_msb (clipLower_msb insn)

theorem pClipu_agrees : Agrees .pClipu pClipu := by
  refine clip_agrees true false rfl ?_ clipUpper_eq ?_
  · intro insn a b c
    change (0 : Reg) = reg 0
    decide
  · intro insn b
    change (if (~~~Dspu.clipLower insn).msb then _ else BitVec.sle (0 : Word) 0 = true : Prop)
    rw [clipUpper_msb, if_neg Bool.false_ne_true]
    decide

/-- The bounds of the register forms are `rs2` and its complement. -/
theorem not_reg (v : Word) : -(reg v + 1) = reg (~~~v) := by
  rw [reg, reg, BitVec.signExtend_not (by decide), BitVec.not_eq_neg_add]
  exact neg_add' _ _

theorem pClipr_agrees : Agrees .pClipr pClipr := by
  refine clip_agrees false true rfl ?_ (fun _ _ _ _ => rfl) ?_
  · intro insn a b c
    exact not_reg b
  · intro insn b
    change if b.msb then (~~~b).msb = false else (~~~b).sle 0
    cases hb : b.msb with
    | true =>
        rw [if_pos rfl, BitVec.msb_not, hb]
        rfl
    | false =>
        have hnot : (~~~b).msb = true := by
          rw [BitVec.msb_not, hb]
          rfl
        rw [if_neg Bool.false_ne_true]
        exact sle_zero_of_msb hnot

theorem pClipur_agrees : Agrees .pClipur pClipur := by
  refine clip_agrees true true rfl ?_ (fun _ _ _ _ => rfl) ?_
  · intro insn a b c
    change (0 : Reg) = reg 0
    decide
  · intro insn b
    change if b.msb then (0 : Word).msb = false else BitVec.sle (0 : Word) 0
    cases b.msb <;> decide

end Clip

/-! ## Multiplications -/

/-- The lowest 32 bits of a product do not depend on the signs. -/
theorem low_mulResult (x y : Word) :
    ((Dspu.extended true x).signExtend 64 * (Dspu.extended true y).signExtend 64).extractLsb' 0 32 =
      x * y := by
  rw [← BitVec.setWidth_eq_extractLsb' (by decide), low_mul,
    signExtend_extended_signed (by decide), signExtend_extended_signed (by decide),
    setWidth_signExtend (by decide), setWidth_signExtend (by decide)]

theorem mac_agrees : Agrees .pMac pMac := by
  intro insn a b c
  have hresult : Dspu.result (Dspu.control .pMac) insn a b c =
      c + ((Dspu.extended true a).signExtend 64 *
        (Dspu.extended true b).signExtend 64).extractLsb' 0 32 := rfl
  change (sextXlen (reg c + sextXlen (reg a * reg b))).setWidth 32 = _
  rw [hresult, low_mulResult, low_sextXlen, BitVec.setWidth_add _ _ (by decide), low_sextXlen,
    low_mul, low_reg, low_reg, low_reg]

theorem msu_agrees : Agrees .pMsu pMsu := by
  intro insn a b c
  have hresult : Dspu.result (Dspu.control .pMsu) insn a b c =
      c + ((Dspu.extended true (-a)).signExtend 64 *
        (Dspu.extended true b).signExtend 64).extractLsb' 0 32 := rfl
  change (sextXlen (reg c - sextXlen (reg a * reg b))).setWidth 32 = _
  rw [hresult, low_mulResult, low_sextXlen, setWidth_sub (by decide), low_sextXlen,
    low_mul, low_reg, low_reg, low_reg, BitVec.neg_mul, ← BitVec.sub_eq_add_neg]

/-! ## The instruction that loses bytes -/

section AndSci

variable (insn : BitVec 32) (a b c : Word)

/-- The first two turns are shifted out. -/
theorem low_pvAndSciH : (pvAndSciH (args insn a b c)).setWidth 32 =
    Dspu.halves fun i =>
      ((Dspu.half a i &&& (Dspu.imm6 insn).signExtend 16).setWidth 8).setWidth 16 := by
  have hbyte : ∀ i < 2, ((Lanes.h.get (reg a) i &&& (args insn a b c).simm6).setWidth 8).setWidth
      32 = (((Dspu.half a i &&& (Dspu.imm6 insn).signExtend 16).setWidth 8).setWidth 16).setWidth
        32 := by
    intro i hi
    have hlow : (Lanes.h.get (reg a) i &&& (args insn a b c).simm6).setWidth 8 =
        (Dspu.half a i &&& (Dspu.imm6 insn).signExtend 16).setWidth 8 := by
      rw [get_half a hi, simm6_eq, BitVec.setWidth_and, BitVec.setWidth_and,
        BitVec.setWidth_setWidth_of_le _ (by decide), setWidth_signExtend_of_le (by decide),
        setWidth_signExtend_of_le (by decide)]
      rfl
    have hext : ∀ t : BitVec 8, t.setWidth 32 = (t.setWidth 16).setWidth 32 := fun t =>
      (BitVec.setWidth_setWidth (by decide)).symm
    rw [hlow, hext]
  rw [pvAndSciH, low_sextXlen_extend, ← Lanes.push_halves, ← hbyte 0 (by decide),
    ← hbyte 1 (by decide)]
  rfl

theorem result_andSciH : Dspu.result (Dspu.control .pvAndSciH) insn a b c =
    Dspu.halves fun i => Dspu.half a i &&& (Dspu.imm6 insn).signExtend 16 :=
  result_half .sci true insn a b c (by decide)

theorem half_halves (f : Nat → BitVec 16) {i : Nat} (hi : i < 2) :
    Dspu.half (Dspu.halves f) i = f i := by
  apply BitVec.eq_of_getLsbD_eq
  intro j hj
  have hdiv : (16 * i + j) / 16 = i := by omega
  have hmod : (16 * i + j) % 16 = j := by omega
  rw [Dspu.half, BitVec.getLsbD_extractLsb', decide_eq_true hj, Bool.true_and,
    Lanes.getLsbD_halves f (by omega), hdiv, hmod]

theorem halves_half (v : Word) : Dspu.halves (Dspu.half v) = v := by
  apply BitVec.eq_of_getLsbD_eq
  intro j hj
  rw [Lanes.getLsbD_halves _ hj, Dspu.half, BitVec.getLsbD_extractLsb',
    decide_eq_true (Nat.mod_lt j (by decide)), Bool.true_and, Nat.div_add_mod]

theorem eq_of_halves {u v : Word} (h : ∀ i < 2, Dspu.half u i = Dspu.half v i) : u = v := by
  rw [← halves_half u, ← halves_half v]
  exact Lanes.halves_congr h

theorem half_and (u v : Word) (i : Nat) :
    Dspu.half (u &&& v) i = Dspu.half u i &&& Dspu.half v i := BitVec.extractLsb'_and

theorem keeps_low_byte (x : BitVec 16) :
    (x.setWidth 8).setWidth 16 = x ↔ x &&& 0xff00 = 0 := by
  have hmask : ∀ j < 16, (0xff00#16).getLsbD j = decide (8 ≤ j) := by decide
  have hbits : ∀ j < 16, ((x.setWidth 8).setWidth 16).getLsbD j =
      (decide (j < 8) && x.getLsbD j) := by
    intro j hj
    rw [BitVec.getLsbD_setWidth, BitVec.getLsbD_setWidth, decide_eq_true hj, Bool.true_and]
  change _ ↔ x &&& 0xff00#16 = 0#16
  constructor
  · intro h
    apply BitVec.eq_of_getLsbD_eq
    intro j hj
    rw [BitVec.getLsbD_and, hmask j hj, BitVec.getLsbD_zero, ← h, hbits j hj]
    by_cases hlow : j < 8
    · have hge : ¬ 8 ≤ j := by omega
      simp [hge]
    · simp [hlow]
  · intro h
    apply BitVec.eq_of_getLsbD_eq
    intro j hj
    rw [hbits j hj]
    by_cases hlow : j < 8
    · simp [hlow]
    · have hbit : (x &&& 0xff00#16).getLsbD j = false := by
        rw [h, BitVec.getLsbD_zero]
      rw [BitVec.getLsbD_and, hmask j hj, decide_eq_true (Nat.le_of_not_lt hlow),
        Bool.and_true] at hbit
      rw [hbit, Bool.and_false]

theorem andSciH_agrees_iff :
    (pvAndSciH (args insn a b c)).setWidth 32 = Dspu.result (Dspu.control .pvAndSciH) insn a b c ↔
      insn.getLsbD 24 = false ∨ a &&& 0xff00ff00#32 = 0 := by
  have himm : ∀ v : BitVec 6,
      v.signExtend 16 &&& 0xff00#16 = if v.msb then 0xff00#16 else 0#16 := by decide
  have hmsb : (Dspu.imm6 insn).msb = insn.getLsbD 24 := by
    rw [BitVec.msb_eq_getLsbD_last, Dspu.imm6, BitVec.getLsbD_append, if_neg (by decide),
      BitVec.getLsbD_extractLsb']
    rfl
  have hlanes : (pvAndSciH (args insn a b c)).setWidth 32 =
      Dspu.result (Dspu.control .pvAndSciH) insn a b c ↔
        ∀ i < 2, Dspu.half a i &&& (Dspu.imm6 insn).signExtend 16 &&& 0xff00#16 = 0#16 := by
    rw [low_pvAndSciH, result_andSciH]
    constructor
    · intro h i hi
      have hi' := congrArg (Dspu.half · i) h
      change Dspu.half (Dspu.halves _) i = Dspu.half (Dspu.halves _) i at hi'
      rw [half_halves _ hi, half_halves _ hi] at hi'
      exact (keeps_low_byte _).mp hi'
    · intro h
      exact Lanes.halves_congr fun i hi => (keeps_low_byte _).mpr (h i hi)
  have hword : a &&& 0xff00ff00#32 = 0 ↔ ∀ i < 2, Dspu.half a i &&& 0xff00#16 = 0#16 := by
    have hmask : ∀ i < 2, Dspu.half 0xff00ff00#32 i = 0xff00#16 := by decide
    have hzero : ∀ i < 2, Dspu.half 0#32 i = 0#16 := by decide
    constructor
    · intro h i hi
      rw [← hmask i hi, ← half_and, h]
      exact hzero i hi
    · intro h
      refine eq_of_halves fun i hi => ?_
      rw [half_and, hmask i hi, h i hi]
      exact (hzero i hi).symm
  rw [hlanes, hword, ← hmsb]
  cases hsign : (Dspu.imm6 insn).msb with
  | false =>
      refine iff_of_true (fun i _ => ?_) (Or.inl rfl)
      rw [BitVec.and_assoc, himm, hsign, if_neg Bool.false_ne_true, BitVec.and_zero]
  | true =>
      have hkeep : ∀ i, Dspu.half a i &&& (Dspu.imm6 insn).signExtend 16 &&& 0xff00#16 =
          Dspu.half a i &&& 0xff00#16 := by
        intro i
        rw [BitVec.and_assoc, himm, hsign, if_pos rfl]
      simp only [hkeep, Bool.true_eq_false, false_or]

end AndSci

/-! ## The unit against the simulator -/

theorem dspInsns_agree : dspInsns.Forall fun r => r.1 ≠ .pvAndSciH → Agrees r.1 r.2 :=
  ⟨ fun _ => abs_agrees, fun _ => slet_agrees, fun _ => sletu_agrees, fun _ => pMin_agrees,
    fun _ => pMinu_agrees, fun _ => pMax_agrees, fun _ => pMaxu_agrees, fun _ => exths_agrees,
    fun _ => exthz_agrees, fun _ => extbs_agrees, fun _ => extbz_agrees, fun _ => pClip_agrees,
    fun _ => pClipu_agrees, fun _ => pClipr_agrees, fun _ => pClipur_agrees, fun _ => mac_agrees,
    fun _ => msu_agrees, fun _ => add_agrees .h .vect rfl, fun _ => add_agrees .h .sc rfl,
    fun _ => add_agrees .h .sci rfl, fun _ => add_agrees .b .vect rfl,
    fun _ => add_agrees .b .sc rfl, fun _ => add_agrees .b .sci rfl,
    fun _ => sub_agrees .h .vect rfl, fun _ => sub_agrees .h .sc rfl,
    fun _ => sub_agrees .h .sci rfl, fun _ => sub_agrees .b .vect rfl,
    fun _ => sub_agrees .b .sc rfl, fun _ => sub_agrees .b .sci rfl,
    fun _ => avg_agrees .h .vect rfl, fun _ => avg_agrees .h .sc rfl,
    fun _ => avg_agrees .h .sci rfl, fun _ => avg_agrees .b .vect rfl,
    fun _ => avg_agrees .b .sc rfl, fun _ => avg_agrees .b .sci rfl,
    fun _ => avgu_agrees .h .vect rfl, fun _ => avgu_agrees .h .sc rfl,
    fun _ => avgu_agrees .h .sci rfl, fun _ => avgu_agrees .b .vect rfl,
    fun _ => avgu_agrees .b .sc rfl, fun _ => avgu_agrees .b .sci rfl,
    fun _ => min_agrees .h .vect rfl, fun _ => min_agrees .h .sc rfl,
    fun _ => min_agrees .h .sci rfl, fun _ => min_agrees .b .vect rfl,
    fun _ => min_agrees .b .sc rfl, fun _ => min_agrees .b .sci rfl,
    fun _ => minu_agrees .h .vect rfl, fun _ => minu_agrees .h .sc rfl,
    fun _ => minu_agrees .h .sci rfl, fun _ => minu_agrees .b .vect rfl,
    fun _ => minu_agrees .b .sc rfl, fun _ => minu_agrees .b .sci rfl,
    fun _ => max_agrees .h .vect rfl, fun _ => max_agrees .h .sc rfl,
    fun _ => max_agrees .h .sci rfl, fun _ => max_agrees .b .vect rfl,
    fun _ => max_agrees .b .sc rfl, fun _ => max_agrees .b .sci rfl,
    fun _ => maxu_agrees .h .vect rfl, fun _ => maxu_agrees .h .sc rfl,
    fun _ => maxu_agrees .h .sci rfl, fun _ => maxu_agrees .b .vect rfl,
    fun _ => maxu_agrees .b .sc rfl, fun _ => maxu_agrees .b .sci rfl,
    fun _ => srl_agrees .h .vect rfl, fun _ => srl_agrees .h .sc rfl,
    fun _ => srl_agrees .h .sci rfl, fun _ => srl_agrees .b .vect rfl,
    fun _ => srl_agrees .b .sc rfl, fun _ => srl_agrees .b .sci rfl,
    fun _ => sra_agrees .h .vect rfl, fun _ => sra_agrees .h .sc rfl,
    fun _ => sra_agrees .h .sci rfl, fun _ => sra_agrees .b .vect rfl,
    fun _ => sra_agrees .b .sc rfl, fun _ => sra_agrees .b .sci rfl,
    fun _ => sll_agrees .h .vect rfl, fun _ => sll_agrees .h .sc rfl,
    fun _ => sll_agrees .h .sci rfl, fun _ => sll_agrees .b .vect rfl,
    fun _ => sll_agrees .b .sc rfl, fun _ => sll_agrees .b .sci rfl,
    fun _ => or_agrees .h .vect rfl, fun _ => or_agrees .h .sc rfl, fun _ => or_agrees .h .sci rfl,
    fun _ => or_agrees .b .vect rfl, fun _ => or_agrees .b .sc rfl, fun _ => or_agrees .b .sci rfl,
    fun _ => xor_agrees .h .vect rfl, fun _ => xor_agrees .h .sc rfl,
    fun _ => xor_agrees .h .sci rfl, fun _ => xor_agrees .b .vect rfl,
    fun _ => xor_agrees .b .sc rfl, fun _ => xor_agrees .b .sci rfl,
    fun _ => and_agrees .h .vect rfl, fun _ => and_agrees .h .sc rfl, fun h => absurd rfl h,
    fun _ => and_agrees .b .vect rfl, fun _ => and_agrees .b .sc rfl,
    fun _ => and_agrees .b .sci rfl, fun _ => pvAbs_agrees .h rfl, fun _ => pvAbs_agrees .b rfl,
    fun _ => extract_agrees .h rfl, fun _ => extract_agrees .b rfl, fun _ => extractu_agrees .h rfl,
    fun _ => extractu_agrees .b rfl, fun _ => insert_agrees .h rfl, fun _ => insert_agrees .b rfl,
    fun _ => dotup_agrees .h .vect rfl, fun _ => dotup_agrees .h .sc rfl,
    fun _ => dotup_agrees .h .sci rfl, fun _ => dotup_agrees .b .vect rfl,
    fun _ => dotup_agrees .b .sc rfl, fun _ => dotup_agrees .b .sci rfl,
    fun _ => dotusp_agrees .h .vect rfl, fun _ => dotusp_agrees .h .sc rfl,
    fun _ => dotusp_agrees .h .sci rfl, fun _ => dotusp_agrees .b .vect rfl,
    fun _ => dotusp_agrees .b .sc rfl, fun _ => dotusp_agrees .b .sci rfl,
    fun _ => dotsp_agrees .h .vect rfl, fun _ => dotsp_agrees .h .sc rfl,
    fun _ => dotsp_agrees .h .sci rfl, fun _ => dotsp_agrees .b .vect rfl,
    fun _ => dotsp_agrees .b .sc rfl, fun _ => dotsp_agrees .b .sci rfl,
    fun _ => sdotup_agrees .h .vect rfl, fun _ => sdotup_agrees .h .sc rfl,
    fun _ => sdotup_agrees .h .sci rfl, fun _ => sdotup_agrees .b .vect rfl,
    fun _ => sdotup_agrees .b .sc rfl, fun _ => sdotup_agrees .b .sci rfl,
    fun _ => sdotusp_agrees .h .vect rfl, fun _ => sdotusp_agrees .h .sc rfl,
    fun _ => sdotusp_agrees .h .sci rfl, fun _ => sdotusp_agrees .b .vect rfl,
    fun _ => sdotusp_agrees .b .sc rfl, fun _ => sdotusp_agrees .b .sci rfl,
    fun _ => sdotsp_agrees .h .vect rfl, fun _ => sdotsp_agrees .h .sc rfl,
    fun _ => sdotsp_agrees .h .sci rfl, fun _ => sdotsp_agrees .b .vect rfl,
    fun _ => sdotsp_agrees .b .sc rfl, fun _ => sdotsp_agrees .b .sci rfl,
    fun _ => shuffle2_agrees .h rfl, fun _ => shuffle2_agrees .b rfl, fun _ => pack_agrees,
    fun _ => packH_agrees ⟩

theorem agrees_of_ne {op : Op} {f : DspInsn} (hf : dspInsn op = some f) (hop : op ≠ .pvAndSciH) :
    Agrees op f := by
  obtain ⟨front, back, hsplit, -⟩ := List.lookup_eq_some_iff.mp hf
  have hmem : (op, f) ∈ dspInsns := by
    rw [hsplit]
    exact List.mem_append_right front List.mem_cons_self
  exact List.forall_iff_forall_mem.mp dspInsns_agree (op, f) hmem hop

/-- The unit and the simulator agree on every instruction of the unit, but for
`pv.and.sci.h` with a negative immediate and an operand with a bit in an upper byte. -/
theorem dspu_agrees_iff {inst : BitVec 32} {row : Snitch.Row} {f : DspInsn}
    (hrow : rowOf inst = some row) (hf : dspInsn row.op = some f) (a b c : Word) :
    (f (args inst a b c)).setWidth 32 = dspu inst a b c ↔
      (row.op = .pvAndSciH → inst.getLsbD 24 = false ∨ a &&& 0xff00ff00#32 = 0) := by
  have hunit : dspu inst a b c = Dspu.result (Dspu.control row.op) inst a b c := by
    rw [dspu, hrow]
  rw [hunit]
  by_cases hop : row.op = .pvAndSciH
  · rw [hop] at hf ⊢
    obtain rfl : pvAndSciH = f := Option.some.inj hf
    rw [andSciH_agrees_iff]
    exact ⟨fun h _ => h, fun h => h rfl⟩
  · exact iff_of_true (agrees_of_ne hf hop inst a b c) fun h => absurd h hop

/-- `pv.and.sci.h x2, x1, -1`. -/
theorem row_andSciH : rowOf 0x6bf0e157 =
    some ⟨.pvAndSciH, 0xfc00707f, 0x68006057, .pulpIpu false false⟩ := by
  decide

theorem dspu_agrees_low_bytes :
    (pvAndSciH (args 0x6bf0e157 0x00ff00ff 0 0)).setWidth 32 =
      dspu 0x6bf0e157 0x00ff00ff 0 0 :=
  (dspu_agrees_iff row_andSciH rfl 0x00ff00ff 0 0).mpr fun _ => Or.inr (by decide)

/-- With all bits set in `x1` the simulator loses two bytes. -/
theorem and_sci_h_loses_bytes :
    ¬ ∀ (inst : BitVec 32) (row : Snitch.Row) (f : DspInsn) (a b c : Word), rowOf inst = some row →
      dspInsn row.op = some f → (f (args inst a b c)).setWidth 32 = dspu inst a b c := by
  intro h
  have hall := h 0x6bf0e157 _ pvAndSciH 0xffffffff 0 0 row_andSciH rfl
  rw [dspu, row_andSciH] at hall
  exact absurd hall (by decide)

end TeraNoC.Spike
