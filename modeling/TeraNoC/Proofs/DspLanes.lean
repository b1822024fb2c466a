import TeraNoC.Lib.Extension
import TeraNoC.Snitch.Dspu
import TeraNoC.Spike.Dsp

/-!
# The lanes of the DSP unit and of the simulator

The unit cuts a word into lanes, computes on each with as many bits as it has, and puts
the results side by side. The simulator shifts a register of 64 bits until the lane is
lowest, extends it, computes on 64 bits, and shifts the results into a variable of 32
bits one after the other. Both see the same lanes, the same second operands, and build
the same word from the same results.
-/

namespace TeraNoC.Spike

open TeraNoC.Hw TeraNoC.Snitch TeraNoC.Lib

/-- The contents of a register of 32 bits. -/
def reg (v : Word) : Reg := v.signExtend 64

theorem low_reg (v : Word) : (reg v).setWidth 32 = v := setWidth_signExtend (by decide) v

theorem low_sextXlen (v : Reg) : (sextXlen v).setWidth 32 = v.setWidth 32 := by
  apply BitVec.eq_of_getLsbD_eq
  intro j hj
  rw [sextXlen, BitVec.getLsbD_setWidth, BitVec.getLsbD_sshiftRight, BitVec.getLsbD_shiftLeft,
    BitVec.getLsbD_setWidth]
  have h1 : 32 + j < 64 := by omega
  have h2 : ¬ 64 ≤ j := by omega
  simp [h1, h2, hj]

theorem low_sextXlen_extend (v : Word) : (sextXlen (v.setWidth 64)).setWidth 32 = v := by
  rw [low_sextXlen, setWidth_extend (by decide)]

namespace Lanes

/-- A lane of a word in the unit. -/
def cut (l : Lanes) (v : Word) (i : Nat) : BitVec l.width := v.extractLsb' (l.width * i) l.width

/-- The word the unit builds from its lanes. -/
def join : (l : Lanes) → (Nat → BitVec l.width) → Word
  | .h => Dspu.halves
  | .b => Dspu.bytes

theorem width_pos (l : Lanes) : 0 < l.width := by cases l <;> decide

theorem width_le (l : Lanes) : l.width ≤ 32 := by cases l <;> decide

theorem width_mul_count (l : Lanes) : l.width * l.count = 32 := by cases l <;> rfl

theorem lane_end {l : Lanes} {i : Nat} (h : i < l.count) : l.width * i + l.width ≤ 32 := by
  rw [← l.width_mul_count, ← Nat.mul_succ]
  exact Nat.mul_le_mul_left _ h

theorem getLsbD_mask (l : Lanes) (j : Nat) : l.mask.getLsbD j = decide (j < l.width) := by
  have hmask : l.mask = (BitVec.allOnes l.width).setWidth 64 := by cases l <;> rfl
  rw [hmask, BitVec.getLsbD_setWidth, BitVec.getLsbD_allOnes]
  have hw := l.width_le
  by_cases hj : j < l.width
  · have h64 : j < 64 := by omega
    simp [hj, h64]
  · simp [hj]

/-- The lane that the simulator reads is the one that the unit reads. -/
theorem get_reg {l : Lanes} {i : Nat} (h : i < l.count) (v : Word) :
    l.get (reg v) i = (l.cut v i).setWidth 64 := by
  have hend := lane_end h
  apply BitVec.eq_of_getLsbD_eq
  intro j hj
  rw [get, Nat.mod_eq_of_lt h, cut, BitVec.getLsbD_and, getLsbD_mask, BitVec.getLsbD_ushiftRight,
    reg, BitVec.getLsbD_signExtend, BitVec.getLsbD_setWidth, BitVec.getLsbD_extractLsb']
  by_cases hw : j < l.width
  · have h32 : l.width * i + j < 32 := by omega
    have h64 : l.width * i + j < 64 := by omega
    simp [hw, h32, h64, hj]
  · simp [hw]

theorem setWidth_get {l : Lanes} {i : Nat} (h : i < l.count) (v : Word) :
    (l.get (reg v) i).setWidth l.width = l.cut v i := by
  rw [get_reg h, setWidth_extend (l.width_le.trans (by decide))]

theorem sext_get {l : Lanes} {i : Nat} (h : i < l.count) (v : Word) :
    l.sext (l.get (reg v) i) = (l.cut v i).signExtend 64 := by
  rw [sext, setWidth_get h]

theorem zext_get {l : Lanes} {i : Nat} (h : i < l.count) (v : Word) :
    l.zext (l.get (reg v) i) = (l.cut v i).setWidth 64 := by
  rw [zext, setWidth_get h]

/-! ## Putting lanes together -/

/-- One turn of the loop. -/
theorem getLsbD_push (w : Nat) (acc : Word) (t : BitVec w) {j : Nat} (hj : j < 32) :
    (acc <<< w + t.setWidth 32).getLsbD j =
      if j < w then t.getLsbD j else acc.getLsbD (j - w) := by
  have hor : acc <<< w + t.setWidth 32 = acc <<< w ||| t.setWidth 32 := by
    apply BitVec.add_eq_or_of_and_eq_zero
    apply BitVec.eq_of_getLsbD_eq
    intro k hk
    rw [BitVec.getLsbD_and, BitVec.getLsbD_shiftLeft, BitVec.getLsbD_setWidth,
      BitVec.getLsbD_zero]
    by_cases hw : k < w
    · simp [hw]
    · simp [BitVec.getLsbD_of_ge t k (by omega)]
  rw [hor, BitVec.getLsbD_or, BitVec.getLsbD_shiftLeft, BitVec.getLsbD_setWidth]
  by_cases hw : j < w
  · simp [hw, hj]
  · simp [hw, hj, BitVec.getLsbD_of_ge t j (by omega)]

theorem push_halves (acc : Word) (f : Nat → BitVec 16) :
    (acc <<< 16 + (f 1).setWidth 32) <<< 16 + (f 0).setWidth 32 = Dspu.halves f := by
  apply BitVec.eq_of_getLsbD_eq
  intro j hj
  change _ = (f 1 ++ f 0 : BitVec (16 + 16)).getLsbD j
  rw [getLsbD_push 16 _ _ hj, BitVec.getLsbD_append]
  split
  · rfl
  · rw [getLsbD_push 16 _ _ (by omega), if_pos (by omega)]

theorem push_bytes (f : Nat → BitVec 8) :
    ((((0 : Word) <<< 8 + (f 3).setWidth 32) <<< 8 + (f 2).setWidth 32) <<< 8 +
      (f 1).setWidth 32) <<< 8 + (f 0).setWidth 32 = Dspu.bytes f := by
  apply BitVec.eq_of_getLsbD_eq
  intro j hj
  change _ = (f 3 ++ f 2 ++ f 1 ++ f 0 : BitVec (8 + 8 + 8 + 8)).getLsbD j
  rw [getLsbD_push 8 _ _ hj, BitVec.getLsbD_append]
  split
  · rfl
  · rw [getLsbD_push 8 _ _ (by omega), BitVec.getLsbD_append]
    split
    · rfl
    · rw [getLsbD_push 8 _ _ (by omega), BitVec.getLsbD_append]
      split
      · rfl
      · rw [getLsbD_push 8 _ _ (by omega), if_pos (by omega)]

theorem low_simd (l : Lanes) (temp : Nat → Reg) :
    (l.simd temp).setWidth 32 = l.join fun i => (temp i).setWidth l.width := by
  rw [simd, low_sextXlen_extend]
  cases l with
  | h => exact push_halves 0 fun i => (temp i).setWidth 16
  | b => exact push_bytes fun i => (temp i).setWidth 8

theorem halves_congr {f g : Nat → BitVec 16} (h : ∀ i < 2, f i = g i) :
    Dspu.halves f = Dspu.halves g := by
  rw [Dspu.halves, h 1 (by decide), h 0 (by decide), Dspu.halves]

theorem bytes_congr {f g : Nat → BitVec 8} (h : ∀ i < 4, f i = g i) :
    Dspu.bytes f = Dspu.bytes g := by
  rw [Dspu.bytes, h 3 (by decide), h 2 (by decide), h 1 (by decide), h 0 (by decide), Dspu.bytes]

theorem join_congr (l : Lanes) {f g : Nat → BitVec l.width} (h : ∀ i < l.count, f i = g i) :
    l.join f = l.join g := by
  cases l with
  | h => exact halves_congr h
  | b => exact bytes_congr h

/-- A loop of the simulator and lanes of the unit make one word, if they agree lane by
lane. -/
theorem simd_eq_join (l : Lanes) {temp : Nat → Reg} {f : Nat → BitVec l.width}
    (h : ∀ i < l.count, (temp i).setWidth l.width = f i) :
    (l.simd temp).setWidth 32 = l.join f := by
  rw [low_simd]
  exact l.join_congr h

/-! ## Lanes bit by bit -/

theorem mask_low (l : Lanes) (j : Nat) :
    (l.mask.setWidth 32).getLsbD j = decide (j < l.width) := by
  rw [BitVec.getLsbD_setWidth, getLsbD_mask]
  have hle := l.width_le
  by_cases hj : j < l.width
  · have h32 : j < 32 := by omega
    simp [hj, h32]
  · simp [hj]

theorem getLsbD_cut (l : Lanes) (v : Word) (i : Nat) {k : Nat} (hk : k < l.width) :
    (l.cut v i).getLsbD k = v.getLsbD (l.width * i + k) := by
  rw [Lanes.cut, BitVec.getLsbD_extractLsb', decide_eq_true hk, Bool.true_and]

theorem getLsbD_halves (f : Nat → BitVec 16) {j : Nat} (hj : j < 32) :
    (Dspu.halves f).getLsbD j = (f (j / 16)).getLsbD (j % 16) := by
  change (f 1 ++ f 0 : BitVec (16 + 16)).getLsbD j = _
  rw [BitVec.getLsbD_append]
  split
  case isTrue h =>
    rw [Nat.div_eq_of_lt h, Nat.mod_eq_of_lt h]
  case isFalse h =>
    have hdiv : j / 16 = 1 := by omega
    have hmod : j - 16 = j % 16 := by omega
    rw [hdiv, hmod]

theorem getLsbD_bytes (f : Nat → BitVec 8) {j : Nat} (hj : j < 32) :
    (Dspu.bytes f).getLsbD j = (f (j / 8)).getLsbD (j % 8) := by
  change (f 3 ++ f 2 ++ f 1 ++ f 0 : BitVec (8 + 8 + 8 + 8)).getLsbD j = _
  have hlane : j / 8 = 0 ∨ j / 8 = 1 ∨ j / 8 = 2 ∨ j / 8 = 3 := by omega
  rw [BitVec.getLsbD_append, BitVec.getLsbD_append, BitVec.getLsbD_append]
  rcases hlane with h | h | h | h
  · have hmod : j % 8 = j := by omega
    rw [h, hmod, if_pos (by omega)]
  · have hmod : j % 8 = j - 8 := by omega
    rw [h, hmod, if_neg (by omega), if_pos (by omega)]
  · have hmod : j % 8 = j - 8 - 8 := by omega
    rw [h, hmod, if_neg (by omega), if_neg (by omega), if_pos (by omega)]
  · have hmod : j % 8 = j - 8 - 8 - 8 := by omega
    rw [h, hmod, if_neg (by omega), if_neg (by omega), if_neg (by omega)]

theorem getLsbD_join (l : Lanes) (f : Nat → BitVec l.width) {j : Nat} (hj : j < 32) :
    (l.join f).getLsbD j = (f (j / l.width)).getLsbD (j % l.width) := by
  cases l with
  | h => exact getLsbD_halves f hj
  | b => exact getLsbD_bytes f hj

/-! ## The unit on lanes -/

def size : Lanes → Dspu.SimdSize
  | .h => .halfWord
  | .b => .byte

/-- How many bits of a lane are the amount of a shift. -/
def shift : Lanes → Nat
  | .h => 4
  | .b => 3

end Lanes

/-- The operands of an instruction of the simulator, from those of the unit. -/
def args (insn : BitVec 32) (a b c : Word) : DspArgs := ⟨insn, reg a, reg b, reg c⟩

theorem simm6_eq (x : DspArgs) : x.simm6 = (Dspu.imm6 x.insn).signExtend 64 := by
  have hall : ∀ (u : BitVec 1) (v : BitVec 5),
      u.setWidth 64 + v.signExtend 64 <<< 1 = (v ++ u).signExtend 64 := by decide
  exact hall _ _

theorem zimm6_eq (x : DspArgs) : x.zimm6 = (Dspu.imm6 x.insn).setWidth 64 := by
  have hall : ∀ (u : BitVec 1) (v : BitVec 5),
      u.setWidth 64 + v.setWidth 64 <<< 1 = (v ++ u).setWidth 64 := by decide
  exact hall _ _

namespace Second

def mode : Second → Dspu.SimdMode
  | .vect => .vect
  | .sc => .sc
  | .sci => .sci

/-- The second operand of a lane in the unit. -/
def operand (m : Second) (l : Lanes) (signed : Bool) (insn : BitVec 32) (b : Word) (i : Nat) :
    BitVec l.width :=
  match m with
  | .vect => l.cut b i
  | .sc => l.cut b 0
  | .sci =>
      if signed then (Dspu.imm6 insn).signExtend l.width else (Dspu.imm6 insn).setWidth l.width

variable (m : Second) {l : Lanes} (insn : BitVec 32) (a b c : Word) {i : Nat}

theorem count_pos (l : Lanes) : 0 < l.count := by cases l <;> decide

theorem six_le (l : Lanes) : 6 < l.width := by cases l <;> decide

theorem sext_eq (h : i < l.count) :
    m.sext l (args insn a b c) i = (m.operand l true insn b i).signExtend 64 := by
  cases m with
  | vect => exact l.sext_get h b
  | sc => exact l.sext_get (count_pos l) b
  | sci =>
      change DspArgs.simm6 _ = ((Dspu.imm6 insn).signExtend l.width).signExtend 64
      rw [simm6_eq, signExtend_signExtend (six_le l).le (l.width_le.trans (by decide))]
      rfl

theorem zext_eq (h : i < l.count) :
    m.zext l (args insn a b c) i = (m.operand l false insn b i).setWidth 64 := by
  cases m with
  | vect => exact l.zext_get h b
  | sc => exact l.zext_get (count_pos l) b
  | sci =>
      change DspArgs.zimm6 _ = ((Dspu.imm6 insn).setWidth l.width).setWidth 64
      rw [zimm6_eq, BitVec.setWidth_setWidth]
      · rfl
      · have := six_le l
        omega

theorem raw_eq (h : i < l.count) :
    (m.raw l (args insn a b c) i).setWidth l.width = m.operand l true insn b i := by
  cases m with
  | vect => exact l.setWidth_get h b
  | sc => exact l.setWidth_get (count_pos l) b
  | sci =>
      change (DspArgs.simm6 _).setWidth l.width = (Dspu.imm6 insn).signExtend l.width
      rw [simm6_eq, setWidth_signExtend_of_le (l.width_le.trans (by decide))]
      rfl

theorem rawu_eq (h : i < l.count) :
    (m.rawu l (args insn a b c) i).setWidth l.width = m.operand l false insn b i := by
  cases m with
  | vect => exact l.setWidth_get h b
  | sc => exact l.setWidth_get (count_pos l) b
  | sci =>
      change (DspArgs.zimm6 _).setWidth l.width = (Dspu.imm6 insn).setWidth l.width
      rw [zimm6_eq, BitVec.setWidth_setWidth_of_le _ (l.width_le.trans (by decide))]
      rfl

/-- Both take the amount of a shift from the lowest bits. -/
theorem amount_eq (h : i < l.count) : m.amount l (args insn a b c) i =
    ((m.operand l true insn b i).extractLsb' 0 l.shift).toNat := by
  have hlow : ∀ v : BitVec l.width,
      (v.setWidth 64 &&& l.shiftMask).toNat = (v.extractLsb' 0 l.shift).toNat := by
    intro v
    have hmask : ∀ j, l.shiftMask.getLsbD j = decide (j < l.shift) := by
      intro j
      have hones : l.shiftMask = (BitVec.allOnes l.shift).setWidth 64 := by cases l <;> rfl
      rw [hones, BitVec.getLsbD_setWidth, BitVec.getLsbD_allOnes]
      have hle : l.shift ≤ 4 := by cases l <;> decide
      by_cases hj : j < l.shift
      · have h64 : j < 64 := by omega
        simp [hj, h64]
      · simp [hj]
    have heq : v.setWidth 64 &&& l.shiftMask = (v.extractLsb' 0 l.shift).setWidth 64 := by
      apply BitVec.eq_of_getLsbD_eq
      intro j hj
      rw [BitVec.getLsbD_and, hmask, BitVec.getLsbD_setWidth, BitVec.getLsbD_setWidth,
        BitVec.getLsbD_extractLsb', Nat.zero_add]
      cases decide (j < l.shift) <;> simp
    have hle : l.shift ≤ 64 := by cases l <;> decide
    rw [heq, BitVec.toNat_setWidth_of_le hle]
  cases m with
  | vect =>
      change (l.zext (l.get (reg b) i) &&& _).toNat = _
      rw [l.zext_get h b]
      exact hlow _
  | sc =>
      change (l.zext (l.get (reg b) 0) &&& _).toNat = _
      rw [l.zext_get (count_pos l) b]
      exact hlow _
  | sci =>
      have hall : ∀ v : BitVec 6, (v.signExtend 64 &&& l.shiftMask).toNat =
          ((v.signExtend l.width).extractLsb' 0 l.shift).toNat := by
        clear hlow h
        cases l <;> decide
      change (DspArgs.simm6 _ &&& _).toNat = _
      rw [simm6_eq]
      exact hall _

end Second

/-! ## The bit in front -/

section Extended

variable {w : Nat}

theorem extended_signed (x : BitVec w) : Dspu.extended true x = x.signExtend (1 + w) := by
  rw [← sign_append, Dspu.extended, Bool.and_true]
  cases x.msb <;> rfl

theorem extended_unsigned (x : BitVec w) : Dspu.extended false x = x.setWidth (1 + w) := by
  rw [← zero_append, Dspu.extended, Bool.and_false]
  rfl

theorem sle_extended_signed (x y : BitVec w) :
    (Dspu.extended true x).sle (Dspu.extended true y) = x.sle y := by
  rw [extended_signed, extended_signed, sle_signExtend (by omega)]

theorem sle_extended_unsigned (x y : BitVec w) :
    (Dspu.extended false x).sle (Dspu.extended false y) = x.ule y := by
  rw [extended_unsigned, extended_unsigned, sle_extend (by omega)]

theorem slt_extended_signed (x y : BitVec w) :
    (Dspu.extended true x).slt (Dspu.extended true y) = x.slt y := by
  rw [extended_signed, extended_signed, slt_signExtend (by omega)]

theorem slt_extended_unsigned (x y : BitVec w) :
    (Dspu.extended false x).slt (Dspu.extended false y) = x.ult y := by
  rw [extended_unsigned, extended_unsigned, slt_extend (by omega)]

theorem signExtend_extended_signed {n : Nat} (h : 1 + w ≤ n) (x : BitVec w) :
    (Dspu.extended true x).signExtend n = x.signExtend n := by
  rw [extended_signed, signExtend_signExtend (by omega) h]

theorem signExtend_extended_unsigned {n : Nat} (h : 1 + w ≤ n) (x : BitVec w) :
    (Dspu.extended false x).signExtend n = x.setWidth n := by
  rw [extended_unsigned, signExtend_extend (by omega) h]

/-- An average is a sum shifted with its sign, or without. -/
theorem avg_signed (x : BitVec w) :
    (Dspu.extended true x >>> 1).setWidth w = x.sshiftRight 1 := by
  rw [extended_signed]
  apply BitVec.eq_of_getLsbD_eq
  intro j hj
  have hlt : 1 + j < 1 + w := by omega
  have hge : ¬ w ≤ j := by omega
  rw [BitVec.getLsbD_setWidth, BitVec.getLsbD_ushiftRight, BitVec.getLsbD_signExtend,
    BitVec.getLsbD_sshiftRight]
  simp [hj, hlt, hge]

theorem avg_unsigned (x : BitVec w) : (Dspu.extended false x >>> 1).setWidth w = x >>> 1 := by
  rw [extended_unsigned, shiftRight_extend (by omega)]

end Extended

/-! ## The unit, lane by lane -/

section Unit

variable {op : Dspu.SimdOp} (m : Second) (signed : Bool) (insn : BitVec 32) (a b c : Word)

theorem simdGated_simd (hop : op ≠ .nop) (size : Dspu.SimdSize) (mode : Dspu.SimdMode) {w : Nat}
    (x : BitVec w) : Dspu.simdGated (Dspu.simd op size mode signed) x = x := by
  change (if op != .nop then x else 0) = x
  rw [if_pos (bne_iff_ne.mpr hop)]

theorem operand_half (hop : op ≠ .nop) (i : Nat) :
    Dspu.simdOpBHalf (Dspu.simd op .halfWord m.mode signed) insn b i =
      m.operand .h signed insn b i := by
  cases m with
  | vect => exact congrArg (Dspu.half · i) (simdGated_simd signed hop _ _ b)
  | sc => exact congrArg (Dspu.half · 0) (simdGated_simd signed hop _ _ b)
  | sci =>
      change (if signed then _ else _ : BitVec 16) = if signed then _ else _
      rw [simdGated_simd signed hop]
      rfl

theorem operand_byte (hop : op ≠ .nop) (i : Nat) :
    Dspu.simdOpBByte (Dspu.simd op .byte m.mode signed) insn b i =
      m.operand .b signed insn b i := by
  cases m with
  | vect => exact congrArg (Dspu.byte · i) (simdGated_simd signed hop _ _ b)
  | sc => exact congrArg (Dspu.byte · 0) (simdGated_simd signed hop _ _ b)
  | sci =>
      have hall : ∀ (t : Bool) (v : BitVec 6),
          (if t then v.signExtend 16 else v.setWidth 16).extractLsb' 0 8 =
            if t then v.signExtend 8 else v.setWidth 8 := by decide
      change (if signed then _ else _ : BitVec 16).extractLsb' 0 8 = if signed then _ else _
      rw [simdGated_simd signed hop]
      exact hall signed (Dspu.imm6 insn)

/-- The operations that are not special work on each lane alone. -/
theorem simdHalf_lanes (ctl : Dspu.Control)
    (hop : ctl.simdOp ∉ [.nop, .ext, .ins, .dotp, .shuffle, .pack]) :
    Dspu.simdHalf ctl insn a b c = Dspu.halves fun i =>
      Dspu.lane ctl.simdOp ctl.simdSigned 4 (Dspu.half (Dspu.simdGated ctl a) i)
        (Dspu.simdOpBHalf ctl insn b i) := by
  rw [Dspu.simdHalf]
  split
  case h_7 => rfl
  all_goals
    next h =>
      rw [h] at hop
      exact absurd (by decide) hop

theorem simdByte_lanes (ctl : Dspu.Control)
    (hop : ctl.simdOp ∉ [.nop, .ext, .ins, .dotp, .shuffle, .pack]) :
    Dspu.simdByte ctl insn a b c = Dspu.bytes fun i =>
      Dspu.lane ctl.simdOp ctl.simdSigned 3 (Dspu.byte (Dspu.simdGated ctl a) i)
        (Dspu.simdOpBByte ctl insn b i) := by
  rw [Dspu.simdByte]
  split
  case h_7 => rfl
  all_goals
    next h =>
      rw [h] at hop
      exact absurd (by decide) hop

theorem result_half (hop : op ∉ [.nop, .ext, .ins, .dotp, .shuffle, .pack]) :
    Dspu.result (Dspu.simd op .halfWord m.mode signed) insn a b c = Dspu.halves fun i =>
      Dspu.lane op signed 4 (Dspu.half a i) (m.operand .h signed insn b i) := by
  have hnop : op ≠ .nop := by
    rintro rfl
    exact hop List.mem_cons_self
  have hresult : Dspu.result (Dspu.simd op .halfWord m.mode signed) insn a b c =
      Dspu.simdHalf (Dspu.simd op .halfWord m.mode signed) insn a b c := rfl
  rw [hresult, simdHalf_lanes _ _ _ _ _ hop]
  refine Lanes.halves_congr fun i _ => ?_
  rw [operand_half m signed insn b hnop, simdGated_simd signed hnop]
  rfl

theorem result_byte (hop : op ∉ [.nop, .ext, .ins, .dotp, .shuffle, .pack]) :
    Dspu.result (Dspu.simd op .byte m.mode signed) insn a b c = Dspu.bytes fun i =>
      Dspu.lane op signed 3 (Dspu.byte a i) (m.operand .b signed insn b i) := by
  have hnop : op ≠ .nop := by
    rintro rfl
    exact hop List.mem_cons_self
  have hresult : Dspu.result (Dspu.simd op .byte m.mode signed) insn a b c =
      Dspu.simdByte (Dspu.simd op .byte m.mode signed) insn a b c := rfl
  rw [hresult, simdByte_lanes _ _ _ _ _ hop]
  refine Lanes.bytes_congr fun i _ => ?_
  rw [operand_byte m signed insn b hnop, simdGated_simd signed hnop]
  rfl

theorem result_simd (l : Lanes) (hop : op ∉ [.nop, .ext, .ins, .dotp, .shuffle, .pack]) :
    Dspu.result (Dspu.simd op l.size m.mode signed) insn a b c = l.join fun i =>
      Dspu.lane op signed l.shift (l.cut a i) (m.operand l signed insn b i) := by
  cases l with
  | h => exact result_half m signed insn a b c hop
  | b => exact result_byte m signed insn a b c hop

end Unit

end TeraNoC.Spike
