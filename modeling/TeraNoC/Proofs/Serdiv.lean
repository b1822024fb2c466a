import TeraNoC.Lib.Division
import TeraNoC.Snitch.Serdiv

/-!
# What the serial divider computes

Dividend and divisor have one sign in the divider, and are their magnitudes written with
that sign (`enc`). A turn is then a turn of the division of the magnitudes (`Dividing`);
the leading zeros are counted so that the first turn has room for all of the quotient.

For one pair of operands they are not: the dividend minus one of a signed operation is
complemented and shifted to zero, and counted as if it were shorter than the divisor
one. Then the quotient is taken for zero.
-/

namespace TeraNoC.Snitch

open TeraNoC.Hw TeraNoC.Lib

/-- A magnitude with a sign, in two's complement. -/
def enc (neg : Bool) (x : Nat) : Word := if neg then -BitVec.ofNat 32 x else BitVec.ofNat 32 x

/-- What fits the divider's registers with a sign: a negative divisor may stand at `2 ^ 32`. -/
def Fits (neg : Bool) (d : Nat) : Prop := 0 < d ∧ if neg then d ≤ 2 ^ 32 else d < 2 ^ 32

def FitsA (neg : Bool) (r : Nat) : Prop := if neg then r ≤ 2 ^ 31 else r < 2 ^ 32

theorem Fits.half {neg : Bool} {d : Nat} (h : Fits neg (2 * d)) : Fits neg d := by
  obtain ⟨hpos, hle⟩ := h
  refine ⟨by omega, ?_⟩
  cases neg
  · exact Nat.lt_of_le_of_lt (Nat.le_mul_of_pos_left d (by decide)) hle
  · exact Nat.le_trans (Nat.le_mul_of_pos_left d (by decide)) hle

theorem FitsA.mono {neg : Bool} {r r' : Nat} (h : FitsA neg r) (hle : r' ≤ r) : FitsA neg r' := by
  rw [FitsA] at h ⊢
  cases neg
  · exact Nat.lt_of_le_of_lt hle h
  · exact Nat.le_trans hle h

theorem toNat_enc (neg : Bool) (x : Nat) :
    (enc neg x).toNat = if neg then (2 ^ 32 - x % 2 ^ 32) % 2 ^ 32 else x % 2 ^ 32 := by
  cases neg
  · simp [enc]
  · simp [enc, BitVec.toNat_neg]

theorem enc_sub (neg : Bool) {r d : Nat} (h : d ≤ r) :
    enc neg r - enc neg d = enc neg (r - d) := by
  apply BitVec.eq_of_toNat_eq
  rw [BitVec.toNat_sub, toNat_enc, toNat_enc, toNat_enc]
  cases neg
  · simp only [Bool.false_eq_true, if_false]
    omega
  · simp only [if_true]
    omega

theorem toNat_append_lt {m n : Nat} (x : BitVec m) (y : BitVec n) :
    (x ++ y).toNat = x.toNat * 2 ^ n + y.toNat := by
  rw [BitVec.toNat_append, ← Nat.shiftLeft_add_eq_or_of_lt y.isLt, Nat.shiftLeft_eq]

/-- The divisor a bit further down. -/
theorem enc_half {neg : Bool} {d : Nat} (h : Fits neg (2 * d)) :
    BitVec.ofBool neg ++ (enc neg (2 * d)).extractLsb' 1 31 = enc neg d := by
  obtain ⟨hpos, hle⟩ := h
  apply BitVec.eq_of_toNat_eq
  rw [toNat_append_lt, BitVec.extractLsb'_toNat, toNat_enc, toNat_enc, BitVec.toNat_ofBool,
    Nat.shiftRight_eq_div_pow]
  cases neg
  · simp only [Bool.false_eq_true, if_false, Bool.toNat_false] at hle ⊢
    omega
  · simp only [if_true, Bool.toNat_true] at hle ⊢
    omega

/-- The comparison, turned around for negative numbers, compares the magnitudes. -/
theorem abComp_eq {idWidth : Nat} {s : DivState idWidth} {neg : Bool} {r d : Nat}
    (hA : s.opA = enc neg r) (hB : s.opB = enc neg d) (hinv : s.compInv = neg)
    (hzero : s.opBZero = false) (hr : FitsA neg r) (hd : Fits neg d) :
    s.abComp = decide (d ≤ r) := by
  obtain ⟨hpos, hle⟩ := hd
  rw [FitsA] at hr
  have hlt : decide (s.opB < s.opA) = decide (s.opB.toNat < s.opA.toNat) := rfl
  have heq : (s.opA == s.opB) = decide (s.opA.toNat = s.opB.toNat) := by
    rw [Bool.eq_iff_iff, beq_iff_eq, decide_eq_true_iff, BitVec.toNat_eq]
  have hne : (s.opA != 0) = decide (s.opA.toNat ≠ 0) := by
    rw [Bool.eq_iff_iff, bne_iff_ne, decide_eq_true_iff, Ne, BitVec.toNat_eq]
    rfl
  rw [DivState.abComp, hlt, heq, hne, hinv, hzero, hA, hB, toNat_enc, toNat_enc, Bool.or_false]
  cases neg
  · simp only [Bool.false_eq_true, if_false] at hle hr ⊢
    rw [Bool.xor_false, ← Bool.decide_or, ← Bool.decide_and]
    exact decide_eq_decide.mpr (by omega)
  · simp only [if_true] at hle hr ⊢
    rw [Bool.xor_true, ← decide_not, ← Bool.decide_or, ← Bool.decide_and]
    exact decide_eq_decide.mpr (by omega)

/-- The quotient with one more bit. -/
theorem res_shift (q : Nat) (bit : Bool) :
    (BitVec.ofNat 32 q).extractLsb' 0 31 ++ BitVec.ofBool bit =
      BitVec.ofNat 32 (2 * q + bit.toNat) := by
  have hbit : bit.toNat ≤ 1 := Bool.toNat_le bit
  apply BitVec.eq_of_toNat_eq
  rw [toNat_append_lt, BitVec.extractLsb'_toNat, BitVec.toNat_ofNat, BitVec.toNat_ofNat,
    BitVec.toNat_ofBool, Nat.shiftRight_zero]
  omega

theorem enc_neg (neg : Bool) (x : Nat) : -enc neg x = enc (!neg) x := by
  cases neg
  · rfl
  · simp [enc]

theorem enc_shift (neg : Bool) (x n : Nat) : enc neg x <<< n = enc neg (x * 2 ^ n) := by
  have hpos : BitVec.ofNat 32 x <<< n = BitVec.ofNat 32 (x * 2 ^ n) := by
    apply BitVec.eq_of_toNat_eq
    simp [Nat.shiftLeft_eq]
  cases neg
  · exact hpos
  · rw [enc, enc, if_pos rfl, if_pos rfl, BitVec.shiftLeft_neg, hpos]

/-! ## The operands -/

/-- The sign that an operand has for a signed operation. -/
def isNeg (signed : Bool) (x : Word) : Bool := signed && x.msb

/-- What is divided of an operand. -/
def mag (signed : Bool) (x : Word) : Nat :=
  if isNeg signed x then 2 ^ 32 - x.toNat else x.toNat

theorem enc_mag (signed : Bool) (x : Word) : enc (isNeg signed x) (mag signed x) = x := by
  have hx := x.isLt
  apply BitVec.eq_of_toNat_eq
  rw [toNat_enc, mag]
  cases hneg : isNeg signed x
  · simp only [Bool.false_eq_true, if_false]
    omega
  · have hmsb : x.msb = true := ((Bool.and_eq_true _ _).mp hneg).2
    have hge := BitVec.toNat_ge_of_msb_true hmsb
    simp only [if_true]
    omega

theorem mag_pos {signed : Bool} {x : Word} (h : x ≠ 0) : 0 < mag signed x := by
  have hx := x.isLt
  have hne : x.toNat ≠ 0 := fun h0 => h (BitVec.eq_of_toNat_eq h0)
  rw [mag]
  split <;> omega

theorem mag_le (signed : Bool) (x : Word) : FitsA (isNeg signed x) (mag signed x) := by
  have hx := x.isLt
  rw [FitsA, mag]
  cases hneg : isNeg signed x
  · simpa only [Bool.false_eq_true, if_false] using hx
  · have hge := BitVec.toNat_ge_of_msb_true ((Bool.and_eq_true _ _).mp hneg).2
    simp only [if_true]
    omega

theorem mag_lt (signed : Bool) (x : Word) : mag signed x < 2 ^ 32 := by
  have h := mag_le signed x
  rw [FitsA] at h
  split at h <;> omega

theorem toInt_mag (x : Word) :
    x.toInt = if isNeg true x then -(mag true x : Int) else (mag true x : Int) := by
  have hx := x.isLt
  rw [BitVec.toInt_eq_msb_cond, mag, isNeg, Bool.true_and]
  cases x.msb
  · simp only [Bool.false_eq_true, if_false]
  · simp only [if_true]
    push_cast [hx.le]
    omega

/-! ## What the M extension asks for -/

structure DivRequest (idWidth : Nat) where
  id : BitVec idWidth
  op : DivOp
  opA : Word
  opB : Word

namespace DivOp

def signed : DivOp → Bool
  | .div | .rem => true
  | .divu | .remu => false

def isRem : DivOp → Bool
  | .rem | .remu => true
  | .div | .divu => false

end DivOp

namespace DivRequest

variable {idWidth : Nat} (q : DivRequest idWidth)

/-- Division rounds towards zero, and overflow wraps. A quotient by zero has all its bits
set, a remainder by zero is the dividend. -/
def result : Word :=
  match q.op with
  | .div => if q.opB = 0 then BitVec.allOnes 32 else BitVec.ofInt 32 (q.opA.toInt.tdiv q.opB.toInt)
  | .divu => if q.opB = 0 then BitVec.allOnes 32 else BitVec.ofNat 32 (q.opA.toNat / q.opB.toNat)
  | .rem => if q.opB = 0 then q.opA else BitVec.ofInt 32 (q.opA.toInt.tmod q.opB.toInt)
  | .remu => if q.opB = 0 then q.opA else BitVec.ofNat 32 (q.opA.toNat % q.opB.toNat)

def negA : Bool := isNeg q.op.signed q.opA

def negB : Bool := isNeg q.op.signed q.opB

def magA : Nat := mag q.op.signed q.opA

def magB : Nat := mag q.op.signed q.opB

theorem result_byZero (h : q.opB = 0) :
    q.result = if q.op.isRem then q.opA else BitVec.allOnes 32 := by
  rw [result]
  cases q.op <;> simp [h, DivOp.isRem]

theorem ofInt_tdiv (na nb : Bool) (a b : Nat) :
    BitVec.ofInt 32 ((if na then -(a : Int) else a).tdiv (if nb then -(b : Int) else b)) =
      enc (na ^^ nb) (a / b) := by
  have hq : (a : Int).tdiv b = ((a / b : Nat) : Int) := rfl
  cases na <;> cases nb <;>
    simp only [enc, if_true, Bool.false_eq_true, if_false, Bool.xor_false, Bool.xor_true,
      Bool.not_true, Bool.not_false, Int.neg_tdiv, Int.tdiv_neg, neg_neg, hq, BitVec.ofInt_neg,
      BitVec.ofInt_natCast]

theorem ofInt_tmod (na nb : Bool) (a b : Nat) :
    BitVec.ofInt 32 ((if na then -(a : Int) else a).tmod (if nb then -(b : Int) else b)) =
      enc na (a % b) := by
  have hr : (a : Int).tmod b = ((a % b : Nat) : Int) := rfl
  cases na <;> cases nb <;>
    simp only [enc, if_true, Bool.false_eq_true, if_false, Int.neg_tmod, Int.tmod_neg, hr,
      BitVec.ofInt_neg, BitVec.ofInt_natCast]

theorem result_eq (h : q.opB ≠ 0) :
    q.result = if q.op.isRem then enc q.negA (q.magA % q.magB)
      else enc (q.negA ^^ q.negB) (q.magA / q.magB) := by
  rw [result, negA, negB, magA, magB]
  cases q.op
  · simp only [if_neg h, DivOp.isRem, DivOp.signed]
    rw [toInt_mag, toInt_mag, ofInt_tdiv]
    rfl
  · simp only [if_neg h, DivOp.isRem, DivOp.signed]
    rfl
  · simp only [if_neg h, DivOp.isRem, DivOp.signed]
    rw [toInt_mag, toInt_mag, ofInt_tmod]
    rfl
  · simp only [if_neg h, DivOp.isRem, DivOp.signed]
    rfl

/-- A signed division of minus one by one. -/
def Short : Prop := q.op.signed = true ∧ q.opA = BitVec.allOnes 32 ∧ q.opB = 1

instance : Decidable q.Short := inferInstanceAs (Decidable (_ ∧ _ ∧ _))

theorem short_iff :
    q.Short ↔ q.negA = true ∧ q.negB = false ∧ q.magA = 1 ∧ q.magB = 1 := by
  rw [Short, negA, negB, magA, magB, mag, mag]
  constructor
  · intro ⟨hsigned, hA, hB⟩
    rw [hsigned, hA, hB]
    decide
  · intro ⟨hnegA, hnegB, hA, hB⟩
    have hx := q.opA.isLt
    rw [if_pos hnegA] at hA
    rw [if_neg (Bool.eq_false_iff.mp hnegB)] at hB
    refine ⟨((Bool.and_eq_true _ _).mp hnegA).1, BitVec.eq_of_toNat_eq ?_,
      BitVec.eq_of_toNat_eq hB⟩
    rw [BitVec.toNat_allOnes]
    omega

/-- What the divider answers. -/
def answer : Word :=
  if q.Short then (if q.op.isRem then BitVec.allOnes 32 else 0) else q.result

end DivRequest

theorem two_pow_top {k : Nat} (h : k < 32) : 2 ^ (32 - k) = 2 * 2 ^ (31 - k) := by
  rw [← Nat.pow_succ', show (31 - k).succ = 32 - k by omega]

/-! ## The alignment -/

theorem signedOp_of_divOp {operator : BitVec 32} {op : DivOp} (h : divOp operator = some op) :
    signedOp operator = op.signed := by
  rw [signedOp, h]
  cases op <;> rfl

theorem remOp_of_divOp {operator : BitVec 32} {op : DivOp} (h : divOp operator = some op) :
    remOp operator = op.isRem := by
  rw [remOp, h]
  cases op <;> rfl

/-- `n` places up, the divisor is in its register and one place more leaves room for the
dividend. -/
structure DivRequest.Aligned {idWidth : Nat} (q : DivRequest idWidth) (n : Nat) : Prop where
  le : n ≤ 32
  room : q.magA < q.magB * 2 ^ (n + 1)
  fits : Fits q.negB (q.magB * 2 ^ n)

namespace DivIn

variable {idWidth : Nat}

def request (i : DivIn idWidth) (op : DivOp) : DivRequest idWidth where
  id := i.id
  op := op
  opA := i.opA
  opB := i.opB

section Alignment

variable {i : DivIn idWidth} {op : DivOp} (lz : LeadingZeros)

theorem lzcBInput_toNat (hop : divOp i.operator = some op) :
    i.lzcBInput.toNat + (i.request op).negB.toNat = (i.request op).magB := by
  have hx := i.opB.isLt
  rw [lzcBInput, DivRequest.magB, DivRequest.negB, mag, signedOp_of_divOp hop]
  show _ + (isNeg op.signed i.opB).toNat = if isNeg op.signed i.opB then _ else _
  cases hneg : isNeg op.signed i.opB
  · rw [isNeg] at hneg
    rw [hneg]
    rfl
  · rw [isNeg] at hneg
    rw [hneg, if_pos rfl, if_pos rfl, BitVec.toNat_not, Bool.toNat_true]
    show _ = 2 ^ 32 - i.opB.toNat
    omega

theorem lzcAInput_toNat (hop : divOp i.operator = some op) :
    i.lzcAInput.toNat =
      if (i.request op).negA then 2 * ((i.request op).magA - 1) else (i.request op).magA := by
  have hx := i.opA.isLt
  rw [lzcAInput, DivRequest.magA, DivRequest.negA, mag, signedOp_of_divOp hop]
  show _ = if isNeg op.signed i.opA then 2 * ((if isNeg op.signed i.opA then _ else _) - 1)
    else if isNeg op.signed i.opA then _ else _
  cases hneg : isNeg op.signed i.opA
  · rw [isNeg] at hneg
    rw [hneg]
    rfl
  · rw [isNeg] at hneg
    have hge := BitVec.toNat_ge_of_msb_true ((Bool.and_eq_true _ _).mp hneg).2
    rw [hneg, if_pos rfl, if_pos rfl, if_pos rfl, BitVec.toNat_shiftLeft, BitVec.toNat_not,
      Nat.shiftLeft_eq]
    show _ = 2 * (2 ^ 32 - i.opA.toNat - 1)
    omega

theorem shiftA_le (i : DivIn idWidth) : (i.shiftA lz).toNat ≤ 32 := by
  rw [shiftA]
  split
  · decide
  · rw [BitVec.toNat_setWidth]
    have := (lz.cnt i.lzcAInput).isLt
    omega

theorem divShift_toNat (hb : i.lzcBInput ≠ 0) :
    (i.divShift lz).toNat =
      ((lz.cnt i.lzcBInput).toNat + 2 ^ 7 - (i.shiftA lz).toNat) % 2 ^ 7 := by
  have hcnt := (lz.cnt i.lzcBInput).isLt
  have hshift := shiftA_le lz i
  rw [divShift, if_neg hb, BitVec.toNat_sub, BitVec.toNat_setWidth, BitVec.toNat_setWidth]
  omega

theorem divShift_msb : (i.divShift lz).msb = decide (64 ≤ (i.divShift lz).toNat) :=
  BitVec.msb_eq_decide _

/-- What is to come of an alignment. -/
def Outcome (i : DivIn idWidth) (lz : LeadingZeros) (q : DivRequest idWidth) : Prop :=
  if (i.divShift lz).msb then q.magA < q.magB ∨ q.Short
  else ¬ q.Short ∧ q.Aligned (i.divShift lz).toNat

/-- The divisor minus one stands at the very top. -/
theorem outcome_minusOne (hop : divOp i.operator = some op) (hb : i.opB ≠ 0)
    (hB0 : i.lzcBInput = 0) : i.Outcome lz (i.request op) := by
  have hlzcB := lzcBInput_toNat hop
  have hpos : 0 < (i.request op).magB := mag_pos hb
  have hshift : i.divShift lz = 32 := by rw [divShift, if_pos hB0]
  rw [hB0, show (0 : Word).toNat = 0 from rfl, Nat.zero_add] at hlzcB
  have hneg : (i.request op).negB = true := by
    cases hc : (i.request op).negB
    · rw [hc] at hlzcB
      exact absurd hlzcB.symm (Nat.pos_iff_ne_zero.mp hpos)
    · rfl
  rw [hneg, Bool.toNat_true] at hlzcB
  rw [Outcome, hshift, if_neg (by decide)]
  refine ⟨fun h => ?_, by decide, ?_, ?_⟩
  · exact Bool.noConfusion (hneg.symm.trans ((DivRequest.short_iff _).mp h).2.1)
  · rw [← hlzcB]
    exact Nat.lt_of_lt_of_le (mag_lt _ _) (by decide)
  · rw [hneg, ← hlzcB]
    exact ⟨by decide, by decide⟩

/-- A dividend that counts as zero is shorter than any divisor but one. -/
theorem outcome_zero (hop : divOp i.operator = some op) (hB0 : i.lzcBInput ≠ 0)
    (hA0 : i.lzcAInput = 0) : i.Outcome lz (i.request op) := by
  have hlzcB := lzcBInput_toNat hop
  have hlzcA := lzcAInput_toNat hop
  have hcntB := (lz.cnt i.lzcBInput).isLt
  have hn := divShift_toNat lz hB0
  rw [shiftA, if_pos hA0, show (32 : BitVec 6).toNat = 32 from rfl] at hn
  rw [hA0, show (0 : Word).toNat = 0 from rfl] at hlzcA
  have hBne : i.lzcBInput.toNat ≠ 0 := fun h => hB0 (BitVec.eq_of_toNat_eq h)
  rw [Outcome, divShift_msb, if_pos (decide_eq_true (by omega)), DivRequest.short_iff]
  cases hc : (i.request op).negB
  · rw [hc, Bool.toNat_false] at hlzcB
    cases hna : (i.request op).negA
    · rw [hna, if_neg (by decide)] at hlzcA
      exact .inl (by omega)
    · rw [hna, if_pos rfl] at hlzcA
      by_cases hlt : (i.request op).magA < (i.request op).magB
      · exact .inl hlt
      · exact .inr ⟨rfl, rfl, by omega, by omega⟩
  · rw [hc, Bool.toNat_true] at hlzcB
    split at hlzcA <;> exact .inl (by omega)

theorem outcome_lead (hop : divOp i.operator = some op) (hB0 : i.lzcBInput ≠ 0)
    (hA0 : i.lzcAInput ≠ 0) : i.Outcome lz (i.request op) := by
  have hlzcB := lzcBInput_toNat hop
  have hlzcA := lzcAInput_toNat hop
  have hn := divShift_toNat lz hB0
  obtain ⟨hloB, hhiB⟩ := lz.cnt_lead _ hB0
  obtain ⟨-, hhiA⟩ := lz.cnt_lead _ hA0
  have hcntB := (lz.cnt i.lzcBInput).isLt
  have hcntA := (lz.cnt i.lzcAInput).isLt
  rw [shiftA, if_neg hA0, BitVec.toNat_setWidth] at hn
  set ka := (lz.cnt i.lzcAInput).toNat
  set kb := (lz.cnt i.lzcBInput).toNat
  have hPdouble : 2 ^ (32 - ka) = 2 * 2 ^ (31 - ka) := two_pow_top hcntA
  have hQdouble : 2 ^ (32 - kb) = 2 * 2 ^ (31 - kb) := two_pow_top hcntB
  have hA : (i.request op).magA < 2 ^ (32 - ka) := by
    have hP := Nat.two_pow_pos (31 - ka)
    rw [hlzcA] at hhiA
    split at hhiA <;> omega
  have hBlo : 2 ^ (31 - kb) ≤ (i.request op).magB := by omega
  rw [Outcome, divShift_msb]
  by_cases hlt : kb < ka
  · have hstep : 2 ^ (32 - ka) ≤ 2 ^ (31 - kb) := Nat.pow_le_pow_right (by decide) (by omega)
    rw [if_pos (decide_eq_true (by omega))]
    exact .inl (by omega)
  · have hnk : (i.divShift lz).toNat = kb - ka := by omega
    have hup : 2 ^ (31 - kb) * 2 ^ (kb - ka + 1) = 2 ^ (32 - ka) := by
      rw [← Nat.pow_add, show 31 - kb + (kb - ka + 1) = 32 - ka by omega]
    have hplace : 2 * 2 ^ (31 - kb) * 2 ^ (kb - ka) = 2 ^ (32 - ka) := by
      rw [← hup, Nat.pow_succ]
      ring
    have htop : 2 ^ (32 - ka) ≤ 2 ^ 32 := Nat.pow_le_pow_right (by decide) (by omega)
    rw [hnk, if_neg (by rw [decide_eq_true_iff]; omega)]
    refine ⟨fun h => ?_, by omega, ?_, ?_, ?_⟩
    · obtain ⟨hneg, -, hone, -⟩ := (DivRequest.short_iff _).mp h
      rw [if_pos hneg, hone] at hlzcA
      exact hA0 (BitVec.eq_of_toNat_eq hlzcA)
    · calc (i.request op).magA < 2 ^ (31 - kb) * 2 ^ (kb - ka + 1) := hup ▸ hA
        _ ≤ (i.request op).magB * 2 ^ (kb - ka + 1) := Nat.mul_le_mul_right _ hBlo
    · exact Nat.mul_pos (Nat.lt_of_lt_of_le (Nat.two_pow_pos _) hBlo) (Nat.two_pow_pos _)
    · cases hc : (i.request op).negB
      · rw [hc, Bool.toNat_false, Nat.add_zero] at hlzcB
        calc (i.request op).magB * 2 ^ (kb - ka) < 2 * 2 ^ (31 - kb) * 2 ^ (kb - ka) :=
              Nat.mul_lt_mul_of_pos_right (by omega) (Nat.two_pow_pos _)
          _ ≤ 2 ^ 32 := hplace ▸ htop
      · rw [hc, Bool.toNat_true] at hlzcB
        calc (i.request op).magB * 2 ^ (kb - ka) ≤ 2 * 2 ^ (31 - kb) * 2 ^ (kb - ka) :=
              Nat.mul_le_mul_right _ (by omega)
          _ ≤ 2 ^ 32 := hplace ▸ htop

theorem outcome (hop : divOp i.operator = some op) (hb : i.opB ≠ 0) :
    i.Outcome lz (i.request op) := by
  by_cases hB0 : i.lzcBInput = 0
  · exact outcome_minusOne lz hop hb hB0
  · by_cases hA0 : i.lzcAInput = 0
    · exact outcome_zero lz hop hB0 hA0
    · exact outcome_lead lz hop hB0 hA0

end Alignment

end DivIn

/-! ## The cycles -/

namespace DivState

variable {idWidth : Nat} {s : DivState idWidth} {i : DivIn idWidth} {lz : LeadingZeros}

theorem next_load (hidle : s.state = .idle) (hvld : i.inVld = true) :
    s.next i lz =
      { state := .divide
        opA := if i.signs then -i.opA else i.opA
        opB := i.opB <<< (i.divShift lz).toNat
        res := 0
        cnt := (i.divShift lz).setWidth 6
        id := i.id
        remSel := remOp i.operator
        compInv := signedOp i.operator && i.opB.msb
        resInv := (!(i.opB == 0) || remOp i.operator) && i.signs
        opBZero := i.opB == 0
        divResZero := (i.divShift lz).msb } := by
  have hload : s.loadEn i = true := by simp [loadEn, hidle, hvld]
  cases hsigns : i.signs <;>
    simp [next, stateD, hidle, hvld, hload, addOut, bMux, pmSel, hsigns]

theorem next_turn (hdivide : s.state = .divide) (hzero : s.divResZero = false) :
    s.next i lz =
      { s with
        state := if s.cnt = 0 then .finish else .divide
        opA := if s.abComp then s.opA - s.opB else s.opA
        opB := BitVec.ofBool s.compInv ++ s.opB.extractLsb' 1 31
        res := s.res.extractLsb' 0 31 ++ BitVec.ofBool s.abComp
        cnt := if s.cnt = 0 then s.cnt else s.cnt - 1 } := by
  have hload : s.loadEn i = false := by simp [loadEn, hdivide]
  have hturn : s.turn = true := by simp [turn, hdivide, hzero]
  simp [next, stateD, hdivide, hzero, hload, hturn, addOut, bMux, pmSel]

theorem next_wait (hvld : s.outVld = true) :
    s.next i lz =
      { s with
        state := if i.outRdy then .idle else .finish
        cnt := if s.cnt = 0 then s.cnt else s.cnt - 1 } := by
  rw [outVld, Bool.or_eq_true, Bool.and_eq_true, decide_eq_true_iff, decide_eq_true_iff] at hvld
  rcases hvld with hfinish | ⟨hdivide, hzero⟩
  · have hload : s.loadEn i = false := by simp [loadEn, hfinish]
    have hturn : s.turn = false := by simp [turn, hfinish]
    simp [next, stateD, hfinish, hload, hturn]
  · have hload : s.loadEn i = false := by simp [loadEn, hdivide]
    have hturn : s.turn = false := by simp [turn, hzero]
    simp [next, stateD, hdivide, hzero, hload, hturn]

theorem next_idle (hidle : s.state = .idle) (hvld : i.inVld = false) :
    s.next i lz = { s with cnt := if s.cnt = 0 then s.cnt else s.cnt - 1 } := by
  have hload : s.loadEn i = false := by simp [loadEn, hvld]
  simp [next, stateD, hidle, hvld, hload, turn]

end DivState

/-! ## The division -/

namespace DivRequest

variable {idWidth : Nat} {q : DivRequest idWidth}

theorem magA_fits (q : DivRequest idWidth) : FitsA q.negB q.magA := by
  have hA := mag_le q.op.signed q.opA
  have hx := q.opA.isLt
  rw [FitsA] at hA ⊢
  cases hB : q.negB
  · exact mag_lt q.op.signed q.opA
  · have hsigned : q.op.signed = true := ((Bool.and_eq_true _ _).mp hB).1
    rw [magA, mag]
    rw [mag] at hA
    cases hmsb : q.opA.msb
    · have hlt := BitVec.toNat_lt_of_msb_false hmsb
      rw [isNeg, hmsb, Bool.and_false]
      exact hlt.le
    · rw [isNeg, hsigned, hmsb] at hA ⊢
      exact hA

theorem magB_zero (h : q.opB = 0) : q.negB = false ∧ q.magB = 0 := by
  have hneg : isNeg q.op.signed 0 = false := by rw [isNeg]; cases q.op.signed <;> rfl
  rw [negB, magB, mag, h, hneg]
  exact ⟨rfl, rfl⟩

/-- The dividend and the quotient while the divisor stands `n` places up. A divisor that is
zero gives a one in each turn. -/
def Progress (q : DivRequest idWidth) (n : Nat) (opA res : Word) : Prop :=
  if q.opB = 0 then opA = enc false q.magA ∧ n ≤ 33 ∧ res = BitVec.ofNat 32 (2 ^ (33 - n) - 1)
  else ∃ quot rem, Dividing q.magA q.magB n quot rem ∧
    opA = enc q.negB rem ∧ res = BitVec.ofNat 32 quot

/-- The registers that stay from the load on. -/
structure Kept (q : DivRequest idWidth) (s : DivState idWidth) : Prop where
  id : s.id = q.id
  compInv : s.compInv = q.negB
  remSel : s.remSel = q.op.isRem
  resInv : s.resInv = ((!(q.opB == 0) || q.op.isRem) && (q.negA ^^ q.negB))
  opBZero : s.opBZero = (q.opB == 0)

theorem Kept.resO {s : DivState idWidth} (h : q.Kept s) (hp : q.Progress 0 s.opA s.res) :
    s.resO = q.result := by
  rw [DivState.resO, DivState.outMux, h.remSel, h.resInv]
  rw [Progress] at hp
  by_cases hzero : q.opB = 0
  · obtain ⟨hneg, -⟩ := magB_zero hzero
    rw [if_pos hzero] at hp
    rw [result_byZero q hzero, hp.1, hp.2.2, hneg, hzero, Bool.xor_false]
    cases q.op.isRem
    · rfl
    · have hA : enc q.negA q.magA = q.opA := enc_mag q.op.signed q.opA
      cases hna : q.negA
      · rw [hna] at hA
        simpa using hA
      · rw [hna] at hA
        simpa [enc_neg] using hA
  · rw [if_neg hzero] at hp
    obtain ⟨quot, rem, hdiv, hopA, hres⟩ := hp
    obtain ⟨hquot, hrem⟩ := hdiv.done
    have hbeq : (q.opB == 0) = false := beq_eq_false_iff_ne.mpr hzero
    rw [result_eq q hzero, ← hquot, ← hrem, hopA, hres, hbeq]
    cases q.op.isRem <;> cases q.negA <;> cases q.negB <;> simp [enc]

/-- While the division turns. -/
structure Turning (q : DivRequest idWidth) (s : DivState idWidth) : Prop extends q.Kept s where
  cnt_le : s.cnt.toNat ≤ 32
  progress : q.Progress (s.cnt.toNat + 1) s.opA s.res
  opB : s.opB = enc q.negB (q.magB * 2 ^ s.cnt.toNat)
  fits : q.opB ≠ 0 → Fits q.negB (q.magB * 2 ^ s.cnt.toNat)

/-- One turn. -/
theorem Turning.turn {s : DivState idWidth} (h : q.Turning s) :
    q.Progress s.cnt.toNat (if s.abComp then s.opA - s.opB else s.opA)
      (s.res.extractLsb' 0 31 ++ BitVec.ofBool s.abComp) := by
  have hp := h.progress
  rw [Progress] at hp ⊢
  by_cases hzero : q.opB = 0
  · obtain ⟨hneg, hmag⟩ := magB_zero hzero
    rw [if_pos hzero] at hp ⊢
    obtain ⟨hopA, hn, hres⟩ := hp
    have hopB : s.opB = 0 := by
      rw [h.opB, hneg, hmag, Nat.zero_mul]
      rfl
    have hcomp : s.abComp = true := by
      rw [DivState.abComp, h.opBZero, hzero, h.compInv, hneg, hopB]
      by_cases hA : s.opA = 0
      · simp [hA]
      · have hpos : (0 : Word) < s.opA :=
          Nat.pos_of_ne_zero fun h0 => hA (BitVec.eq_of_toNat_eq h0)
        simpa using Or.inr hpos
    have hpow : 2 ^ (33 - s.cnt.toNat) = 2 * 2 ^ (33 - (s.cnt.toNat + 1)) := by
      rw [← Nat.pow_succ', show (33 - (s.cnt.toNat + 1)).succ = 33 - s.cnt.toNat by omega]
    have hone := Nat.two_pow_pos (33 - (s.cnt.toNat + 1))
    rw [hcomp, if_pos rfl, hopB, hres, res_shift, Bool.toNat_true,
      show 2 * (2 ^ (33 - (s.cnt.toNat + 1)) - 1) + 1 = 2 ^ (33 - s.cnt.toNat) - 1 by omega]
    exact ⟨by rw [← hopA]; exact BitVec.sub_zero _, by omega, rfl⟩
  · rw [if_neg hzero] at hp ⊢
    obtain ⟨quot, rem, hdiv, hopA, hres⟩ := hp
    have hrem : FitsA q.negB rem :=
      q.magA_fits.mono (hdiv.eq.symm ▸ Nat.le_add_left rem _)
    have hcomp : s.abComp = decide (q.magB * 2 ^ s.cnt.toNat ≤ rem) :=
      abComp_eq hopA h.opB h.compInv (by rw [h.opBZero]; exact beq_eq_false_iff_ne.mpr hzero)
        hrem (h.fits hzero)
    rw [hres, res_shift]
    by_cases hle : q.magB * 2 ^ s.cnt.toNat ≤ rem
    · rw [hcomp, decide_eq_true hle, if_pos rfl, hopA, h.opB, enc_sub _ hle]
      exact ⟨_, _, hdiv.take hle, rfl, rfl⟩
    · rw [hcomp, decide_eq_false hle, if_neg (by decide)]
      exact ⟨_, _, hdiv.skip (not_le.mp hle), hopA, rfl⟩

/-- What the divider holds of a request that it has taken. -/
def Held (q : DivRequest idWidth) (s : DivState idWidth) : Prop :=
  s.id = q.id ∧
    match s.state with
    | .idle => False
    | .divide => if s.divResZero then s.resO = q.answer else ¬ q.Short ∧ q.Turning s
    | .finish => s.resO = q.answer

theorem answer_of_not_short (h : ¬ q.Short) : q.answer = q.result := if_neg h

theorem Held.resO {s : DivState idWidth} (h : q.Held s) (hvld : s.outVld = true) :
    s.resO = q.answer := by
  obtain ⟨-, hphase⟩ := h
  rw [DivState.outVld, Bool.or_eq_true, Bool.and_eq_true, decide_eq_true_iff,
    decide_eq_true_iff] at hvld
  rcases hvld with hfinish | ⟨hdivide, hzero⟩
  · simpa only [hfinish] using hphase
  · simpa only [hdivide, hzero, if_true] using hphase

/-- A cycle of a request that is not answered in it. -/
theorem Held.next {s : DivState idWidth} {i : DivIn idWidth} {lz : LeadingZeros} (h : q.Held s)
    (hkeep : (s.outVld && i.outRdy) = false) : q.Held (s.next i lz) := by
  cases hvld : s.outVld
  · obtain ⟨hid, hphase⟩ := h
    cases hstate : s.state with
    | idle => exact absurd hphase (by rw [hstate]; exact not_false)
    | finish => rw [DivState.outVld, hstate] at hvld; cases hvld
    | divide =>
      have hzero : s.divResZero = false := by simpa [DivState.outVld, hstate] using hvld
      simp only [hstate, hzero, Bool.false_eq_true, if_false] at hphase
      obtain ⟨hshort, hturning⟩ := hphase
      have hprogress := hturning.turn
      refine ⟨by rw [DivState.next_turn hstate hzero]; exact hid, ?_⟩
      by_cases hcnt : s.cnt = 0
      · rw [hcnt] at hprogress
        rw [DivState.next_turn hstate hzero, if_pos hcnt, answer_of_not_short hshort]
        exact Kept.resO ⟨hturning.id, hturning.compInv, hturning.remSel, hturning.resInv,
          hturning.opBZero⟩ hprogress
      · have hpred : (s.cnt - 1).toNat + 1 = s.cnt.toNat := by
          have hne : s.cnt.toNat ≠ 0 := fun h0 => hcnt (BitVec.eq_of_toNat_eq h0)
          have hlt := s.cnt.isLt
          rw [BitVec.toNat_sub, show (1 : BitVec 6).toNat = 1 from rfl]
          omega
        have hdouble : q.magB * 2 ^ s.cnt.toNat = 2 * (q.magB * 2 ^ (s.cnt - 1).toNat) := by
          rw [← hpred, Nat.pow_succ]
          ring
        rw [DivState.next_turn hstate hzero, if_neg hcnt, if_neg hcnt]
        simp only [hzero, Bool.false_eq_true, if_false]
        refine ⟨hshort, ⟨hturning.id, hturning.compInv, hturning.remSel, hturning.resInv,
          hturning.opBZero⟩, ?_, ?_, ?_, ?_⟩
        · have hle := hturning.cnt_le
          show (s.cnt - 1).toNat ≤ 32
          omega
        · show q.Progress ((s.cnt - 1).toNat + 1) _ _
          rw [hpred]
          exact hprogress
        · show BitVec.ofBool s.compInv ++ s.opB.extractLsb' 1 31 = _
          rw [hturning.compInv, hturning.opB, hdouble]
          by_cases hb : q.opB = 0
          · obtain ⟨hneg, hmag⟩ := magB_zero hb
            rw [hneg, hmag, Nat.zero_mul]
            decide
          · exact enc_half (hdouble ▸ hturning.fits hb)
        · exact fun hb => Fits.half (hdouble ▸ hturning.fits hb)
  · rw [hvld, Bool.true_and] at hkeep
    rw [DivState.next_wait hvld, hkeep]
    exact ⟨h.1, h.resO hvld⟩

theorem request_signs {i : DivIn idWidth} {op : DivOp} (hop : divOp i.operator = some op) :
    i.signs = ((i.request op).negA ^^ (i.request op).negB) := by
  rw [DivIn.signs, signedOp_of_divOp hop]
  exact Bool.and_xor_distrib_left _ _ _

/-- With one sign, dividend and divisor have that of the divisor. -/
theorem request_opA {i : DivIn idWidth} {op : DivOp} (hop : divOp i.operator = some op) :
    (if i.signs then -i.opA else i.opA) = enc (i.request op).negB (i.request op).magA := by
  have hA : enc (i.request op).negA (i.request op).magA = i.opA := enc_mag op.signed i.opA
  rw [request_signs hop, ← hA, enc_neg]
  cases (i.request op).negA <;> cases (i.request op).negB <;> rfl

theorem kept_load {s : DivState idWidth} {i : DivIn idWidth} {op : DivOp} (lz : LeadingZeros)
    (hidle : s.state = .idle) (hvld : i.inVld = true) (hop : divOp i.operator = some op) :
    (i.request op).Kept (s.next i lz) := by
  rw [DivState.next_load hidle hvld]
  refine ⟨rfl, ?_, remOp_of_divOp hop, ?_, rfl⟩
  · show (signedOp i.operator && i.opB.msb) = _
    rw [signedOp_of_divOp hop]
    rfl
  · show ((!(i.opB == 0) || remOp i.operator) && i.signs) = _
    rw [remOp_of_divOp hop, request_signs hop]
    rfl

theorem divShift_byZero (i : DivIn idWidth) (lz : LeadingZeros) (hb : i.opB = 0) :
    i.divShift lz = 32 := by
  have hlzcB : i.lzcBInput = 0 := by
    rw [DivIn.lzcBInput, hb, show (0 : Word).msb = false from rfl, Bool.and_false]
    rfl
  rw [DivIn.divShift, if_pos hlzcB]

/-- A request whose division has turns to make. -/
theorem held_load_turning {s : DivState idWidth} {i : DivIn idWidth} {op : DivOp}
    {lz : LeadingZeros} (hidle : s.state = .idle) (hvld : i.inVld = true)
    (hop : divOp i.operator = some op) (hmsb : (i.divShift lz).msb = false)
    (hle : (i.divShift lz).toNat ≤ 32) (hshort : ¬ (i.request op).Short)
    (hp : (i.request op).Progress ((i.divShift lz).toNat + 1)
      (enc (i.request op).negB (i.request op).magA) 0)
    (hfits : i.opB ≠ 0 →
      Fits (i.request op).negB ((i.request op).magB * 2 ^ (i.divShift lz).toNat)) :
    (i.request op).Held (s.next i lz) := by
  have hkept := kept_load lz hidle hvld hop
  have hB : enc (i.request op).negB (i.request op).magB = i.opB := enc_mag op.signed i.opB
  have hcnt : ((i.divShift lz).setWidth 6).toNat = (i.divShift lz).toNat := by
    rw [BitVec.toNat_setWidth]
    omega
  refine ⟨hkept.id, ?_⟩
  rw [DivState.next_load hidle hvld, hmsb] at hkept ⊢
  simp only [Bool.false_eq_true, if_false]
  refine ⟨hshort, hkept, ?_, ?_, ?_, ?_⟩
  · exact hcnt ▸ hle
  · show (i.request op).Progress (((i.divShift lz).setWidth 6).toNat + 1) _ 0
    rw [hcnt, request_opA hop]
    exact hp
  · show i.opB <<< _ = enc _ (_ * 2 ^ ((i.divShift lz).setWidth 6).toNat)
    rw [hcnt, ← enc_shift, hB]
  · show _ → Fits _ (_ * 2 ^ ((i.divShift lz).setWidth 6).toNat)
    rw [hcnt]
    exact hfits

/-- The dividend is shorter than the divisor, or minus one is taken to be. -/
theorem held_load_zero {s : DivState idWidth} {i : DivIn idWidth} {op : DivOp}
    {lz : LeadingZeros} (hidle : s.state = .idle) (hvld : i.inVld = true)
    (hop : divOp i.operator = some op) (hb : i.opB ≠ 0) (hmsb : (i.divShift lz).msb = true)
    (h : (i.request op).magA < (i.request op).magB ∨ (i.request op).Short) :
    (i.request op).Held (s.next i lz) := by
  have hkept := kept_load lz hidle hvld hop
  refine ⟨hkept.id, ?_⟩
  rw [DivState.next_load hidle hvld] at hkept ⊢
  simp only [hmsb, if_true]
  rcases h with hlt | hshort
  · have hnot : ¬ (i.request op).Short := fun hs => by
      obtain ⟨-, -, hA, hB⟩ := (short_iff _).mp hs
      omega
    rw [answer_of_not_short hnot]
    refine hkept.resO ?_
    show (i.request op).Progress 0 _ 0
    rw [Progress, if_neg (show (i.request op).opB ≠ 0 from hb)]
    exact ⟨0, _, ⟨by rw [Nat.zero_mul, Nat.zero_add], by rwa [Nat.pow_zero, Nat.mul_one]⟩,
      request_opA hop, rfl⟩
  · obtain ⟨hnegA, hnegB, hmagA, -⟩ := (short_iff _).mp hshort
    rw [answer, if_pos hshort, DivState.resO, DivState.outMux, hkept.resInv, hkept.remSel]
    show (if _ then -(if op.isRem then (if i.signs then -i.opA else i.opA) else 0) else _) = _
    rw [request_opA hop, hnegA, hnegB, hmagA, beq_eq_false_iff_ne.mpr
      (show (i.request op).opB ≠ 0 from hb)]
    show -(if op.isRem then _ else _) = if op.isRem then _ else _
    cases op.isRem <;> rfl

/-- Taking a request in. -/
theorem held_load {s : DivState idWidth} {i : DivIn idWidth} {op : DivOp} (lz : LeadingZeros)
    (hidle : s.state = .idle) (hvld : i.inVld = true) (hop : divOp i.operator = some op) :
    (i.request op).Held (s.next i lz) := by
  by_cases hb : i.opB = 0
  · have hshift := divShift_byZero i lz hb
    have hneg : (i.request op).negB = false := (magB_zero (q := i.request op) hb).1
    refine held_load_turning hidle hvld hop (hshift ▸ rfl) (hshift ▸ by decide) (fun h => ?_) ?_
      (fun hne => absurd hb hne)
    · exact absurd (hb.symm.trans h.2.2) (by decide)
    · rw [hshift, hneg, Progress, if_pos (show (i.request op).opB = 0 from hb)]
      exact ⟨rfl, by decide, rfl⟩
  · have houtcome := DivIn.outcome lz hop hb
    rw [DivIn.Outcome] at houtcome
    cases hmsb : (i.divShift lz).msb
    · rw [hmsb, if_neg Bool.false_ne_true] at houtcome
      obtain ⟨hshort, haligned⟩ := houtcome
      refine held_load_turning hidle hvld hop hmsb haligned.le hshort ?_ (fun _ => haligned.fits)
      rw [Progress, if_neg (show (i.request op).opB ≠ 0 from hb)]
      exact ⟨0, _, Dividing.start haligned.room, rfl, rfl⟩
    · rw [hmsb, if_pos rfl] at houtcome
      exact held_load_zero hidle hvld hop hb hmsb houtcome

end DivRequest

/-! ## Runs -/

/-- The divider with the requests it took and the answers that were taken from it. -/
structure DivTrace (idWidth : Nat) where
  divider : DivState idWidth
  accepted : List (DivRequest idWidth)
  answered : List (BitVec idWidth × Word)

namespace DivTrace

variable {idWidth : Nat} {lz : LeadingZeros} {t : DivTrace idWidth} {i : DivIn idWidth}

def initial : DivTrace idWidth where
  divider := DivState.reset idWidth
  accepted := []
  answered := []

def next (t : DivTrace idWidth) (i : DivIn idWidth) (lz : LeadingZeros) : DivTrace idWidth where
  divider := t.divider.next i lz
  accepted := t.accepted ++
    (if t.divider.inRdy && i.inVld then ((divOp i.operator).map i.request).toList else [])
  answered := t.answered ++
    (if t.divider.outVld && i.outRdy then [(t.divider.id, t.divider.resO)] else [])

/-- Only divisions are asked for; what else is on the inputs is arbitrary in each cycle. -/
inductive Reachable (lz : LeadingZeros) : DivTrace idWidth → Prop
  | initial : Reachable lz initial
  | next {t : DivTrace idWidth} (h : Reachable lz t) (i : DivIn idWidth)
      (hop : i.inVld = true → (divOp i.operator).isSome = true) : Reachable lz (t.next i lz)

def answers (qs : List (DivRequest idWidth)) : List (BitVec idWidth × Word) :=
  qs.map fun q => (q.id, q.answer)

/-- Nothing is under way, or the last request is. -/
def Inv (t : DivTrace idWidth) : Prop :=
  t.divider.state = .idle ∧ t.answered = answers t.accepted ∨
    ∃ qs q, t.accepted = qs ++ [q] ∧ t.answered = answers qs ∧ q.Held t.divider

theorem not_idle_of_held {q : DivRequest idWidth} {s : DivState idWidth} (h : q.Held s) :
    s.state ≠ .idle := by
  intro hidle
  have hphase := h.2
  rw [hidle] at hphase
  exact hphase

theorem Inv.next (h : t.Inv) (hop : i.inVld = true → (divOp i.operator).isSome = true) :
    (t.next i lz).Inv := by
  rcases h with ⟨hidle, hanswered⟩ | ⟨qs, q, haccepted, hanswered, hheld⟩
  · have hrdy : t.divider.inRdy = true := decide_eq_true hidle
    have hout : t.divider.outVld = false := by simp [DivState.outVld, hidle]
    rw [DivTrace.next, hrdy, hout]
    cases hvld : i.inVld
    · refine .inl ⟨?_, ?_⟩
      · rw [DivState.next_idle hidle hvld]
        exact hidle
      · simpa using hanswered
    · obtain ⟨op, hop⟩ := Option.isSome_iff_exists.mp (hop hvld)
      refine .inr ⟨t.accepted, i.request op, ?_, by simpa using hanswered,
        DivRequest.held_load lz hidle hvld hop⟩
      simp [hop]
  · have hbusy := not_idle_of_held hheld
    have hrdy : t.divider.inRdy = false := decide_eq_false hbusy
    rw [DivTrace.next, hrdy]
    cases hout : t.divider.outVld && i.outRdy
    · refine .inr ⟨qs, q, ?_, ?_, hheld.next hout⟩
      · simpa using haccepted
      · simpa using hanswered
    · obtain ⟨hvld, hready⟩ := (Bool.and_eq_true _ _).mp hout
      refine .inl ⟨?_, ?_⟩
      · rw [DivState.next_wait hvld, hready]
        rfl
      · simp [haccepted, hanswered, answers, hheld.resO hvld, hheld.1]

theorem Reachable.inv (h : t.Reachable lz) : t.Inv := by
  induction h with
  | initial => exact .inl ⟨rfl, rfl⟩
  | next _ i hop ih => exact ih.next hop

theorem Reachable.answered_eq (h : t.Reachable lz) :
    t.answered = answers (t.accepted.take t.answered.length) ∧
      t.accepted.length = t.answered.length + (if t.divider.inRdy then 0 else 1) := by
  rcases h.inv with ⟨hidle, hanswered⟩ | ⟨qs, q, haccepted, hanswered, hheld⟩
  · have hrdy : t.divider.inRdy = true := decide_eq_true hidle
    have hlen : t.answered.length = t.accepted.length := by
      rw [hanswered, answers, List.length_map]
    rw [hlen, hrdy, List.take_length]
    exact ⟨hanswered, rfl⟩
  · have hrdy : t.divider.inRdy = false := decide_eq_false (not_idle_of_held hheld)
    have hlen : t.answered.length = qs.length := by
      rw [hanswered, answers, List.length_map]
    rw [hlen, hrdy, haccepted, List.take_left]
    exact ⟨hanswered, by simp⟩

/-! ### Back to idle -/

/-- The divider on its own from `s` on. -/
def run (lz : LeadingZeros) (is : Nat → DivIn idWidth) (s : DivState idWidth) :
    Nat → DivState idWidth
  | 0 => s
  | n + 1 => (run lz is s n).next (is n) lz

variable {is : Nat → DivIn idWidth} {s : DivState idWidth}

theorem waits {n m : Nat} (hn : (run lz is s n).outVld = true) (hle : n ≤ m) :
    (∃ k ≤ m, (run lz is s k).state = .idle) ∨ (run lz is s m).outVld = true := by
  induction m, hle using Nat.le_induction with
  | base => exact .inr hn
  | succ m hle ih =>
    rcases ih with ⟨k, hk, hidle⟩ | hvld
    · exact .inl ⟨k, Nat.le_succ_of_le hk, hidle⟩
    · rw [run, DivState.next_wait hvld]
      cases hready : (is m).outRdy
      · exact .inr (by simp [DivState.outVld])
      · exact .inl ⟨m + 1, Nat.le_refl _, by rw [run, DivState.next_wait hvld, hready]; rfl⟩

theorem turns (hstate : s.state = .divide) (hzero : s.divResZero = false) {n : Nat}
    (hn : n ≤ s.cnt.toNat) :
    (run lz is s n).state = .divide ∧ (run lz is s n).divResZero = false ∧
      (run lz is s n).cnt.toNat = s.cnt.toNat - n := by
  induction n with
  | zero => exact ⟨hstate, hzero, rfl⟩
  | succ n ih =>
    obtain ⟨hdivide, hnonzero, hcnt⟩ := ih (Nat.le_of_succ_le hn)
    have hne : (run lz is s n).cnt ≠ 0 := fun h0 => by
      rw [h0] at hcnt
      have : (0 : BitVec 6).toNat = 0 := rfl
      omega
    have hlt := (run lz is s n).cnt.isLt
    rw [run, DivState.next_turn hdivide hnonzero, if_neg hne, if_neg hne]
    refine ⟨rfl, hnonzero, ?_⟩
    show ((run lz is s n).cnt - 1).toNat = _
    rw [BitVec.toNat_sub, show (1 : BitVec 6).toNat = 1 from rfl]
    omega

/-- A request is ready to be answered after 33 turns at most. -/
theorem ready {q : DivRequest idWidth} (h : q.Held s) (is : Nat → DivIn idWidth) :
    ∃ n ≤ 33, (run lz is s n).outVld = true := by
  obtain ⟨-, hphase⟩ := h
  cases hstate : s.state with
  | idle => exact absurd hphase (by rw [hstate]; exact not_false)
  | finish => exact ⟨0, by decide, by simp [run, DivState.outVld, hstate]⟩
  | divide =>
    cases hzero : s.divResZero
    · simp only [hstate, hzero, Bool.false_eq_true, if_false] at hphase
      obtain ⟨hdivide, hnonzero, hcnt⟩ := turns (s := s) hstate hzero (Nat.le_refl s.cnt.toNat)
      have hlast : (run lz is s s.cnt.toNat).cnt = 0 := by
        apply BitVec.eq_of_toNat_eq
        rw [hcnt, Nat.sub_self]
        rfl
      have hle := hphase.2.cnt_le
      refine ⟨s.cnt.toNat + 1, by omega, ?_⟩
      rw [run, DivState.next_turn hdivide hnonzero, if_pos hlast]
      rfl
    · exact ⟨0, by decide, by simp [run, DivState.outVld, hstate, hzero]⟩

theorem Reachable.returns (h : t.Reachable lz) (is : Nat → DivIn idWidth) :
    ∃ n ≤ 33, ∀ m ≥ n, (is m).outRdy = true →
      ∃ k ≤ m + 1, (run lz is t.divider k).state = .idle := by
  rcases h.inv with ⟨hidle, -⟩ | ⟨qs, q, -, -, hheld⟩
  · exact ⟨0, by decide, fun m _ _ => ⟨0, Nat.zero_le _, hidle⟩⟩
  · obtain ⟨n, hn, hvld⟩ := ready hheld is
    refine ⟨n, hn, fun m hm hready => ?_⟩
    rcases waits hvld hm with ⟨k, hk, hidle⟩ | hout
    · exact ⟨k, Nat.le_succ_of_le hk, hidle⟩
    · refine ⟨m + 1, Nat.le_refl _, ?_⟩
      rw [run, DivState.next_wait hout, hready]
      rfl

/-! ### The answers -/

/-- Each request is answered once, in order, under its id and with what the M extension
asks for, and the divider goes back to idle when the answer is taken. -/
structure Served (lz : LeadingZeros) (t : DivTrace idWidth) : Prop where
  answers : t.answered = (t.accepted.take t.answered.length).map fun q => (q.id, q.result)
  pending : t.accepted.length = t.answered.length + (if t.divider.inRdy then 0 else 1)
  returns : ∀ is : Nat → DivIn idWidth, ∃ n ≤ 33, ∀ m ≥ n, (is m).outRdy = true →
    ∃ k ≤ m + 1, (run lz is t.divider k).state = .idle

theorem answer_eq_result_iff (q : DivRequest idWidth) : q.answer = q.result ↔ ¬ q.Short := by
  refine ⟨fun h hshort => ?_, DivRequest.answer_of_not_short⟩
  obtain ⟨hsigned, hA, hB⟩ := id hshort
  rw [DivRequest.answer, if_pos hshort, DivRequest.result, hA, hB] at h
  cases hop : q.op <;> rw [hop] at h hsigned
  · exact absurd h (by decide)
  · exact Bool.noConfusion hsigned
  · exact absurd h (by decide)
  · exact Bool.noConfusion hsigned

theorem Reachable.answers_iff (h : t.Reachable lz) :
    (t.answered = (t.accepted.take t.answered.length).map fun q => (q.id, q.result)) ↔
      ∀ q ∈ t.accepted.take t.answered.length, ¬ q.Short := by
  obtain ⟨hanswered, -⟩ := h.answered_eq
  rw [DivTrace.answers] at hanswered
  have hswap : (t.answered = (t.accepted.take t.answered.length).map fun q => (q.id, q.result)) ↔
      (t.accepted.take t.answered.length).map (fun q => (q.id, q.answer)) =
        (t.accepted.take t.answered.length).map fun q => (q.id, q.result) := by
    rw [← hanswered]
  rw [hswap, List.map_inj_left]
  refine forall₂_congr fun q _ => ?_
  rw [Prod.mk.injEq, ← answer_eq_result_iff]
  exact and_iff_right rfl

/-- The divider serves a run just when no minus one is divided by one in it. -/
theorem served_iff (h : t.Reachable lz) :
    t.Served lz ↔ ∀ q ∈ t.accepted.take t.answered.length, ¬ q.Short :=
  ⟨fun hserved => h.answers_iff.mp hserved.answers,
    fun hshort => ⟨h.answers_iff.mpr hshort, h.answered_eq.2, h.returns⟩⟩

/-! ### Minus one by one -/

/-- Leading zeros by the binary logarithm. -/
def clz : LeadingZeros where
  cnt x := BitVec.ofNat 5 (31 - x.toNat.log2)
  cnt_lead x hx := by
    have hne : x.toNat ≠ 0 := fun h0 => hx (BitVec.eq_of_toNat_eq h0)
    have hlog : x.toNat.log2 < 32 := (Nat.log2_lt hne).mpr x.isLt
    rw [BitVec.toNat_ofNat, Nat.mod_eq_of_lt (by omega : 31 - x.toNat.log2 < 2 ^ 5),
      show 31 - (31 - x.toNat.log2) = x.toNat.log2 by omega,
      show 32 - (31 - x.toNat.log2) = x.toNat.log2 + 1 by omega]
    exact ⟨Nat.log2_self_le hne, Nat.lt_log2_self⟩

/-- `div x5, x6, x7` for the core with the id 1. -/
def divOf (a b : Word) : DivIn 4 where
  id := 1
  operator := 0x027342b3
  opA := a
  opB := b
  inVld := true
  outRdy := true

/-- The divider while one division is asked for over and over. -/
def repeated (i : DivIn 4) : Nat → DivTrace 4
  | 0 => initial
  | n + 1 => (repeated i n).next i clz

theorem reachable_repeated {i : DivIn 4} (hop : (divOp i.operator).isSome = true) :
    ∀ n, (repeated i n).Reachable clz
  | 0 => .initial
  | n + 1 => .next (reachable_repeated hop n) i fun _ => hop

theorem served_sevenByTwo :
    (repeated (divOf 7 2) 4).answered = [(1, 3)] ∧ (repeated (divOf 7 2) 4).Served clz :=
  ⟨by decide, (served_iff (reachable_repeated (by decide) 4)).mpr (by decide)⟩

theorem minusOne_by_one_unserved :
    (repeated (divOf (-1) 1) 2).Reachable clz ∧
      (repeated (divOf (-1) 1) 2).answered = [(1, 0)] ∧
      ¬ (repeated (divOf (-1) 1) 2).Served clz := by
  refine ⟨reachable_repeated (by decide) 2, by decide, fun hserved => ?_⟩
  exact absurd hserved.answers (by decide)

end DivTrace

end TeraNoC.Snitch
