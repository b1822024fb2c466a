import TeraNoC.Hw.BankInterco

/-!
# One placement behind the narrow select and the wide rotation

`narrowSel` and `reqRot` are written separately in the source. Here both are
reduced to `bankRemap`, the placement they share: the high bank-id bits stay,
the low ones move by the row. A narrow request for bank field `bank` of row
`row` goes to `bankRemap row bank`; word `j` of a wide request goes to the
port that carries it after the rotation, and that port is `bankRemap row` of
the bank field `j` words further on.
-/

namespace TeraNoC.Hw

open TeraNoC.Lib

/-- An instance whose superbanks have at least two banks: the `$fatal` of the
module, and power-of-two counts. -/
structure IntercoConfig extends IntercoParams where
  banks_pow : numBanksPerTile = 2 ^ clog2 numBanksPerTile
  superbanks_pow : numSuperbanks = 2 ^ clog2 numSuperbanks
  banksPerSB_two : 2 ≤ toIntercoParams.numBanksPerSB

namespace IntercoConfig

variable (q : IntercoConfig)

/-- Bits of a bank index within its superbank. -/
def loBits : Nat := q.bankIdLoBits
/-- Bits of a superbank index. -/
def hiBits : Nat := clog2 q.numSuperbanks

theorem numSuperbanks_eq : q.numSuperbanks = 2 ^ q.hiBits := q.superbanks_pow

theorem hiBits_le : q.hiBits ≤ clog2 q.numBanksPerTile := by
  have h := q.banksPerSB_two
  rw [IntercoParams.numBanksPerSB, Nat.le_div_iff_mul_le
    (by rw [q.numSuperbanks_eq]; exact Nat.two_pow_pos _), q.numSuperbanks_eq,
    q.banks_pow] at h
  have hle : 2 ^ q.hiBits ≤ 2 ^ clog2 q.numBanksPerTile := by omega
  exact (Nat.pow_le_pow_iff_right (by omega)).mp hle

theorem numBanksPerSB_eq : q.numBanksPerSB = 2 ^ q.loBits := by
  have h : q.numBanksPerSB = 2 ^ (clog2 q.numBanksPerTile - q.hiBits) := by
    rw [IntercoParams.numBanksPerSB, q.numSuperbanks_eq, q.banks_pow, clog2_pow,
      Nat.pow_div q.hiBits_le (by omega)]
  rw [loBits, IntercoParams.bankIdLoBits, h, clog2_pow]

theorem numBanksPerTile_eq : q.numBanksPerTile = 2 ^ (q.loBits + q.hiBits) := by
  have h : q.numBanksPerTile = q.numBanksPerSB * q.numSuperbanks := by
    rw [IntercoParams.numBanksPerSB, q.numSuperbanks_eq]
    refine (Nat.div_mul_cancel ?_).symm
    rw [q.banks_pow]
    exact Nat.pow_dvd_pow 2 q.hiBits_le
  rw [h, q.numBanksPerSB_eq, q.numSuperbanks_eq, Nat.pow_add]

theorem bankOffsetBits_eq : q.bankOffsetBits = q.loBits + q.hiBits := by
  rw [IntercoParams.bankOffsetBits, q.numBanksPerTile_eq, clog2_pow]

/-! ## The placement -/

/-- How far row `row` moves the low bank-id bits. -/
def rowOffset (row : Nat) : Nat :=
  if q.spmBankIdRemap then row % 2 ^ q.loBits else 0

/-- The bank that holds bank field `bank` of row `row`. -/
def bankRemap (row bank : Nat) : Nat :=
  concat (slice bank q.loBits q.hiBits)
    ((slice bank 0 q.loBits + q.rowOffset row) % 2 ^ q.loBits) q.loBits

theorem bankRemap_lt (row bank : Nat) :
    q.bankRemap row bank < 2 ^ (q.loBits + q.hiBits) :=
  concat_lt (Nat.mod_lt _ (Nat.two_pow_pos _)) (slice_lt _ _ _)

theorem bankRemap_inj {row bank bank' : Nat}
    (hb : bank < 2 ^ (q.loBits + q.hiBits)) (hb' : bank' < 2 ^ (q.loBits + q.hiBits))
    (h : q.bankRemap row bank = q.bankRemap row bank') : bank = bank' := by
  obtain ⟨hhi, hlo⟩ := concat_inj (Nat.mod_lt _ (Nat.two_pow_pos _))
    (Nat.mod_lt _ (Nat.two_pow_pos _)) h
  exact eq_of_slices hb hb' (add_mod_inj (slice_lt _ _ _) (slice_lt _ _ _) hlo) hhi

/-! ## The two decoders -/

section Decoders

variable {q} {row bank : Nat}

theorem slice_row (hb : bank < 2 ^ (q.loBits + q.hiBits)) (w : Nat) :
    slice (concat row bank (q.loBits + q.hiBits)) q.bankOffsetBits w
      = row % 2 ^ w := by
  rw [q.bankOffsetBits_eq, slice_concat_hi hb (Nat.le_refl _), Nat.sub_self, slice,
    Nat.pow_zero, Nat.div_one]

theorem narrowSel_concat (hb : bank < 2 ^ (q.loBits + q.hiBits)) :
    q.narrowSel (concat row bank (q.loBits + q.hiBits)) = q.bankRemap row bank := by
  have hlo : slice (concat row bank (q.loBits + q.hiBits)) 0 q.loBits
      = slice bank 0 q.loBits := slice_concat_lo hb (by omega)
  have hhi : slice (concat row bank (q.loBits + q.hiBits)) q.loBits q.hiBits
      = slice bank q.loBits q.hiBits := slice_concat_lo hb (Nat.le_refl _)
  have hnew : (if q.spmBankIdRemap then
        (slice bank 0 q.loBits + row % 2 ^ q.loBits) % 2 ^ q.loBits
      else slice bank 0 q.loBits)
      = (slice bank 0 q.loBits + q.rowOffset row) % 2 ^ q.loBits := by
    rw [rowOffset]
    split
    · rfl
    · rw [Nat.add_zero, Nat.mod_eq_of_lt (slice_lt _ _ _)]
  simp only [IntercoParams.narrowSel, IntercoParams.bankRemapShiftAmt]
  rw [show q.bankIdLoBits = q.loBits from rfl, slice_row hb, hlo, hnew,
    q.bankOffsetBits_eq, Nat.add_sub_cancel_left, hhi, bankRemap]
  split
  · rfl
  · -- a single superbank: there are no high bits to keep
    rename_i h1
    have h0 : q.hiBits = 0 := by
      rw [q.numSuperbanks_eq] at h1
      by_contra h
      exact h1 (Nat.one_lt_two_pow h)
    rw [h0, slice_zero_width, concat, Nat.mul_zero, Nat.zero_add]

theorem reqRot_concat (hb : bank < 2 ^ (q.loBits + q.hiBits)) :
    q.reqRot (concat row bank (q.loBits + q.hiBits))
      = (slice bank 0 q.loBits + q.rowOffset row) % 2 ^ q.loBits := by
  have htwo : 1 < q.numBanksPerSB := q.banksPerSB_two
  have hlo : slice (concat row bank (q.loBits + q.hiBits)) 0 q.loBits
      = slice bank 0 q.loBits := slice_concat_lo hb (by omega)
  have hrot : q.rotBits = q.loBits := by
    rw [IntercoParams.rotBits, if_pos htwo]
    rfl
  simp only [IntercoParams.reqRot, IntercoParams.bankRemapShiftAmt]
  rw [if_pos htwo, show q.bankIdLoBits = q.loBits from rfl, slice_row hb, hlo, hrot,
    rowOffset]
  split
  · rw [Nat.mod_mod]
  · rw [Nat.add_zero]

theorem wideSel_concat (hb : bank < 2 ^ (q.loBits + q.hiBits)) :
    q.wideSel (concat row bank (q.loBits + q.hiBits)) = slice bank q.loBits q.hiBits := by
  rw [IntercoParams.wideSel]
  split
  · rename_i h1
    rw [IntercoParams.sbSelBits, if_pos h1]
    exact slice_concat_lo hb (Nat.le_refl _)
  · rename_i h1
    have h0 : q.hiBits = 0 := by
      rw [q.numSuperbanks_eq] at h1
      by_contra h
      exact h1 (Nat.one_lt_two_pow h)
    rw [h0, slice_zero_width]

/-- The port that carries word `j` after a rotation by `rot`. -/
theorem wideWord_eq_iff {rot b j : Nat} (hrot : rot < q.numBanksPerSB)
    (hb : b < q.numBanksPerSB) (hj : j < q.numBanksPerSB) :
    q.wideWord rot b = j ↔ b = (j + rot) % q.numBanksPerSB := by
  rw [IntercoParams.wideWord]
  generalize q.numBanksPerSB = n at *
  have hw : (b + n - rot) % n = if rot ≤ b then b - rot else b + n - rot := by
    split
    · rename_i h
      rw [show b + n - rot = b - rot + n by omega, Nat.add_mod_right,
        Nat.mod_eq_of_lt (by omega)]
    · exact Nat.mod_eq_of_lt (by omega)
  have hp : (j + rot) % n = if j + rot < n then j + rot else j + rot - n := by
    split
    · exact Nat.mod_eq_of_lt (by assumption)
    · rw [Nat.mod_eq_sub_mod (by omega), Nat.mod_eq_of_lt (by omega)]
  rw [hw, hp]
  split <;> split <;> omega

theorem wideBank_eq (tgtAddr : Nat) {j : Nat} (hrot : q.reqRot tgtAddr < q.numBanksPerSB)
    (hj : j < q.numBanksPerSB) :
    q.wideBank tgtAddr j =
      q.globalBank (q.wideSel tgtAddr) ((j + q.reqRot tgtAddr) % q.numBanksPerSB) := by
  have hlt : (j + q.reqRot tgtAddr) % q.numBanksPerSB < q.numBanksPerSB :=
    Nat.mod_lt _ (by omega)
  have hfind : (List.range q.numBanksPerSB).find?
      (fun b => q.wideWord (q.reqRot tgtAddr) b == j)
        = some ((j + q.reqRot tgtAddr) % q.numBanksPerSB) := by
    rw [List.find?_range_eq_some]
    refine ⟨beq_iff_eq.mpr ((wideWord_eq_iff hrot hlt hj).mpr rfl),
      List.mem_range.mpr hlt, fun b hb => ?_⟩
    rw [Bool.not_eq_true', beq_eq_false_iff_ne]
    intro h
    have := (wideWord_eq_iff hrot (by omega) hj).mp h
    omega
  rw [IntercoParams.wideBank, hfind, Option.getD_some]

/-- Word `j` of a superbank-aligned wide request goes where a narrow request for
that word goes. -/
theorem wideBank_concat {hi j : Nat} (hhi : hi < 2 ^ q.hiBits) (hj : j < 2 ^ q.loBits) :
    q.wideBank (concat row (concat hi 0 q.loBits) (q.loBits + q.hiBits)) j
      = q.bankRemap row (concat hi j q.loBits) := by
  have hb : concat hi 0 q.loBits < 2 ^ (q.loBits + q.hiBits) :=
    concat_lt (Nat.two_pow_pos _) hhi
  have hlo : slice (concat hi 0 q.loBits) 0 q.loBits = 0 := by
    rw [slice_concat_lo (Nat.two_pow_pos _) (by omega), slice_eq_self (Nat.two_pow_pos _)]
  have hrot : q.reqRot (concat row (concat hi 0 q.loBits) (q.loBits + q.hiBits))
      = q.rowOffset row % 2 ^ q.loBits := by
    rw [reqRot_concat hb, hlo, Nat.zero_add]
  have hsel : ∀ x, x < 2 ^ q.loBits →
      slice (concat hi x q.loBits) q.loBits q.hiBits = hi := by
    intro x hx
    rw [slice_concat_hi hx (Nat.le_refl _), Nat.sub_self, slice_eq_self hhi]
  rw [wideBank_eq _ (by
      rw [hrot, q.numBanksPerSB_eq]
      exact Nat.mod_lt _ (Nat.two_pow_pos _)) (by rw [q.numBanksPerSB_eq]; exact hj),
    wideSel_concat hb, hsel _ (Nat.two_pow_pos _), hrot, bankRemap, hsel _ hj,
    slice_concat_lo hj (by omega), slice_eq_self hj, IntercoParams.globalBank,
    q.numBanksPerSB_eq, Nat.add_mod_mod, concat, Nat.mul_comm hi]

end Decoders

end IntercoConfig

/-- The instance of a tile. -/
def L1Config.interco (c : L1Config) : IntercoConfig where
  toIntercoParams := c.bankInterco
  banks_pow := by
    show c.numBanksPerTile = 2 ^ clog2 c.numBanksPerTile
    rw [c.numBanksPerTile_eq, clog2_pow]
  superbanks_pow := by
    show c.numSuperbanks = 2 ^ clog2 c.numSuperbanks
    rw [c.numSuperbanks_eq, clog2_pow]
  banksPerSB_two := by
    show 2 ≤ c.numBanksPerTile / c.numSuperbanks
    rw [c.numBanksPerTile_eq, c.numSuperbanks_eq, Nat.pow_div (Nat.sub_le _ _) (by omega),
      Nat.sub_sub_self c.wBits_le, ← c.dmaNumWords_eq]
    exact c.words_two

theorem L1Config.interco_hiBits (c : L1Config) : c.interco.hiBits = c.bBits - c.wBits := by
  show clog2 c.numSuperbanks = _
  rw [c.numSuperbanks_eq, clog2_pow]

theorem L1Config.interco_loBits (c : L1Config) : c.interco.loBits = c.wBits := by
  show clog2 (c.numBanksPerTile / c.numSuperbanks) = _
  rw [c.numBanksPerTile_eq, c.numSuperbanks_eq, Nat.pow_div (Nat.sub_le _ _) (by omega),
    Nat.sub_sub_self c.wBits_le, clog2_pow]

theorem L1Config.interco_bits (c : L1Config) :
    c.interco.loBits + c.interco.hiBits = c.bBits := by
  rw [c.interco_hiBits, c.interco_loBits, Nat.add_sub_cancel' c.wBits_le]

end TeraNoC.Hw
