import TeraNoC.Spike.Memory

/-!
# Bytes on the data port

The load/store unit talks to the memory in words: a load asks for the word its address
lies in and shifts the bytes it wants down, a store turns its bytes into their lanes and
enables these. For an aligned access this is the access of the bytes themselves, the
way the instruction set simulator has it. Every address is a word address and a lane
(`lane_cases`), and bytes of words are compared bit by bit.
-/

namespace TeraNoC.Snitch

open TeraNoC.Hw TeraNoC.Spike LsuState

/-! ## Alignment -/

theorem and_ne_zero_iff (a : Word) {n : Nat} (hn : n ≤ 32) :
    (a &&& BitVec.ofNat 32 (2 ^ n - 1) != 0) = true ↔ a.toNat % 2 ^ n ≠ 0 := by
  have hpow : 2 ^ n ≤ 2 ^ 32 := Nat.pow_le_pow_right (by omega) hn
  have hpos : 1 ≤ 2 ^ n := Nat.one_le_two_pow
  have hlt : 2 ^ n - 1 < 2 ^ 32 := by omega
  have hmod : (a &&& BitVec.ofNat 32 (2 ^ n - 1)).toNat = a.toNat % 2 ^ n := by
    rw [BitVec.toNat_and, BitVec.toNat_ofNat, Nat.mod_eq_of_lt hlt,
      Nat.and_two_pow_sub_one_eq_mod]
  rw [bne_iff_ne, ne_eq, ne_eq, not_iff_not, ← hmod]
  constructor
  · intro h
    rw [h]
    rfl
  · intro h
    exact BitVec.eq_of_toNat_eq h

theorem extract_ne_zero_iff (a : Word) (n : Nat) :
    (a.extractLsb' 0 n != 0) = true ↔ a.toNat % 2 ^ n ≠ 0 := by
  have hmod : (a.extractLsb' 0 n).toNat = a.toNat % 2 ^ n := by simp
  rw [bne_iff_ne, ne_eq, ne_eq, not_iff_not, ← hmod]
  constructor
  · intro h
    rw [h]
    exact BitVec.toNat_zero
  · intro h
    exact BitVec.eq_of_toNat_eq (h.trans BitVec.toNat_zero.symm)

theorem misaligned_iff (size : LsSize) (a : Word) :
    misaligned size a = true ↔ a.toNat % numBytes size ≠ 0 := by
  cases size with
  | byte => exact and_ne_zero_iff a (n := 0) (by omega)
  | halfWord => exact and_ne_zero_iff a (n := 1) (by omega)
  | word => exact and_ne_zero_iff a (n := 2) (by omega)
  | double => exact and_ne_zero_iff a (n := 3) (by omega)

theorem aligned_iff (size : LsSize) (a : Word) :
    misaligned size a = false ↔ a.toNat % numBytes size = 0 := by
  rw [← Bool.not_eq_true, misaligned_iff, not_not]

/-- The check of the core is the one of the simulator, on the output of its ALU. -/
theorem CoreState.lsMisaligned_eq {cfg : CoreConfig} {k : LsuCells cfg} (s : CoreState k)
    (i : CoreIn cfg) :
    s.lsMisaligned i = misaligned (decode cfg i.instData).lsSize (s.aluResult i) := by
  rw [Bool.eq_iff_iff, misaligned_iff, CoreState.lsMisaligned]
  cases (decode cfg i.instData).lsSize with
  | byte => simp [numBytes, Nat.mod_one]
  | halfWord => exact extract_ne_zero_iff _ 1
  | word => exact extract_ne_zero_iff _ 2
  | double => exact extract_ne_zero_iff _ 3

/-! ## Words and lanes -/

theorem toNat_wordAddr (a : Word) : (wordAddr a).toNat = 4 * (a.toNat / 4) := by
  change (a.extractLsb' 2 30 ++ (0 : BitVec 2) : BitVec (30 + 2)).toNat = _
  have h := a.isLt
  rw [BitVec.toNat_append]
  simp [Nat.shiftLeft_eq, Nat.shiftRight_eq_div_pow]
  omega

theorem toNat_lane (a : Word) : (a.extractLsb' 0 2).toNat = a.toNat % 4 := by
  simp

/-- Every address is a lane of a word. -/
theorem lane_cases (a : Word) : ∃ q < 4, (a.extractLsb' 0 2).toNat = q ∧
    a = wordAddr a + BitVec.ofNat 32 q := by
  refine ⟨_, (a.extractLsb' 0 2).isLt, rfl, ?_⟩
  apply BitVec.eq_of_toNat_eq
  have h := a.isLt
  rw [BitVec.toNat_add, toNat_wordAddr, BitVec.toNat_ofNat, toNat_lane]
  omega

/-- Byte `q` of a word is the byte at its address. -/
theorem getLsbD_readWord (m : Mem) (w : Word) {q j : Nat} (hq : q < 4) (hj : j < 8) :
    (readWord m w).getLsbD (8 * q + j) = (m (w + BitVec.ofNat 32 q)).getLsbD j := by
  change (m (w + 3) ++ m (w + 2) ++ m (w + 1) ++ m w : BitVec (8 + 8 + 8 + 8)).getLsbD _ = _
  rw [BitVec.getLsbD_append, BitVec.getLsbD_append, BitVec.getLsbD_append]
  have hcases : q = 0 ∨ q = 1 ∨ q = 2 ∨ q = 3 := by omega
  rcases hcases with rfl | rfl | rfl | rfl
  · simp [hj]
  · simp [hj, show ¬ 8 + j < 8 by omega]
  · rw [if_neg (by omega), if_neg (by omega), if_pos (by omega)]
    congr 1
    omega
  · rw [if_neg (by omega), if_neg (by omega), if_neg (by omega)]
    congr 1
    omega

/-! ## Loads -/

theorem shifted_byte (m : Mem) (a : Word) :
    (readWord m (wordAddr a) >>> (8 * (a.extractLsb' 0 2).toNat)).extractLsb' 0 8 = m a := by
  obtain ⟨q, hq, hoff, ha⟩ := lane_cases a
  rw [hoff]
  ext j hj
  rw [BitVec.getElem_extractLsb', BitVec.getLsbD_ushiftRight, Nat.zero_add,
    getLsbD_readWord m _ hq hj, ← ha, BitVec.getLsbD_eq_getElem hj]

theorem shifted_half (m : Mem) (a : Word) (halign : misaligned .halfWord a = false) :
    (readWord m (wordAddr a) >>> (8 * (a.extractLsb' 0 2).toNat)).extractLsb' 0 16 =
      m (a + 1) ++ m a := by
  obtain ⟨q, hq, hoff, ha⟩ := lane_cases a
  have heven : q % 2 = 0 := by
    have := (aligned_iff _ _).mp halign
    rw [numBytes] at this
    rw [toNat_lane] at hoff
    omega
  have hnext : a + 1 = wordAddr a + BitVec.ofNat 32 (q + 1) := by
    nth_rewrite 1 [ha]
    rw [BitVec.ofNat_add, BitVec.add_assoc]
    rfl
  rw [hoff]
  ext j hj
  rw [BitVec.getElem_extractLsb', BitVec.getLsbD_ushiftRight, Nat.zero_add,
    BitVec.getElem_append]
  split
  · next hlow => rw [getLsbD_readWord m _ hq hlow, ← ha, BitVec.getLsbD_eq_getElem hlow]
  · next hlow =>
      rw [show 8 * q + j = 8 * (q + 1) + (j - 8) by omega,
        getLsbD_readWord m _ (by omega) (by omega), ← hnext,
        BitVec.getLsbD_eq_getElem (by omega)]

theorem shifted_word (m : Mem) (a : Word) (halign : misaligned .word a = false) :
    readWord m (wordAddr a) >>> (8 * (a.extractLsb' 0 2).toNat) = readWord m a := by
  obtain ⟨q, hq, hoff, ha⟩ := lane_cases a
  have hzero : q = 0 := by
    have := (aligned_iff _ _).mp halign
    rw [numBytes] at this
    rw [toNat_lane] at hoff
    omega
  rw [hzero, BitVec.add_zero] at ha
  rw [hoff, hzero, ← ha]
  exact BitVec.ushiftRight_zero _

/-- What the unit cuts out of the word is the value at the address. -/
theorem loadResult_eq {cfg : CoreConfig} (md : Metadata cfg) (m : Mem) (a : Word)
    (hoff : md.offset = a.extractLsb' 0 2) (hsize : md.size ≠ .double)
    (halign : misaligned md.size a = false) :
    loadResult md (readWord m (wordAddr a)) = loaded md.size md.signExt m a := by
  rw [loadResult, hoff]
  cases hs : md.size with
  | byte => simp only [shifted_byte, loaded]
  | halfWord => simp only [shifted_half m a (hs ▸ halign), loaded]
  | word => simp only [shifted_word m a (hs ▸ halign), loaded]
  | double => exact absurd hs hsize

/-! ## Stores -/

/-- A memory after a write of the enabled lanes of a word. -/
def lanesWritten (m : Mem) (w : Word) (strb : BitVec 4) (data : Word) : Mem := fun b =>
  if wordAddr b = w ∧ strb.getLsbD (b.extractLsb' 0 2).toNat = true then
    data.extractLsb' (8 * (b.extractLsb' 0 2).toNat) 8
  else m b

/-- Lane `q` of the turned word is the byte that many lanes above that of the address. -/
theorem getLsbD_alignedData (a v : Word) {p q j : Nat} (ha : (a.extractLsb' 0 2).toNat = p)
    (hpq : p ≤ q) (hq : q < 4) (hj : j < 8) :
    (alignedData a v).getLsbD (8 * q + j) = v.getLsbD (8 * (q - p) + j) := by
  have hlane : a.extractLsb' 0 2 = BitVec.ofNat 2 p := by
    rw [← ha, BitVec.ofNat_toNat, BitVec.setWidth_eq]
  have hcases : p = 0 ∨ p = 1 ∨ p = 2 ∨ p = 3 := by omega
  rw [alignedData, hlane]
  rcases hcases with rfl | rfl | rfl | rfl
  · rfl
  · change (v.extractLsb' 0 24 ++ v.extractLsb' 24 8 : BitVec (24 + 8)).getLsbD _ = _
    rw [BitVec.getLsbD_append, if_neg (by omega), BitVec.getLsbD_extractLsb',
      decide_eq_true (by omega), Bool.true_and]
    congr 1
    omega
  · change (v.extractLsb' 0 16 ++ v.extractLsb' 16 16 : BitVec (16 + 16)).getLsbD _ = _
    rw [BitVec.getLsbD_append, if_neg (by omega), BitVec.getLsbD_extractLsb',
      decide_eq_true (by omega), Bool.true_and]
    congr 1
    omega
  · change (v.extractLsb' 0 8 ++ v.extractLsb' 8 24 : BitVec (8 + 24)).getLsbD _ = _
    rw [BitVec.getLsbD_append, if_neg (by omega), BitVec.getLsbD_extractLsb',
      decide_eq_true (by omega), Bool.true_and]
    congr 1
    omega

/-- The enabled lanes. -/
theorem getLsbD_byteStrobe (size : LsSize) (a : Word) {q : Nat} (hsize : size ≠ .double)
    (halign : misaligned size a = false) (hq : q < 4) :
    (byteStrobe size a).getLsbD q = true ↔ a.toNat % 4 ≤ q ∧ q < a.toNat % 4 + numBytes size := by
  have hp : a.toNat % 4 < 4 := Nat.mod_lt _ (by omega)
  have hmod := (aligned_iff _ _).mp halign
  cases size with
  | byte =>
      rw [byteStrobe, toNat_lane]
      generalize a.toNat % 4 = p at hp ⊢
      have hall : ∀ p < 4, ∀ q < 4, ((1 : BitVec 4) <<< p).getLsbD q = true ↔
        p ≤ q ∧ q < p + 1 := by decide
      exact hall p hp q hq
  | halfWord =>
      rw [byteStrobe, toNat_lane]
      generalize a.toNat % 4 = p at hp ⊢
      have hall : ∀ p < 4, ∀ q < 4, ((3 : BitVec 4) <<< p).getLsbD q = true ↔
        p ≤ q ∧ q < p + 2 := by decide
      exact hall p hp q hq
  | word =>
      have hall : ∀ q < 4, (15 : BitVec 4).getLsbD q = true := by decide
      rw [numBytes] at hmod ⊢
      simp only [byteStrobe, hall q hq, true_iff]
      omega
  | double => exact absurd rfl hsize

/-- An aligned access stays in its word, and enables the lanes of its bytes. -/
theorem enabled_iff (size : LsSize) (a b : Word) (hsize : size ≠ .double)
    (halign : misaligned size a = false) :
    (wordAddr b = wordAddr a ∧
        (byteStrobe size a).getLsbD (b.extractLsb' 0 2).toNat = true) ↔
      (b - a).toNat < numBytes size := by
  have hmod := (aligned_iff _ _).mp halign
  have hword : wordAddr b = wordAddr a ↔ b.toNat / 4 = a.toNat / 4 := by
    rw [← BitVec.toNat_inj, toNat_wordAddr, toNat_wordAddr]
    omega
  rw [toNat_lane, getLsbD_byteStrobe size a hsize halign (Nat.mod_lt _ (by omega)), hword,
    BitVec.toNat_sub]
  have ha := a.isLt
  have hb := b.isLt
  cases size with
  | byte => simp only [numBytes] at hmod ⊢; omega
  | halfWord => simp only [numBytes] at hmod ⊢; omega
  | word => simp only [numBytes] at hmod ⊢; omega
  | double => exact absurd rfl hsize

/-- What the memory does with the turned word is the store of the simulator. -/
theorem lanesWritten_eq (size : LsSize) (m : Mem) (a v : Word) (hsize : size ≠ .double)
    (halign : misaligned size a = false) :
    lanesWritten m (wordAddr a) (byteStrobe size a) (alignedData a v) = stored size m a v := by
  funext b
  rw [lanesWritten, stored]
  by_cases hin : (b - a).toNat < numBytes size
  · have hen := (enabled_iff size a b hsize halign).mpr hin
    rw [if_pos hin, if_pos hen]
    have hq : (b.extractLsb' 0 2).toNat < 4 := (b.extractLsb' 0 2).isLt
    obtain ⟨hword, hstrobe⟩ := hen
    have hle := ((getLsbD_byteStrobe size a hsize halign hq).mp hstrobe).1
    rw [← toNat_lane] at hle
    have hdiff : (b - a).toNat = (b.extractLsb' 0 2).toNat - (a.extractLsb' 0 2).toNat := by
      have hsame := congrArg BitVec.toNat hword
      rw [toNat_wordAddr, toNat_wordAddr] at hsame
      rw [toNat_lane, toNat_lane] at hle ⊢
      rw [BitVec.toNat_sub]
      have ha := a.isLt
      have hb := b.isLt
      omega
    ext j hj
    rw [BitVec.getElem_extractLsb', BitVec.getElem_extractLsb',
      getLsbD_alignedData a v rfl hle hq hj, hdiff]
  · rw [if_neg hin, if_neg (mt (enabled_iff size a b hsize halign).mp hin)]

end TeraNoC.Snitch
