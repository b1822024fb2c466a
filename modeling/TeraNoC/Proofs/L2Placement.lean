import TeraNoC.Hw.L2
import Mathlib.Data.Finset.Card
import Mathlib.Order.Interval.Finset.Nat

/-!
# Four spellings of one permutation

An L2 address is, from the bottom, a byte of a chunk, a bank and a chunk of
that bank. The interleaver exchanges the two upper fields, so that the bank
becomes the top of the address and routing by position finds it; the row of an
SRAM bank and the address of a DRAM controller are what remains below. The
package functions compute bank and remainder from the plain address.

Every one of the four is a concatenation of the same three fields, so each gets
one lemma that says which, and agreement is reading the lemmas side by side.
Two things in the source are not written in terms of the fields. The window of
the interleaver ends at the literal `32'h90000000`, so an address past 256 MiB
is not permuted although `L2MemoryEndAddr` and the package functions count it
in; and the row is cut at `$clog2(L2BankBeWidth-1)`, which is the byte offset of
a bank word except for words of two bytes. The main theorem says that there is
nothing else.
-/

namespace TeraNoC.Hw

open TeraNoC.Lib

namespace L2Config

variable (c : L2Config)

/-! ## The three fields -/

/-- The byte and beat of a chunk. -/
def chunkByte (x : Nat) : Nat := slice x 0 (c.eBits + c.iBits)
/-- The bank of a chunk. -/
def bankField (x : Nat) : Nat := slice x (c.eBits + c.iBits) c.kBits
/-- The chunk within the bank. -/
def chunkField (x : Nat) : Nat := slice x (c.eBits + c.iBits + c.kBits) c.qBits

/-- The byte of a bank an L2 offset belongs to. -/
def bankByte (x : Nat) : Nat :=
  concat (c.chunkField x) (c.chunkByte x) (c.eBits + c.iBits)

/-- The permutation of the L2 offsets: the bank on top, its byte below. -/
def permute (x : Nat) : Nat :=
  concat (c.bankField x) (c.bankByte x) (c.eBits + c.iBits + c.qBits)

theorem chunkByte_lt (x : Nat) : c.chunkByte x < 2 ^ (c.eBits + c.iBits) := slice_lt _ _ _

theorem chunkField_lt (x : Nat) : c.chunkField x < 2 ^ c.qBits := slice_lt _ _ _

theorem bankByte_lt (x : Nat) : c.bankByte x < 2 ^ (c.eBits + c.iBits + c.qBits) :=
  concat_lt (c.chunkByte_lt x) (c.chunkField_lt x)

theorem permute_lt (x : Nat) : c.permute x < 2 ^ c.lBits := by
  have h := concat_lt (c.bankByte_lt x) (slice_lt x (c.eBits + c.iBits) c.kBits)
  rw [c.lBits_eq, Nat.add_right_comm]
  exact h

/-- Bank and byte of the bank determine the offset. -/
theorem fields_inj {x y : Nat} (hx : x < 2 ^ c.lBits) (hy : y < 2 ^ c.lBits)
    (hbank : c.bankField x = c.bankField y) (hbyte : c.bankByte x = c.bankByte y) :
    x = y := by
  obtain ⟨hchunk, hlow⟩ := concat_inj (slice_lt _ _ _) (slice_lt _ _ _) hbyte
  have hlo : slice x 0 (c.eBits + c.iBits + c.kBits) =
      slice y 0 (c.eBits + c.iBits + c.kBits) := by
    have hsplit := fun z => concat_slice z 0 (c.eBits + c.iBits) c.kBits
    simp only [Nat.zero_add] at hsplit
    rw [← hsplit x, ← hsplit y]
    simp only [bankField] at hbank
    rw [hbank]
    exact congrArg _ hlow
  rw [c.lBits_eq] at hx hy
  exact eq_of_slices hx hy hlo hchunk

theorem permute_inj {x y : Nat} (hx : x < 2 ^ c.lBits) (hy : y < 2 ^ c.lBits)
    (h : c.permute x = c.permute y) : x = y := by
  obtain ⟨hbank, hbyte⟩ := concat_inj (c.bankByte_lt x) (c.bankByte_lt y) h
  exact c.fields_inj hx hy hbank hbyte

/-! ## The base address stands above every field -/

theorem base_add {x : Nat} :
    L2Params.l2MemoryBaseAddr + x = concat (2 ^ (31 - c.lBits)) x c.lBits := by
  have h : 2 ^ c.lBits * 2 ^ (31 - c.lBits) = 2 ^ 31 := by
    rw [← Nat.pow_add, Nat.add_sub_cancel' c.lBits_le]
  rw [concat, h]
  rfl

theorem slice_base_add {x lo w : Nat} (hx : x < 2 ^ c.lBits) (h : lo + w ≤ c.lBits) :
    slice (L2Params.l2MemoryBaseAddr + x) lo w = slice x lo w := by
  rw [c.base_add, slice_concat_lo hx h]

theorem slice_base_msb {x : Nat} (hx : x < 2 ^ c.lBits) :
    slice (L2Params.l2MemoryBaseAddr + x) c.lBits (32 - c.lBits) = 2 ^ (31 - c.lBits) := by
  have h31 := c.lBits_le
  rw [c.base_add, slice_concat_hi hx (Nat.le_refl _), Nat.sub_self]
  exact slice_eq_self (Nat.pow_lt_pow_right (by omega) (by omega))

/-! ## The four spellings -/

/-- The interleaver inside its window. -/
theorem interleaveAddr_base_add {x : Nat} (hx : x < 2 ^ c.lBits) (hwin : x < 2 ^ 28) :
    c.interleaveAddr (L2Params.l2MemoryBaseAddr + x) =
      L2Params.l2MemoryBaseAddr + c.permute x := by
  have h31 := c.lBits_le
  have hl := c.lBits_eq
  have hin : 0x80000000 ≤ L2Params.l2MemoryBaseAddr + x ∧
      L2Params.l2MemoryBaseAddr + x < 0x90000000 := by
    rw [L2Params.l2MemoryBaseAddr]
    omega
  simp only [L2Params.interleaveAddr, c.lsbConstantBits_eq, c.scrambleBits_eq,
    c.reminderBits_eq, c.msbConstantBits_eq, L2Params.addrWidth]
  rw [if_pos hin, show 32 - (32 - c.lBits) = c.lBits by omega, c.slice_base_msb hx,
    c.slice_base_add hx (by omega), c.slice_base_add hx (by omega),
    c.slice_base_add hx (by omega), concat_assoc, concat_assoc, c.base_add,
    show c.kBits + (c.qBits + (c.eBits + c.iBits)) = c.lBits by omega]
  simp only [permute, bankByte, bankField, chunkField, chunkByte]
  rw [Nat.add_comm c.kBits, Nat.add_comm c.qBits]

/-- The interleaver past the end of its window. -/
theorem interleaveAddr_of_ge {x : Nat} (hwin : 2 ^ 28 ≤ x) :
    c.interleaveAddr (L2Params.l2MemoryBaseAddr + x) = L2Params.l2MemoryBaseAddr + x := by
  have hout : ¬(0x80000000 ≤ L2Params.l2MemoryBaseAddr + x ∧
      L2Params.l2MemoryBaseAddr + x < 0x90000000) := by
    rw [L2Params.l2MemoryBaseAddr]
    omega
  rw [L2Params.interleaveAddr]
  exact if_neg hout

theorem l2BankOf_base_add (y : Nat) :
    c.l2BankOf (L2Params.l2MemoryBaseAddr + y) = y / 2 ^ (c.eBits + c.iBits + c.qBits) := by
  rw [L2Params.l2BankOf, Nat.add_sub_cancel_left, c.l2BankSize_eq]

theorem l2BankOf_permute (x : Nat) :
    c.l2BankOf (L2Params.l2MemoryBaseAddr + c.permute x) = c.bankField x := by
  rw [c.l2BankOf_base_add, permute, concat_div (c.bankByte_lt x)]

/-- The word of a bank byte: its chunk and its beat. -/
theorem slice_bankByte (x : Nat) : slice (c.bankByte x) c.eBits (c.iBits + c.qBits) =
    concat (c.chunkField x) (slice x c.eBits c.iBits) c.iBits := by
  rw [bankByte, ← concat_slice, slice_concat_hi (c.chunkByte_lt x) (by omega),
    slice_concat_lo (c.chunkByte_lt x) (by omega), chunkByte, slice_slice (by omega),
    Nat.sub_self, Nat.zero_add, slice_eq_self (c.chunkField_lt x)]

/-- The row an SRAM bank is given, when the byte offset of a bank word is
computed right. -/
theorem bankAddr_permute (m : AxiToMem c.toL2Params) {x : Nat} (he : c.eBits ≠ 1) :
    c.bankAddr (m.memAddr (L2Params.l2MemoryBaseAddr + c.permute x)) =
      concat (c.chunkField x) (slice x c.eBits c.iBits) c.iBits := by
  have hmod : (L2Params.l2MemoryBaseAddr + c.permute x) % c.l2Size = c.permute x := by
    rw [c.base_add, c.l2Size_eq, concat_mod (c.permute_lt x)]
  have hword := m.memAddr_word (L2Params.l2MemoryBaseAddr + c.permute x)
  rw [hmod, c.l2BankBeWidth_eq] at hword
  have hslice : slice (m.memAddr (L2Params.l2MemoryBaseAddr + c.permute x)) c.eBits
      (c.iBits + c.qBits) = slice (c.permute x) c.eBits (c.iBits + c.qBits) := by
    rw [slice, slice, hword]
  rw [L2Params.bankAddr, c.l2BankBeWidth_eq, c.l2BankAddrWidth_eq, clog2_pow_sub_one he,
    hslice, permute, slice_concat_lo (c.bankByte_lt x) (by omega), c.slice_bankByte]

/-- The address a DRAM controller is given. -/
theorem scrambleResetAddr_permute (x : Nat) :
    c.scrambleResetAddr (L2Params.l2MemoryBaseAddr + c.permute x) = c.bankByte x := by
  have h31 := c.lBits_le
  have hl := c.lBits_eq
  have hp := c.permute_lt x
  have hlow : slice (c.permute x) 0 (c.eBits + c.iBits) = c.chunkByte x := by
    rw [permute, slice_concat_lo (c.bankByte_lt x) (by omega), bankByte,
      slice_concat_lo (c.chunkByte_lt x) (by omega), slice_eq_self (c.chunkByte_lt x)]
  have hrem : slice (c.permute x) (c.eBits + c.iBits) c.qBits = c.chunkField x := by
    rw [permute, slice_concat_lo (c.bankByte_lt x) (by omega), bankByte,
      slice_concat_hi (c.chunkByte_lt x) (by omega), Nat.sub_self,
      slice_eq_self (c.chunkField_lt x)]
  have hbase : slice L2Params.l2MemoryBaseAddr c.lBits (32 - c.lBits) =
      2 ^ (31 - c.lBits) := by
    have h := c.slice_base_msb (Nat.two_pow_pos c.lBits)
    rw [Nat.add_zero] at h
    exact h
  simp only [L2Params.scrambleResetAddr, c.lsbConstantBits_eq, c.reminderBits_eq,
    c.msbConstantBits_eq, L2Params.addrWidth]
  rw [show 32 - (32 - c.lBits) = c.lBits by omega, c.slice_base_msb hp, hbase,
    Nat.add_sub_cancel_left, Nat.mod_self, concat_zero_hi,
    c.slice_base_add hp (by omega), c.slice_base_add hp (by omega), hlow, hrem]
  rfl

/-- The package's remainder stops at the top of the L2, for an offset in it. -/
theorem pkgReminder_eq {x : Nat} (hx : x < 2 ^ c.lBits) :
    slice x (32 - c.pkgReminderBits) c.pkgReminderBits = c.chunkField x := by
  have h31 := c.lBits_le
  have hl := c.lBits_eq
  rw [hl] at hx
  rw [c.pkgReminderBits_eq,
    show 32 - (32 - (c.eBits + c.iBits + c.kBits)) = c.eBits + c.iBits + c.kBits by omega,
    slice_eq_of_lt hx (by omega), chunkField]

theorem getSramCTRLInfo_eq {x : Nat} (hx : x < 2 ^ c.lBits) :
    c.getSramCTRLInfo x =
      (c.bankField x, concat (c.chunkField x) (slice x c.eBits c.iBits) c.iBits) := by
  have h31 := c.lBits_le
  have hl := c.lBits_eq
  have hbits : c.interleave = 1 ↔ c.iBits = 0 := by
    rw [c.interleave_eq, Nat.pow_eq_one]
    omega
  simp only [L2Params.getSramCTRLInfo, c.lsbConstantBits_eq, c.scrambleBits_eq,
    c.l2BankByteOffset_eq, hbits, L2Params.addrWidth, c.pkgReminder_eq hx,
    Nat.add_sub_cancel_left]
  refine Prod.ext rfl ?_
  split
  next hi =>
    -- one beat a chunk: the row is the chunk, with no beat below it
    rw [hl] at hx
    simp only [chunkField, hi, Nat.add_zero] at hx ⊢
    rw [slice_eq_of_lt hx (by omega), slice_zero_width, concat, Nat.pow_zero,
      Nat.one_mul, Nat.add_zero]
  next => rfl

theorem getDramCTRLInfo_eq {x : Nat} (hx : x < 2 ^ c.lBits) :
    c.getDramCTRLInfo x = (c.bankField x, c.bankByte x) := by
  have h31 := c.lBits_le
  have hl := c.lBits_eq
  have hfits : c.bankByte x < 2 ^ 32 :=
    Nat.lt_of_lt_of_le (c.bankByte_lt x) (Nat.pow_le_pow_right (by omega) (by omega))
  simp only [L2Params.getDramCTRLInfo, c.lsbConstantBits_eq, c.scrambleBits_eq,
    L2Params.addrWidth, c.pkgReminder_eq hx]
  exact Prod.ext rfl (Nat.mod_eq_of_lt hfits)

/-! ## Agreement -/

/-- The addresses of the L2. -/
def l2Range : Set Nat :=
  Set.Ico L2Params.l2MemoryBaseAddr (L2Params.l2MemoryBaseAddr + c.l2Size)

/-- Bank and row an address reaches in the SRAM build. -/
def sramPlace (m : AxiToMem c.toL2Params) (a : Nat) : Nat × Nat :=
  (c.l2BankOf (c.interleaveAddr a), c.bankAddr (m.memAddr (c.interleaveAddr a)))

/-- Controller and local address an address reaches in the DRAM build. -/
def dramPlace (a : Nat) : Nat × Nat :=
  (c.l2BankOf (c.interleaveAddr a), c.scrambleResetAddr (c.interleaveAddr a))

/-- The hardware and the package functions put every byte of the L2 in the same
place, and no two bytes in one. A byte of an SRAM row is selected by the strobe
of its AXI lane. -/
structure Agrees (m : AxiToMem c.toL2Params) : Prop where
  bijOn : Set.BijOn c.interleaveAddr c.l2Range c.l2Range
  sram : ∀ a ∈ c.l2Range,
    c.sramPlace m a = c.getSramCTRLInfo (a - L2Params.l2MemoryBaseAddr)
  dram : ∀ a ∈ c.l2Range,
    c.dramPlace a = c.getDramCTRLInfo (a - L2Params.l2MemoryBaseAddr)
  sram_inj : Set.InjOn
    (fun a => (c.sramPlace m a, c.interleaveAddr a % c.l2BankBeWidth)) c.l2Range
  dram_inj : Set.InjOn c.dramPlace c.l2Range

theorem mem_l2Range {a : Nat} (ha : a ∈ c.l2Range) :
    ∃ x, x < 2 ^ c.lBits ∧ a = L2Params.l2MemoryBaseAddr + x := by
  obtain ⟨hlo, hhi⟩ := ha
  rw [c.l2Size_eq] at hhi
  exact ⟨a - L2Params.l2MemoryBaseAddr, by omega, by omega⟩

theorem base_add_mem {x : Nat} (hx : x < 2 ^ c.lBits) :
    L2Params.l2MemoryBaseAddr + x ∈ c.l2Range := by
  refine ⟨Nat.le_add_right _ _, ?_⟩
  rw [c.l2Size_eq]
  omega

section Holds

variable {c} (hsize : c.l2Size ≤ 2 ^ 28)
include hsize

theorem interleaveAddr_in_range {x : Nat} (hx : x < 2 ^ c.lBits) :
    c.interleaveAddr (L2Params.l2MemoryBaseAddr + x) =
      L2Params.l2MemoryBaseAddr + c.permute x := by
  rw [c.l2Size_eq] at hsize
  exact c.interleaveAddr_base_add hx (Nat.lt_of_lt_of_le hx hsize)

/-- An injective map of a finite range into itself is onto. -/
theorem interleaveAddr_bijOn : Set.BijOn c.interleaveAddr c.l2Range c.l2Range := by
  have hmaps : Set.MapsTo c.interleaveAddr c.l2Range c.l2Range := by
    intro a ha
    obtain ⟨x, hx, rfl⟩ := c.mem_l2Range ha
    rw [interleaveAddr_in_range hsize hx]
    exact c.base_add_mem (c.permute_lt x)
  have hinj : Set.InjOn c.interleaveAddr c.l2Range := by
    intro a ha b hb hab
    obtain ⟨x, hx, rfl⟩ := c.mem_l2Range ha
    obtain ⟨y, hy, rfl⟩ := c.mem_l2Range hb
    rw [interleaveAddr_in_range hsize hx, interleaveAddr_in_range hsize hy] at hab
    rw [c.permute_inj hx hy (Nat.add_left_cancel hab)]
  have hcoe : (Finset.Ico L2Params.l2MemoryBaseAddr
      (L2Params.l2MemoryBaseAddr + c.l2Size) : Set Nat) = c.l2Range := Finset.coe_Ico _ _
  refine ⟨hmaps, hinj, ?_⟩
  rw [← hcoe] at hmaps hinj ⊢
  exact Finset.surjOn_of_injOn_of_card_le _ hmaps hinj (Nat.le_refl _)

theorem dramPlace_eq {x : Nat} (hx : x < 2 ^ c.lBits) :
    c.dramPlace (L2Params.l2MemoryBaseAddr + x) = (c.bankField x, c.bankByte x) := by
  rw [dramPlace, interleaveAddr_in_range hsize hx, c.l2BankOf_permute,
    c.scrambleResetAddr_permute]

theorem sramPlace_eq (m : AxiToMem c.toL2Params) (he : c.eBits ≠ 1) {x : Nat}
    (hx : x < 2 ^ c.lBits) : c.sramPlace m (L2Params.l2MemoryBaseAddr + x) =
      (c.bankField x, concat (c.chunkField x) (slice x c.eBits c.iBits) c.iBits) := by
  rw [sramPlace, interleaveAddr_in_range hsize hx, c.l2BankOf_permute,
    c.bankAddr_permute m he]

/-- The lane of a byte survives the permutation: it is part of the chunk. -/
theorem lane_eq {x : Nat} (hx : x < 2 ^ c.lBits) :
    c.interleaveAddr (L2Params.l2MemoryBaseAddr + x) % c.l2BankBeWidth =
      slice x 0 c.eBits := by
  have hl := c.lBits_eq
  have hmod : ∀ z, z % 2 ^ c.eBits = slice z 0 c.eBits := by
    intro z
    rw [slice, Nat.pow_zero, Nat.div_one]
  rw [interleaveAddr_in_range hsize hx, c.l2BankBeWidth_eq, hmod,
    c.slice_base_add (c.permute_lt x) (by omega), permute,
    slice_concat_lo (c.bankByte_lt x) (by omega), bankByte,
    slice_concat_lo (c.chunkByte_lt x) (by omega), chunkByte, slice_slice (by omega)]

theorem dramPlace_injOn : Set.InjOn c.dramPlace c.l2Range := by
  intro a ha b hb hab
  obtain ⟨x, hx, rfl⟩ := c.mem_l2Range ha
  obtain ⟨y, hy, rfl⟩ := c.mem_l2Range hb
  rw [dramPlace_eq hsize hx, dramPlace_eq hsize hy] at hab
  rw [c.fields_inj hx hy (Prod.ext_iff.mp hab).1 (Prod.ext_iff.mp hab).2]

theorem sramPlace_injOn (m : AxiToMem c.toL2Params) (he : c.eBits ≠ 1) : Set.InjOn
    (fun a => (c.sramPlace m a, c.interleaveAddr a % c.l2BankBeWidth)) c.l2Range := by
  intro a ha b hb hab
  obtain ⟨x, hx, rfl⟩ := c.mem_l2Range ha
  obtain ⟨y, hy, rfl⟩ := c.mem_l2Range hb
  simp only [sramPlace_eq hsize m he hx, sramPlace_eq hsize m he hy, lane_eq hsize hx,
    lane_eq hsize hy, Prod.mk.injEq] at hab
  obtain ⟨⟨hbank, hrow⟩, hlane⟩ := hab
  obtain ⟨hchunk, hbeat⟩ := concat_inj (slice_lt _ _ _) (slice_lt _ _ _) hrow
  -- beat and lane together are the byte of the chunk
  have hlow : c.chunkByte x = c.chunkByte y := by
    have hsplit := fun z => concat_slice z 0 c.eBits c.iBits
    simp only [Nat.zero_add] at hsplit
    rw [chunkByte, chunkByte, ← hsplit x, ← hsplit y, hbeat, hlane]
  have hbyte : c.bankByte x = c.bankByte y := by rw [bankByte, bankByte, hchunk, hlow]
  rw [c.fields_inj hx hy hbank hbyte]

theorem agrees_of (m : AxiToMem c.toL2Params) (he : c.eBits ≠ 1) : c.Agrees m where
  bijOn := interleaveAddr_bijOn hsize
  sram := by
    intro a ha
    obtain ⟨x, hx, rfl⟩ := c.mem_l2Range ha
    rw [sramPlace_eq hsize m he hx, Nat.add_sub_cancel_left, c.getSramCTRLInfo_eq hx]
  dram := by
    intro a ha
    obtain ⟨x, hx, rfl⟩ := c.mem_l2Range ha
    rw [dramPlace_eq hsize hx, Nat.add_sub_cancel_left, c.getDramCTRLInfo_eq hx]
  sram_inj := sramPlace_injOn hsize m he
  dram_inj := dramPlace_injOn hsize

end Holds

/-! ## Where it fails -/

/-- The offset of the upper half of the L2 is past the window of the interleaver
as soon as any is, and its bank field is zero while its position is not. -/
theorem not_agrees_of_large (m : AxiToMem c.toL2Params) (hsize : 2 ^ 28 < c.l2Size) :
    ¬c.Agrees m := by
  intro h
  have hl := c.lBits_eq
  have hk := c.kBits_pos
  have hq := c.qBits_pos
  have h28 : 28 < c.lBits := by
    rw [c.l2Size_eq] at hsize
    exact (Nat.pow_lt_pow_iff_right (by omega)).mp hsize
  have hx : 2 ^ (c.lBits - 1) < 2 ^ c.lBits := Nat.pow_lt_pow_right (by omega) (by omega)
  have hout : 2 ^ 28 ≤ 2 ^ (c.lBits - 1) := Nat.pow_le_pow_right (by omega) (by omega)
  have hsram := h.sram _ (c.base_add_mem hx)
  rw [sramPlace, c.interleaveAddr_of_ge hout, Nat.add_sub_cancel_left,
    c.getSramCTRLInfo_eq hx, c.l2BankOf_base_add] at hsram
  have hbank := (Prod.ext_iff.mp hsram).1
  have hposition : 2 ^ (c.lBits - 1) / 2 ^ (c.eBits + c.iBits + c.qBits) =
      2 ^ (c.kBits - 1) := by
    rw [Nat.pow_div (by omega) (by omega)]
    congr 1
    omega
  have hfield : c.bankField (2 ^ (c.lBits - 1)) = 0 := by
    refine Nat.eq_of_testBit_eq fun i => ?_
    rw [bankField, testBit_slice, Nat.testBit_two_pow, Nat.zero_testBit]
    by_cases hi : i < c.kBits
    · simp [show c.lBits - 1 ≠ c.eBits + c.iBits + i by omega]
    · simp [hi]
  simp only [hposition, hfield] at hbank
  exact absurd hbank (Nat.two_pow_pos _).ne'

/-- With words of two bytes the row keeps the lane bit at the bottom. The byte
that the interleaver sends to the second word of the first bank shows it. -/
theorem not_agrees_of_two (m : AxiToMem c.toL2Params) (he : c.eBits = 1) :
    ¬c.Agrees m := by
  intro h
  have hl := c.lBits_eq
  have hk := c.kBits_pos
  have hq := c.qBits_pos
  have hsize : c.l2Size ≤ 2 ^ 28 := by
    by_contra hlarge
    exact c.not_agrees_of_large m (by omega) h
  have h2 : 2 < 2 ^ c.lBits := by
    have : 2 ^ 2 ≤ 2 ^ c.lBits := Nat.pow_le_pow_right (by omega) (by omega)
    omega
  obtain ⟨a, ha, hperm⟩ := h.bijOn.surjOn (c.base_add_mem h2)
  obtain ⟨x, hx, rfl⟩ := c.mem_l2Range ha
  have hsram := h.sram _ ha
  rw [interleaveAddr_in_range hsize hx] at hperm
  have hpermute : c.permute x = 2 := Nat.add_left_cancel hperm
  -- the place the package computes: word one
  have hbyte : c.bankByte x = 2 := by
    have hlt : 2 < 2 ^ (c.eBits + c.iBits + c.qBits) := by
      have : 2 ^ 2 ≤ 2 ^ (c.eBits + c.iBits + c.qBits) :=
        Nat.pow_le_pow_right (by omega) (by omega)
      omega
    have hconcat : concat (c.bankField x) (c.bankByte x) (c.eBits + c.iBits + c.qBits) =
        concat 0 2 (c.eBits + c.iBits + c.qBits) := by
      rw [concat_zero_hi]
      exact hpermute
    exact (concat_inj (c.bankByte_lt x) hlt hconcat).2
  have hrow := (Prod.ext_iff.mp hsram).2
  rw [Nat.add_sub_cancel_left, c.getSramCTRLInfo_eq hx, ← c.slice_bankByte, hbyte,
    sramPlace, interleaveAddr_in_range hsize hx, hpermute] at hrow
  -- the row the bank is given: the byte address itself
  have hmem : m.memAddr (L2Params.l2MemoryBaseAddr + 2) = 2 := by
    have hdvd : c.l2BankBeWidth ∣ L2Params.l2MemoryBaseAddr + 2 := by
      rw [c.l2BankBeWidth_eq, he, L2Params.l2MemoryBaseAddr]
      decide
    rw [m.memAddr_aligned _ hdvd, c.l2Size_eq, c.base_add, concat_mod h2]
  simp only [hmem, L2Params.bankAddr, c.l2BankBeWidth_eq, he, c.l2BankAddrWidth_eq,
    slice, Nat.pow_one, Nat.div_self (show 0 < 2 by omega), Nat.add_one_sub_one,
    clog2_one, Nat.pow_zero, Nat.div_one] at hrow
  obtain ⟨w, hw⟩ : ∃ w, c.iBits + c.qBits = w + 1 := ⟨c.iBits + c.qBits - 1, by omega⟩
  have heven : ∀ n, n % 2 ^ (w + 1) % 2 = n % 2 := by
    intro n
    exact Nat.mod_mod_of_dvd n (Dvd.intro_left _ (Nat.pow_succ 2 w).symm)
  have h0 := heven 2
  have h1 := heven 1
  rw [hw] at hrow
  omega

/-- Hardware and package place the L2 alike exactly when the L2 ends inside the
interleaver's literal window and a bank word is not two bytes wide. -/
theorem l2_placement (m : AxiToMem c.toL2Params) :
    c.Agrees m ↔ c.l2Size ≤ 2 ^ 28 ∧ c.l2BankBeWidth ≠ 2 := by
  have hbe : c.l2BankBeWidth = 2 ↔ c.eBits = 1 := by
    rw [c.l2BankBeWidth_eq]
    exact Nat.pow_eq_self_iff (by omega)
  rw [Ne, hbe]
  constructor
  · intro h
    constructor
    · by_contra hlarge
      exact c.not_agrees_of_large m (by omega) h
    · intro he
      exact c.not_agrees_of_two m he h
  · rintro ⟨hsize, he⟩
    exact agrees_of hsize m he

/-- An L2 of 512 MiB in sixteen banks with 512-bit words and chunks of 1 KiB. -/
def largeL2 : L2Config where
  l2Size := 0x20000000
  numL2Banks := 16
  axiDataWidth := 512
  interleave := 16
  size_pow := (congrArg (2 ^ ·) (clog2_pow 29)).symm
  banks_pow := (congrArg (2 ^ ·) (clog2_pow 4)).symm
  width_pow := (congrArg (8 * 2 ^ ·) (clog2_pow 6)).symm
  interleave_pow := (congrArg (2 ^ ·) (clog2_pow 4)).symm
  banks_two := by decide
  chunks_lt := by decide
  size_fits := by decide

/-- `axi_to_mem` that passes every address on. -/
def AxiToMem.truncate (p : L2Params) : AxiToMem p where
  memAddr a := a % p.l2Size
  memAddr_word _ := rfl
  memAddr_aligned _ _ := rfl

/-- The first address past the window stays where it is, in bank eight, where
the testbench looks for it in bank zero. -/
theorem largeL2_misplaced :
    0x90000000 ∈ largeL2.l2Range ∧ largeL2.interleaveAddr 0x90000000 = 0x90000000 ∧
      largeL2.l2BankOf 0x90000000 = 8 ∧ (largeL2.getSramCTRLInfo 0x10000000).1 = 0 ∧
      ¬largeL2.Agrees (AxiToMem.truncate _) := by
  have hmem : 0x90000000 ∈ largeL2.l2Range := ⟨by decide, by decide⟩
  have hinter : largeL2.interleaveAddr 0x90000000 = 0x90000000 :=
    largeL2.interleaveAddr_of_ge (Nat.le_refl (2 ^ 28))
  have hbank : largeL2.l2BankOf 0x90000000 = 8 := by decide
  have hinfo : (largeL2.getSramCTRLInfo 0x10000000).1 = 0 := by decide +kernel
  refine ⟨hmem, hinter, hbank, hinfo, fun h => ?_⟩
  have hsram := congrArg Prod.fst (h.sram _ hmem)
  rw [sramPlace, hinter] at hsram
  exact absurd (hbank.symm.trans (hsram.trans hinfo)) (by decide)

end L2Config

end TeraNoC.Hw
