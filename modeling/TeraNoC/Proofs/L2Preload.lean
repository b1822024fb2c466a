import TeraNoC.Hw.L2Preload
import TeraNoC.Lib.Replay
import TeraNoC.Proofs.L2Placement

/-!
# Which layouts the preload gets right

`getSramCTRLInfo` names one row of one bank for each bank word of the L2, so the
preload is a list of writes to bank words, and what a byte reads back is decided by the
last write to its word. The loop counts the words from the start of the section: if that
is not the start of a bank word, every byte of the section ends up in a wrong lane. And
a section is padded with zeros to whole rows of all banks: they wipe out what an earlier
section has there.
-/

namespace TeraNoC.Hw

open TeraNoC.Lib

namespace L2Config

variable (c : L2Config)

/-! ## Bank words -/

theorem getSramCTRLInfo_any (x : Nat) : c.getSramCTRLInfo x =
    (c.bankField x, concat (slice x (c.eBits + c.iBits + c.kBits)
      (32 - (c.eBits + c.iBits + c.kBits))) (slice x c.eBits c.iBits) c.iBits) := by
  have h31 := c.lBits_le
  have hl := c.lBits_eq
  have hbits : c.interleave = 1 ↔ c.iBits = 0 := by
    rw [c.interleave_eq, Nat.pow_eq_one]
    omega
  simp only [L2Params.getSramCTRLInfo, c.lsbConstantBits_eq, c.scrambleBits_eq,
    c.l2BankByteOffset_eq, hbits, L2Params.addrWidth, c.pkgReminderBits_eq,
    Nat.add_sub_cancel_left]
  refine Prod.ext rfl ?_
  split
  next hi => simp only [hi, Nat.add_zero, slice_zero_width, concat, Nat.pow_zero, Nat.one_mul]
  next =>
    rw [show 32 - (32 - (c.eBits + c.iBits + c.kBits)) = c.eBits + c.iBits + c.kBits by omega]

/-- The bank word of an offset is its chunk in the bank, its bank and its beat. -/
theorem word_eq {x : Nat} (hx : x < 2 ^ 32) : x / 2 ^ c.eBits =
    concat (concat (slice x (c.eBits + c.iBits + c.kBits) (32 - (c.eBits + c.iBits + c.kBits)))
      (c.bankField x) c.kBits) (slice x c.eBits c.iBits) c.iBits := by
  have h31 := c.lBits_le
  have hl := c.lBits_eq
  have hword : x / 2 ^ c.eBits < 2 ^ (32 - c.eBits) := by
    rw [Nat.div_lt_iff_lt_mul (Nat.two_pow_pos _), ← Nat.pow_add,
      show 32 - c.eBits + c.eBits = 32 by omega]
    exact hx
  have hslice : slice x c.eBits (32 - c.eBits) = x / 2 ^ c.eBits := Nat.mod_eq_of_lt hword
  rw [bankField, concat_slice, show c.kBits + (32 - (c.eBits + c.iBits + c.kBits)) =
    32 - (c.eBits + c.iBits) by omega, concat_slice, ← hslice]
  congr 1
  omega

/-- A field above the byte offset is a field of the bank word. -/
theorem slice_word (x lo w : Nat) : slice x (c.eBits + lo) w = slice (x / 2 ^ c.eBits) lo w := by
  rw [slice, slice, Nat.pow_add, Nat.div_div_eq_div_mul]

/-- Two offsets are in one row of one bank exactly if they are in one bank word. -/
theorem getSramCTRLInfo_eq_iff {x y : Nat} (hx : x < 2 ^ 32) (hy : y < 2 ^ 32) :
    c.getSramCTRLInfo x = c.getSramCTRLInfo y ↔ x / 2 ^ c.eBits = y / 2 ^ c.eBits := by
  rw [c.getSramCTRLInfo_any, c.getSramCTRLInfo_any]
  constructor
  · intro h
    obtain ⟨hbank, hrow⟩ := Prod.mk.inj h
    obtain ⟨hchunk, hbeat⟩ := concat_inj (slice_lt ..) (slice_lt ..) hrow
    rw [c.word_eq hx, c.word_eq hy, hbank, hchunk, hbeat]
  · intro h
    have hbeat := c.slice_word x 0 c.iBits
    have hbeat' := c.slice_word y 0 c.iBits
    rw [Nat.add_zero] at hbeat hbeat'
    simp only [bankField, Nat.add_assoc, hbeat, hbeat', c.slice_word, h]

theorem l2BankNumWords_eq : c.l2BankNumWords = 2 ^ (c.iBits + c.qBits) := by
  rw [L2Params.l2BankNumWords, c.l2BankSize_eq, c.l2BankBeWidth_eq,
    Nat.pow_div (by omega) (by omega)]
  congr 1
  omega

/-- An offset inside the L2 has its word in a row that its bank has. -/
theorem getSramCTRLInfo_row_lt {x : Nat} (hx : x < 2 ^ c.lBits) :
    (c.getSramCTRLInfo x).2 < c.l2BankNumWords := by
  rw [c.getSramCTRLInfo_eq hx, c.l2BankNumWords_eq]
  exact concat_lt (slice_lt ..) (c.chunkField_lt x)

theorem l2BeWidth_eq : c.l2BeWidth = 2 ^ (c.eBits + c.kBits) := by
  rw [L2Params.l2BeWidth, c.width_pow, c.numL2Banks_eq, Nat.mul_assoc,
    Nat.mul_div_cancel_left _ (by omega), ← Nat.pow_add]
  rfl

end L2Config

/-! ## The writes of the preload -/

theorem mem_forValues {i n step : Nat} (hstep : 0 < step) :
    i ∈ forValues n step ↔ ∃ j, i = j * step ∧ i < n := by
  have hcomm : ∀ j, step * j = j * step := fun j => Nat.mul_comm ..
  rw [forValues, List.mem_range']
  constructor
  · rintro ⟨j, hj, rfl⟩
    rw [Nat.lt_div_iff_mul_lt hstep] at hj
    exact ⟨j, by rw [Nat.zero_add, hcomm], by rw [hcomm]; omega⟩
  · rintro ⟨j, rfl, hlt⟩
    refine ⟨j, ?_, by rw [Nat.zero_add, hcomm]⟩
    rw [Nat.lt_div_iff_mul_lt hstep]
    omega

namespace L2Params

variable {p : L2Params} {bank : Nat} {initVal : Nat → Row} {s : ElfSection}

/-- The row that a turn of the loop writes, if it is one of the bank's. -/
def rowWrite (p : L2Params) (bank address : Nat) (buffer : List Byte) (i : Nat) :
    List (Nat × Row) :=
  let info := p.getSramCTRLInfo (relAddr (address + i))
  if info.1 = bank ∧ info.2 < p.l2BankNumWords then [(info.2, p.memRow buffer i)] else []

def rowWrites (p : L2Params) (bank : Nat) (s : ElfSection) : List (Nat × Row) :=
  if l2MemoryBaseAddr ≤ s.address ∧ s.address < p.l2MemoryEndAddr then
    (forValues (p.paddedLength s.length) p.l2BankBeWidth).flatMap
      (p.rowWrite bank s.address (p.sectionBuffer s))
  else []

theorem initRow_eq (address : Nat) (buffer : List Byte) (i : Nat) :
    p.initRow bank address buffer initVal i =
      replay initVal (p.rowWrite bank address buffer i) := by
  simp only [initRow, rowWrite]
  split <;> rfl

theorem l2Init_eq (sections : List ElfSection) :
    p.l2Init sections bank initVal = replay initVal (sections.flatMap (p.rowWrites bank)) := by
  refine foldl_replay fun m s _ => ?_
  rw [initSection, rowWrites]
  split
  · exact foldl_replay fun m i _ => initRow_eq ..
  · rfl

/-- The buffer of a section that starts at an L2 offset: the writes of its words. -/
theorem mem_rowWrites (hbe : 0 < p.l2BankBeWidth) {w : Nat × Row} :
    w ∈ p.rowWrites bank s ↔ (l2MemoryBaseAddr ≤ s.address ∧ s.address < p.l2MemoryEndAddr) ∧
      ∃ j, j * p.l2BankBeWidth < p.paddedLength s.length ∧
        ((p.getSramCTRLInfo (relAddr (s.address + j * p.l2BankBeWidth))).1 = bank ∧
          (p.getSramCTRLInfo (relAddr (s.address + j * p.l2BankBeWidth))).2 < p.l2BankNumWords) ∧
        w = ((p.getSramCTRLInfo (relAddr (s.address + j * p.l2BankBeWidth))).2,
          p.memRow (p.sectionBuffer s) (j * p.l2BankBeWidth)) := by
  rw [rowWrites]
  split
  next hin =>
    simp only [List.mem_flatMap, rowWrite, mem_forValues hbe]
    constructor
    · rintro ⟨_, ⟨j, rfl, hlt⟩, hw⟩
      split at hw
      next hrow => exact ⟨hin, j, hlt, hrow, List.mem_singleton.mp hw⟩
      next => cases hw
    · rintro ⟨-, j, hlt, hrow, rfl⟩
      refine ⟨_, ⟨j, rfl, hlt⟩, ?_⟩
      rw [if_pos hrow]
      exact List.mem_singleton_self _
  next hout => exact ⟨fun hw => (by cases hw), fun h => absurd h.1 hout⟩

/-- The buffer holds the section's bytes, and zeros behind them. -/
theorem getD_sectionBuffer (k : Nat) : (p.sectionBuffer s).getD k 0 = s.byte k := by
  rw [sectionBuffer, ElfSection.byte, List.getD_eq_getElem?_getD, List.getD_eq_getElem?_getD,
    List.getElem?_append]
  split
  · rfl
  next hlt =>
    rw [List.getElem?_eq_none (Nat.le_of_not_lt hlt), List.getElem?_replicate]
    split <;> rfl

theorem memRow_sectionBuffer {i b : Nat} (hb : b < p.l2BankBeWidth) :
    p.memRow (p.sectionBuffer s) i b = s.byte (i + b) := by
  rw [memRow, if_pos hb, getD_sectionBuffer]

end L2Params

namespace L2Config

variable {c : L2Config}

/-! ## What a word holds after reset -/

theorem relAddr_base_add {x : Nat} (hx : x < 2 ^ 32) :
    L2Params.relAddr (L2Params.l2MemoryBaseAddr + x) = x := by
  rw [L2Params.relAddr, L2Params.l2MemoryBaseAddr, L2Params.addrWidth]
  omega

theorem preloadedSram_eq (t : TcSram c.toL2Params) (sections : List ElfSection)
    (initVal : Nat → Nat → Row) {x : Nat} (hx : x < 2 ^ c.lBits) :
    preloadedSram t sections initVal (c.getSramCTRLInfo x).1 (c.getSramCTRLInfo x).2 =
      replay (initVal (c.getSramCTRLInfo x).1)
        (sections.flatMap (c.rowWrites (c.getSramCTRLInfo x).1)) (c.getSramCTRLInfo x).2 := by
  rw [preloadedSram, t.reset_row _ _ (c.getSramCTRLInfo_row_lt hx), L2Params.l2Init_eq]

theorem l2BankBeWidth_pos : 0 < c.l2BankBeWidth := by
  rw [c.l2BankBeWidth_eq]
  exact Nat.two_pow_pos _

theorem pow_le_31 : 2 ^ c.lBits ≤ 2 ^ 31 := Nat.pow_le_pow_right (by omega) c.lBits_le

theorem l2BeWidth_le : c.l2BeWidth ≤ 2 ^ c.lBits := by
  have hl := c.lBits_eq
  rw [c.l2BeWidth_eq]
  exact Nat.pow_le_pow_right (by omega) (by omega)

theorem paddedLength_lt {n : Nat} : c.paddedLength n < n + c.l2BeWidth := by
  have hpos : 0 < c.l2BeWidth := by
    rw [c.l2BeWidth_eq]
    exact Nat.two_pow_pos _
  have hle := Nat.div_mul_le_self (n + c.l2BeWidth - 1) c.l2BeWidth
  rw [L2Params.paddedLength]
  omega

theorem le_paddedLength {n : Nat} : n ≤ c.paddedLength n := by
  have hpos : 0 < c.l2BeWidth := by
    rw [c.l2BeWidth_eq]
    exact Nat.two_pow_pos _
  have hlt := Nat.lt_div_mul_add (a := n + c.l2BeWidth - 1) hpos
  rw [L2Params.paddedLength]
  omega

/-- A section at offset `o` writes the word of offset `x` in the turn, if there is one,
whose bytes start in that word. -/
theorem word_written {s : ElfSection} {o x : Nat} (ho : s.address = L2Params.l2MemoryBaseAddr + o)
    (hfits : o + s.length ≤ 2 ^ c.lBits) (hx : x < 2 ^ c.lBits) {w : Nat × Row} :
    (w ∈ c.rowWrites (c.getSramCTRLInfo x).1 s ∧ w.1 = (c.getSramCTRLInfo x).2) ↔
      s.address < c.l2MemoryEndAddr ∧ ∃ j, j * c.l2BankBeWidth < c.paddedLength s.length ∧
        (o + j * c.l2BankBeWidth) / 2 ^ c.eBits = x / 2 ^ c.eBits ∧
        w = ((c.getSramCTRLInfo x).2, c.memRow (c.sectionBuffer s) (j * c.l2BankBeWidth)) := by
  have h31 := c.pow_le_31
  have hwidth := c.l2BeWidth_le
  have hpad := c.paddedLength_lt (n := s.length)
  have hrel : ∀ j, j * c.l2BankBeWidth < c.paddedLength s.length →
      L2Params.relAddr (s.address + j * c.l2BankBeWidth) = o + j * c.l2BankBeWidth ∧
        o + j * c.l2BankBeWidth < 2 ^ 32 := by
    intro j hj
    have hlt : o + j * c.l2BankBeWidth < 2 ^ 32 := by omega
    rw [ho, Nat.add_assoc, relAddr_base_add hlt]
    exact ⟨rfl, hlt⟩
  rw [L2Params.mem_rowWrites c.l2BankBeWidth_pos]
  constructor
  · rintro ⟨⟨⟨-, hend⟩, j, hj, ⟨hbank, -⟩, rfl⟩, hrow⟩
    rw [(hrel j hj).1] at hbank hrow ⊢
    refine ⟨hend, j, hj, ?_, by rw [← hrow]⟩
    exact (c.getSramCTRLInfo_eq_iff (hrel j hj).2 (by omega)).mp (Prod.ext hbank hrow)
  · rintro ⟨hend, j, hj, hword, rfl⟩
    have hinfo := (c.getSramCTRLInfo_eq_iff (hrel j hj).2 (by omega)).mpr hword
    have hrow := c.getSramCTRLInfo_row_lt hx
    refine ⟨⟨⟨by omega, hend⟩, j, hj, ?_, ?_⟩, rfl⟩
    · rw [(hrel j hj).1, hinfo]
      exact ⟨rfl, hrow⟩
    · rw [(hrel j hj).1, hinfo]

/-! ## What a range reads -/

/-- The byte of the bank word that an offset selects. -/
def sramByte (c : L2Config) (sram : Nat → Nat → Row) (x : Nat) : Byte :=
  sram (c.getSramCTRLInfo x).1 (c.getSramCTRLInfo x).2 (x % 2 ^ c.eBits)

/-- The cache shows what the memory holds. -/
def Cached (sram : Nat → Nat → Row) (cached : Option (Nat × Nat × Row)) : Prop :=
  ∀ bank addr row, cached = some (bank, addr, row) → row = sram bank addr

theorem Cached.cachedRow {sram : Nat → Nat → Row} {cached : Option (Nat × Nat × Row)}
    (h : Cached sram cached) (bank addr : Nat) :
    L2Params.cachedRow sram bank addr cached = sram bank addr := by
  match cached with
  | none => rfl
  | some (cachedBank, cachedAddr, row) =>
      rw [L2Params.cachedRow]
      split
      next heq =>
        rw [heq.1, heq.2]
        exact h _ _ _ rfl
      next => rfl

theorem readByte_eq {sram : Nat → Nat → Row} {x i : Nat} {st : L2Params.ReadState}
    (hx : x + i < 2 ^ c.lBits) (hst : Cached sram st.cached) :
    ∃ cached, Cached sram cached ∧
      c.readByte sram (L2Params.l2MemoryBaseAddr + x) st i =
        some ⟨cached, st.buffer ++ [c.sramByte sram (x + i)]⟩ := by
  have h31 := c.pow_le_31
  have hrel : L2Params.relAddr ((L2Params.l2MemoryBaseAddr + x + i) % 2 ^ L2Params.addrWidth) =
      x + i := by
    have hbase := relAddr_base_add (x := x + i) (by omega)
    rw [L2Params.relAddr, Nat.mod_add_mod, Nat.add_assoc L2Params.l2MemoryBaseAddr]
    exact hbase
  have hbank : (c.getSramCTRLInfo (x + i)).1 < c.numL2Banks := by
    rw [c.getSramCTRLInfo_eq hx, c.numL2Banks_eq]
    exact slice_lt ..
  have haddr : slice (c.getSramCTRLInfo (x + i)).2 0 c.l2BankAddrWidth =
      (c.getSramCTRLInfo (x + i)).2 := by
    have hrow := c.getSramCTRLInfo_row_lt hx
    rw [c.l2BankNumWords_eq] at hrow
    rw [c.l2BankAddrWidth_eq, slice_eq_self hrow]
  have hlane : slice (x + i) 0 c.l2BankByteOffset = (x + i) % 2 ^ c.eBits := by
    rw [c.l2BankByteOffset_eq, slice, Nat.pow_zero, Nat.div_one]
  simp only [L2Params.readByte, hrel, haddr, hlane, hst.cachedRow, if_neg (Nat.not_le.mpr hbank)]
  refine ⟨_, ?_, rfl⟩
  intro bank addr row heq
  cases heq
  rfl

theorem foldlM_readByte (sram : Nat → Nat → Row) {x n : Nat} (hx : x + n ≤ 2 ^ c.lBits) :
    ∃ cached, Cached sram cached ∧
      (List.range n).foldlM (c.readByte sram (L2Params.l2MemoryBaseAddr + x)) ⟨none, []⟩ =
        some ⟨cached, (List.range n).map fun i => c.sramByte sram (x + i)⟩ := by
  induction n with
  | zero => exact ⟨none, nofun, rfl⟩
  | succ n ih =>
      obtain ⟨cached, hcached, hn⟩ := ih (by omega)
      obtain ⟨cached', hcached', hbyte⟩ := readByte_eq (c := c) (x := x) (i := n) (by omega)
        (show Cached sram (L2Params.ReadState.mk cached
          ((List.range n).map fun i => c.sramByte sram (x + i))).cached from hcached)
      refine ⟨cached', hcached', ?_⟩
      rw [List.range_succ, List.foldlM_append, hn, List.map_append]
      rw [Option.bind_eq_bind, Option.bind_some, List.foldlM_cons, hbyte]
      rfl

theorem l2MemoryEndAddr_eq (hsize : c.l2Size < 2 ^ 31) :
    c.l2MemoryEndAddr = L2Params.l2MemoryBaseAddr + c.l2Size := by
  rw [L2Params.l2MemoryEndAddr, L2Params.l2MemoryBaseAddr, L2Params.addrWidth]
  omega

/-- A range of an L2 that ends below the last address reads its bytes. -/
theorem readDpiCheckL2Bytes_eq (hsize : c.l2Size < 2 ^ 31) (sram : Nat → Nat → Row) {x n : Nat}
    (hx : x + n ≤ 2 ^ c.lBits) :
    c.readDpiCheckL2Bytes sram (L2Params.l2MemoryBaseAddr + x) n =
      some ((List.range n).map fun i => c.sramByte sram (x + i)) := by
  rw [L2Params.readDpiCheckL2Bytes]
  split
  next hn => rw [hn, List.range_zero, List.map_nil]
  next hn =>
    obtain ⟨cached, -, hread⟩ := foldlM_readByte sram hx
    have hend := l2MemoryEndAddr_eq hsize
    have hsum : (L2Params.l2MemoryBaseAddr + x + n) % 2 ^ L2Params.addrWidth =
        L2Params.l2MemoryBaseAddr + x + n := by
      rw [c.l2Size_eq] at hsize
      rw [L2Params.l2MemoryBaseAddr, L2Params.addrWidth]
      omega
    rw [← c.l2Size_eq] at hx
    simp only [hsum, hend]
    rw [if_neg (by omega), hread]
    rfl

/-- The end of an L2 up to the last address is zero, and no range passes the check. -/
theorem readDpiCheckL2Bytes_none (hsize : c.l2Size = 2 ^ 31) (sram : Nat → Nat → Row) {x n : Nat}
    (hn : 0 < n) : c.readDpiCheckL2Bytes sram (L2Params.l2MemoryBaseAddr + x) n = none := by
  have hend : c.l2MemoryEndAddr = 0 := by
    rw [L2Params.l2MemoryEndAddr, hsize]
    rfl
  rw [L2Params.readDpiCheckL2Bytes, if_neg (Nat.ne_of_gt hn)]
  simp only [hend]
  refine if_pos ?_
  rw [L2Params.l2MemoryBaseAddr, L2Params.addrWidth]
  omega

/-- Where the bank and its row agree with the package, the hardware reads the same byte. -/
theorem hardware_byte {m : AxiToMem c.toL2Params} (h : c.Agrees m) (sram : Nat → Nat → Row)
    {x : Nat} (hx : x < 2 ^ c.lBits) :
    let a := L2Params.l2MemoryBaseAddr + x
    sram (c.sramPlace m a).1 (c.sramPlace m a).2 (c.interleaveAddr a % c.l2BankBeWidth) =
      c.sramByte sram x := by
  have hsize : c.l2Size ≤ 2 ^ 28 := by
    by_contra hlarge
    exact c.not_agrees_of_large m (by omega) h
  have hlane : slice x 0 c.eBits = x % 2 ^ c.eBits := by rw [slice, Nat.pow_zero, Nat.div_one]
  intro a
  rw [h.sram a (c.base_add_mem hx), lane_eq hsize hx, hlane, Nat.add_sub_cancel_left, sramByte]

end L2Config

/-! ## Layouts -/

/-- Where a section is. -/
structure Extent where
  address : Nat
  length : Nat

def ElfSection.extent (s : ElfSection) : Extent := ⟨s.address, s.length⟩

/-- Sections inside the L2 that do not overlap, in the order of the file. -/
structure ElfLayout (c : L2Config) where
  extents : List Extent
  inside : ∀ e ∈ extents, L2Params.l2MemoryBaseAddr ≤ e.address ∧
    e.address + e.length ≤ L2Params.l2MemoryBaseAddr + c.l2Size
  apart : extents.Pairwise fun e e' =>
    e.address + e.length ≤ e'.address ∨ e'.address + e'.length ≤ e.address

/-- The testbench and the hardware read the bytes of every section. -/
structure ReadsBack (c : L2Config) (sections : List ElfSection) (sram : Nat → Nat → Row) :
    Prop where
  testbench : ∀ s ∈ sections, ∀ k n, k + n ≤ s.length →
    c.readDpiCheckL2Bytes sram (s.address + k) n = some ((List.range n).map fun i => s.byte (k + i))
  hardware : ∀ m : AxiToMem c.toL2Params, c.Agrees m → ∀ s ∈ sections, ∀ k < s.length,
    sram (c.sramPlace m (s.address + k)).1 (c.sramPlace m (s.address + k)).2
      (c.interleaveAddr (s.address + k) % c.l2BankBeWidth) = s.byte k

/-- Whatever the sections hold and the memory held, they can be read back. -/
def ElfLayout.Preloads {c : L2Config} (l : ElfLayout c) (t : TcSram c.toL2Params) : Prop :=
  ∀ sections, sections.map ElfSection.extent = l.extents → ∀ initVal,
    ReadsBack c sections (preloadedSram t sections initVal)

/-- The L2 ends below the last address, sections start with a bank word, and what a
section is padded with is clear of the sections before it. -/
structure ElfLayout.Loadable {c : L2Config} (l : ElfLayout c) : Prop where
  below : ∀ e ∈ l.extents, 0 < e.length → c.l2Size < 2 ^ 31
  aligned : ∀ e ∈ l.extents, 0 < e.length → c.l2BankBeWidth ∣ e.address
  clear : l.extents.Pairwise fun e e' => ∀ a, e.address ≤ a → a < e.address + e.length →
    ¬ (e'.address ≤ a ∧ a < e'.address + c.paddedLength e'.length)

namespace L2Config

variable {c : L2Config} {s : ElfSection} {o x : Nat}

/-- The words of an aligned section are those of its padded range. -/
theorem word_written_of_aligned (ho : s.address = L2Params.l2MemoryBaseAddr + o)
    (hfits : o + s.length ≤ 2 ^ c.lBits) (hx : x < 2 ^ c.lBits) (halign : 2 ^ c.eBits ∣ o)
    (hend : s.address < c.l2MemoryEndAddr) :
    (∃ w ∈ c.rowWrites (c.getSramCTRLInfo x).1 s, w.1 = (c.getSramCTRLInfo x).2) ↔
      o ≤ x ∧ x < o + c.paddedLength s.length := by
  have hpos := Nat.two_pow_pos c.eBits
  have hbe := c.l2BankBeWidth_eq
  have hpad : 2 ^ c.eBits ∣ c.paddedLength s.length := by
    rw [L2Params.paddedLength, c.l2BeWidth_eq, Nat.pow_add]
    exact Dvd.dvd.mul_left (Nat.dvd_mul_right ..) _
  have hword : ∀ j, (o + j * 2 ^ c.eBits) / 2 ^ c.eBits * 2 ^ c.eBits = o + j * 2 ^ c.eBits :=
    fun j => Nat.div_mul_cancel (Nat.dvd_add halign (Nat.dvd_mul_left ..))
  have hxword := Nat.div_add_mod' x (2 ^ c.eBits)
  have hxlane := Nat.mod_lt x hpos
  constructor
  · rintro ⟨w, hw, hrow⟩
    obtain ⟨-, j, hj, heq, -⟩ := (word_written ho hfits hx).mp ⟨hw, hrow⟩
    rw [hbe] at hj heq
    have hj' : j * 2 ^ c.eBits + 2 ^ c.eBits ≤ c.paddedLength s.length := by
      obtain ⟨r, hr⟩ := hpad
      rw [hr, Nat.mul_comm _ r] at hj ⊢
      rw [← Nat.succ_mul]
      exact Nat.mul_le_mul_right _ (Nat.lt_of_mul_lt_mul_right hj)
    have := hword j
    rw [heq] at this
    omega
  · rintro ⟨hlo, hhi⟩
    have hj := Nat.div_mul_le_self (x - o) (2 ^ c.eBits)
    have heq : (o + (x - o) / 2 ^ c.eBits * 2 ^ c.eBits) / 2 ^ c.eBits = x / 2 ^ c.eBits := by
      obtain ⟨q, rfl⟩ := halign
      have hq : q ≤ x / 2 ^ c.eBits := by
        rw [Nat.le_div_iff_mul_le hpos, Nat.mul_comm]
        exact hlo
      rw [Nat.sub_mul_div, Nat.mul_comm _ (2 ^ c.eBits), ← Nat.mul_add,
        Nat.mul_div_cancel_left _ hpos]
      omega
    refine ⟨_, (word_written ho hfits hx).mpr ⟨hend, (x - o) / 2 ^ c.eBits, ?_, ?_, rfl⟩⟩
    · rw [hbe]
      omega
    · rw [hbe]
      exact heq

/-- What a section writes to a word is its bytes, from where the turn starts. -/
theorem written_byte (ho : s.address = L2Params.l2MemoryBaseAddr + o)
    (hfits : o + s.length ≤ 2 ^ c.lBits) (hx : x < 2 ^ c.lBits) {w : Nat × Row}
    (hw : w ∈ c.rowWrites (c.getSramCTRLInfo x).1 s) (hrow : w.1 = (c.getSramCTRLInfo x).2) :
    ∃ j, (o + j * 2 ^ c.eBits) / 2 ^ c.eBits = x / 2 ^ c.eBits ∧
      w.2 (x % 2 ^ c.eBits) = s.byte (j * 2 ^ c.eBits + x % 2 ^ c.eBits) := by
  have hbe := c.l2BankBeWidth_eq
  obtain ⟨-, j, -, heq, rfl⟩ := (word_written ho hfits hx).mp ⟨hw, hrow⟩
  rw [hbe] at heq
  refine ⟨j, heq, ?_⟩
  show c.memRow (c.sectionBuffer s) (j * c.l2BankBeWidth) (x % 2 ^ c.eBits) = _
  rw [L2Params.memRow_sectionBuffer (by rw [hbe]; exact Nat.mod_lt _ (Nat.two_pow_pos _)), hbe]

theorem sramByte_preloaded (t : TcSram c.toL2Params) (sections : List ElfSection)
    (initVal : Nat → Nat → Row) (hx : x < 2 ^ c.lBits) :
    c.sramByte (preloadedSram t sections initVal) x =
      replay (initVal (c.getSramCTRLInfo x).1)
        (sections.flatMap (c.rowWrites (c.getSramCTRLInfo x).1)) (c.getSramCTRLInfo x).2
        (x % 2 ^ c.eBits) := by
  rw [sramByte, preloadedSram_eq t sections initVal hx]

end L2Config

namespace ElfLayout

variable {c : L2Config} {l : ElfLayout c} {sections : List ElfSection}

/-- The offset of a section in the L2. -/
theorem offset {e : Extent} (he : e ∈ l.extents) : ∃ o,
    e.address = L2Params.l2MemoryBaseAddr + o ∧ o + e.length ≤ 2 ^ c.lBits := by
  obtain ⟨hlo, hhi⟩ := l.inside e he
  rw [c.l2Size_eq] at hhi
  exact ⟨e.address - L2Params.l2MemoryBaseAddr, by omega, by omega⟩

theorem extent_mem (hmap : sections.map ElfSection.extent = l.extents) {s : ElfSection}
    (hs : s ∈ sections) : s.extent ∈ l.extents := hmap ▸ List.mem_map_of_mem hs

theorem base_dvd : 2 ^ c.eBits ∣ L2Params.l2MemoryBaseAddr := by
  have h31 := c.lBits_le
  have hl := c.lBits_eq
  exact Nat.pow_dvd_pow 2 (show c.eBits ≤ 31 by omega)

theorem offset_dvd_iff {e : Extent} {o : Nat} (ho : e.address = L2Params.l2MemoryBaseAddr + o) :
    c.l2BankBeWidth ∣ e.address ↔ 2 ^ c.eBits ∣ o := by
  rw [c.l2BankBeWidth_eq, ho]
  exact (Nat.dvd_add_iff_right base_dvd).symm

theorem paddedLength_zero : c.paddedLength 0 = 0 := by
  have hwidth := Nat.two_pow_pos (c.eBits + c.kBits)
  rw [L2Params.paddedLength, c.l2BeWidth_eq, Nat.div_eq_of_lt (by omega), Nat.zero_mul]

/-- In a loadable layout a section writes the words of its padded range. -/
theorem Loadable.written_iff (h : l.Loadable) {s : ElfSection} (hs : s.extent ∈ l.extents)
    {o x : Nat} (ho : s.address = L2Params.l2MemoryBaseAddr + o) (hx : x < 2 ^ c.lBits) :
    (∃ w ∈ c.rowWrites (c.getSramCTRLInfo x).1 s, w.1 = (c.getSramCTRLInfo x).2) ↔
      o ≤ x ∧ x < o + c.paddedLength s.length := by
  rcases Nat.eq_zero_or_pos s.length with hempty | hpos
  · have hpad : c.paddedLength s.length = 0 := by rw [hempty, paddedLength_zero]
    constructor
    · rintro ⟨w, hw, -⟩
      obtain ⟨-, j, hj, -⟩ := (L2Params.mem_rowWrites c.l2BankBeWidth_pos).mp hw
      omega
    · omega
  · obtain ⟨o', ho', hfits⟩ := offset hs
    have hoo : o' = o := by
      change s.address = _ at ho'
      omega
    subst hoo
    have hend := L2Config.l2MemoryEndAddr_eq (h.below _ hs hpos)
    have hlt := c.l2Size_eq
    change o' + s.length ≤ 2 ^ c.lBits at hfits
    exact L2Config.word_written_of_aligned ho' hfits hx
      ((offset_dvd_iff ho').mp (h.aligned _ hs hpos)) (by omega)

/-- In a loadable layout the last write to a word of a section is the section's own. -/
theorem Loadable.byte (h : l.Loadable) (t : TcSram c.toL2Params)
    (hmap : sections.map ElfSection.extent = l.extents) (initVal : Nat → Nat → Row)
    {s : ElfSection} (hs : s ∈ sections) {o k : Nat}
    (ho : s.address = L2Params.l2MemoryBaseAddr + o) (hfits : o + s.length ≤ 2 ^ c.lBits)
    (hk : k < s.length) :
    c.sramByte (preloadedSram t sections initVal) (o + k) = s.byte k := by
  have hx : o + k < 2 ^ c.lBits := by omega
  have hown := extent_mem hmap hs
  obtain ⟨l₁, l₂, rfl⟩ := List.append_of_mem hs
  have hlater : ∀ w ∈ l₂.flatMap (c.rowWrites (c.getSramCTRLInfo (o + k)).1),
      w.1 ≠ (c.getSramCTRLInfo (o + k)).2 := by
    intro w hw hrow
    obtain ⟨s', hs', hw⟩ := List.mem_flatMap.mp hw
    have hmem := extent_mem hmap (List.mem_append_right _ (List.mem_cons_of_mem _ hs'))
    obtain ⟨o', ho', -⟩ := offset hmem
    have hin := (h.written_iff hmem ho' hx).mp ⟨w, hw, hrow⟩
    have hclear := h.clear
    rw [← hmap, List.pairwise_map] at hclear
    have hapart := (List.pairwise_cons.mp (List.pairwise_append.mp hclear).2.1).1 s' hs'
    change s'.address = _ at ho'
    exact hapart (s.address + k) (Nat.le_add_right ..) (Nat.add_lt_add_left hk _)
      ⟨by show s'.address ≤ _; omega, by show _ < s'.address + c.paddedLength s'.length; omega⟩
  have hwritten := (h.written_iff hown ho hx).mpr
    ⟨Nat.le_add_right .., Nat.add_lt_add_left (hk.trans_le L2Config.le_paddedLength) _⟩
  obtain ⟨w, hw, hrow, hval⟩ : ∃ w ∈ c.rowWrites (c.getSramCTRLInfo (o + k)).1 s,
      w.1 = (c.getSramCTRLInfo (o + k)).2 ∧ replay (initVal (c.getSramCTRLInfo (o + k)).1)
        (l₁.flatMap (c.rowWrites (c.getSramCTRLInfo (o + k)).1) ++
          c.rowWrites (c.getSramCTRLInfo (o + k)).1 s) (c.getSramCTRLInfo (o + k)).2 = w.2 :=
    replay_append_of_mem hwritten
  obtain ⟨j, hword, hbyte⟩ := L2Config.written_byte ho hfits hx hw hrow
  -- the turn that wrote the word is the one that starts at its first byte
  have hturn : j * 2 ^ c.eBits + (o + k) % 2 ^ c.eBits = k := by
    have halign := (offset_dvd_iff ho).mp (h.aligned _ hown (show 0 < s.length by omega))
    have hstart := Nat.div_mul_cancel
      (Nat.dvd_add halign (Nat.dvd_mul_left (2 ^ c.eBits) j))
    have hsplit := Nat.div_add_mod' (o + k) (2 ^ c.eBits)
    rw [hword] at hstart
    omega
  rw [L2Config.sramByte_preloaded t _ initVal hx, List.flatMap_append, List.flatMap_cons,
    ← List.append_assoc, replay_append_of_not_mem hlater, hval, hbyte, hturn]

theorem Loadable.preloads (h : l.Loadable) (t : TcSram c.toL2Params) : l.Preloads t := by
  intro sections hmap initVal
  constructor
  · intro s hs k n hkn
    obtain ⟨o, ho, hfits⟩ := offset (extent_mem hmap hs)
    change s.address = _ at ho
    change o + s.length ≤ _ at hfits
    rcases Nat.eq_zero_or_pos s.length with hempty | hpos
    · obtain rfl : n = 0 := by omega
      rw [L2Params.readDpiCheckL2Bytes, if_pos rfl]
      rfl
    · rw [ho, Nat.add_assoc, L2Config.readDpiCheckL2Bytes_eq (h.below _ (extent_mem hmap hs) hpos)
        _ (by omega)]
      refine congrArg some (List.map_congr_left fun i hi => ?_)
      rw [List.mem_range] at hi
      rw [Nat.add_assoc, h.byte t hmap initVal hs ho hfits (by omega)]
  · intro m hm s hs k hk
    obtain ⟨o, ho, hfits⟩ := offset (extent_mem hmap hs)
    change s.address = _ at ho
    change o + s.length ≤ _ at hfits
    have hbyte := L2Config.hardware_byte hm (preloadedSram t sections initVal) (x := o + k)
      (by omega)
    rw [ho, Nat.add_assoc]
    exact hbyte.trans (h.byte t hmap initVal hs ho hfits hk)

/-! ## One byte that is not zero

A layout that is read back for all contents is read back when one byte of one section is
one and all else is zero. Then the last write to the byte's word is of that section, and
puts that byte in its lane. -/

/-- A section of zeros. -/
def blank (e : Extent) : ElfSection := ⟨e.address, e.length, [], Nat.zero_le _⟩

/-- A section of zeros but for byte `k`. -/
def spot (e : Extent) (k : Nat) (hk : k < e.length) : ElfSection where
  address := e.address
  length := e.length
  data := List.replicate k 0 ++ [1]
  filesz_le := by
    rw [List.length_append, List.length_replicate]
    exact hk

theorem blank_byte (e : Extent) (k : Nat) : (blank e).byte k = 0 := rfl

theorem spot_byte {e : Extent} {k : Nat} (hk : k < e.length) (i : Nat) :
    (spot e k hk).byte i = if i = k then 1 else 0 := by
  rw [ElfSection.byte, spot, List.getD_eq_getElem?_getD, List.getElem?_append,
    List.length_replicate]
  split
  next hlt =>
    rw [List.getElem?_replicate, if_pos hlt, if_neg (by omega)]
    rfl
  next hge =>
    by_cases hik : i = k
    · rw [hik, Nat.sub_self, if_pos rfl]
      rfl
    · rw [List.getElem?_eq_none (by simp; omega), if_neg hik]
      rfl

def spotted (l₁ l₂ : List Extent) (e : Extent) (k : Nat) (hk : k < e.length) : List ElfSection :=
  l₁.map blank ++ spot e k hk :: l₂.map blank

theorem spotted_extents {l₁ l₂ : List Extent} {e : Extent} {k : Nat} (hk : k < e.length) :
    (spotted l₁ l₂ e k hk).map ElfSection.extent = l₁ ++ e :: l₂ := by
  have hblank : ∀ l : List Extent, (l.map blank).map ElfSection.extent = l := by
    intro l
    rw [List.map_map]
    exact List.map_id l
  rw [spotted, List.map_append, List.map_cons, hblank, hblank]
  rfl

theorem Preloads.below {t : TcSram c.toL2Params} (h : l.Preloads t) {e : Extent}
    (he : e ∈ l.extents) (hpos : 0 < e.length) : c.l2Size < 2 ^ 31 := by
  by_contra hlarge
  have h31 := c.pow_le_31
  have hsize : c.l2Size = 2 ^ 31 := by
    rw [c.l2Size_eq] at hlarge ⊢
    omega
  obtain ⟨o, ho, -⟩ := offset he
  obtain ⟨l₁, l₂, hl⟩ := List.append_of_mem he
  have hread := (h (spotted l₁ l₂ e 0 hpos) ((spotted_extents hpos).trans hl.symm)
    (fun _ _ _ => 0)).testbench (spot e 0 hpos) (by simp [spotted]) 0 1 hpos
  change c.readDpiCheckL2Bytes _ e.address 1 = _ at hread
  rw [ho, L2Config.readDpiCheckL2Bytes_none hsize _ Nat.one_pos] at hread
  cases hread

/-- The byte that is not zero is read back. -/
theorem Preloads.spot_eq {t : TcSram c.toL2Params} (h : l.Preloads t) {l₁ l₂ : List Extent}
    {e : Extent} (hl : l.extents = l₁ ++ e :: l₂) {o k : Nat}
    (ho : e.address = L2Params.l2MemoryBaseAddr + o) (hfits : o + e.length ≤ 2 ^ c.lBits)
    (hk : k < e.length) :
    replay (fun _ _ => 0) ((spotted l₁ l₂ e k hk).flatMap
      (c.rowWrites (c.getSramCTRLInfo (o + k)).1)) (c.getSramCTRLInfo (o + k)).2
      ((o + k) % 2 ^ c.eBits) = 1 := by
  have he : e ∈ l.extents := hl ▸ List.mem_append_right _ List.mem_cons_self
  have hread := (h (spotted l₁ l₂ e k hk) ((spotted_extents hk).trans hl.symm)
    (fun _ _ _ => 0)).testbench (spot e k hk) (by simp [spotted]) k 1 hk
  change c.readDpiCheckL2Bytes _ (e.address + k) 1 = _ at hread
  rw [ho, Nat.add_assoc, L2Config.readDpiCheckL2Bytes_eq (h.below he (by omega)) _ (by omega)]
    at hread
  have hbyte := List.head_eq_of_cons_eq (Option.some.inj hread)
  change c.sramByte _ (o + k) = (spot e k hk).byte k at hbyte
  rw [spot_byte, if_pos rfl, L2Config.sramByte_preloaded t _ _ (by omega)] at hbyte
  exact hbyte

theorem spotted_cases {l₁ l₂ : List Extent} {e : Extent} {k : Nat} {hk : k < e.length}
    {s : ElfSection} (hs : s ∈ spotted l₁ l₂ e k hk) :
    (∃ e' ∈ l₁ ++ e :: l₂, s = blank e') ∨ s = spot e k hk := by
  rw [spotted, List.mem_append, List.mem_cons, List.mem_map, List.mem_map] at hs
  rcases hs with ⟨e', he', rfl⟩ | rfl | ⟨e', he', rfl⟩
  · exact .inl ⟨e', List.mem_append_left _ he', rfl⟩
  · exact .inr rfl
  · exact .inl ⟨e', List.mem_append_right _ (List.mem_cons_of_mem _ he'), rfl⟩

/-- A section of zeros writes zeros. -/
theorem blank_written {e : Extent} (he : e ∈ l.extents) {x : Nat} (hx : x < 2 ^ c.lBits)
    {w : Nat × Row} (hw : w ∈ c.rowWrites (c.getSramCTRLInfo x).1 (blank e))
    (hrow : w.1 = (c.getSramCTRLInfo x).2) : w.2 (x % 2 ^ c.eBits) = 0 := by
  obtain ⟨o, ho, hfits⟩ := offset he
  obtain ⟨j, -, hbyte⟩ := L2Config.written_byte (s := blank e) ho hfits hx hw hrow
  rw [hbyte, blank_byte]

theorem Preloads.aligned {t : TcSram c.toL2Params} (h : l.Preloads t) {e : Extent}
    (he : e ∈ l.extents) (hpos : 0 < e.length) : c.l2BankBeWidth ∣ e.address := by
  obtain ⟨o, ho, hfits⟩ := offset he
  obtain ⟨l₁, l₂, hl⟩ := List.append_of_mem he
  have hx : o < 2 ^ c.lBits := by omega
  have hone := h.spot_eq hl ho hfits hpos
  rw [Nat.add_zero] at hone
  by_cases hwritten : ∃ w ∈ (spotted l₁ l₂ e 0 hpos).flatMap
      (c.rowWrites (c.getSramCTRLInfo o).1), w.1 = (c.getSramCTRLInfo o).2
  · obtain ⟨w, hw, hrow, hval⟩ := replay_of_mem (m := fun _ _ => (0 : Byte)) hwritten
    rw [hval] at hone
    obtain ⟨s, hs, hw⟩ := List.mem_flatMap.mp hw
    rcases spotted_cases hs with ⟨e', he', rfl⟩ | rfl
    · rw [blank_written (hl ▸ he') hx hw hrow] at hone
      exact absurd hone (by decide)
    · obtain ⟨j, -, hbyte⟩ := L2Config.written_byte (s := spot e 0 hpos) ho hfits hx hw hrow
      rw [hbyte, spot_byte] at hone
      split at hone
      next hzero =>
        rw [offset_dvd_iff ho]
        exact Nat.dvd_of_mod_eq_zero (by omega)
      next => exact absurd hone (by decide)
  · rw [replay_of_not_mem fun w hw hrow => hwritten ⟨w, hw, hrow⟩] at hone
    exact absurd hone (by decide)

theorem Preloads.clear {t : TcSram c.toL2Params} (h : l.Preloads t) {l₁ l₂ : List Extent}
    {e e' : Extent} (hl : l.extents = l₁ ++ e :: l₂) (he' : e' ∈ l₂) {a : Nat}
    (hlo : e.address ≤ a) (hhi : a < e.address + e.length) :
    ¬ (e'.address ≤ a ∧ a < e'.address + c.paddedLength e'.length) := by
  rintro ⟨hlo', hhi'⟩
  have hmem : ∀ e'' ∈ l₂, e'' ∈ l.extents := fun e'' he'' =>
    hl ▸ List.mem_append_right _ (List.mem_cons_of_mem _ he'')
  obtain ⟨o, ho, hfits⟩ := offset (hl ▸ List.mem_append_right _ List.mem_cons_self)
  obtain ⟨o', ho', hfits'⟩ := offset (hmem e' he')
  have hpos : 0 < e'.length := by
    by_contra hzero
    rw [show e'.length = 0 by omega, paddedLength_zero] at hhi'
    omega
  have hend := L2Config.l2MemoryEndAddr_eq (h.below (hmem e' he') hpos)
  have hlt := c.l2Size_eq
  obtain ⟨k, rfl⟩ : ∃ k, a = e.address + k := ⟨a - e.address, by omega⟩
  have hk : k < e.length := by omega
  have hx : o + k < 2 ^ c.lBits := by omega
  have hone := h.spot_eq hl ho hfits hk
  -- the later section writes the word, and every later write is of zeros
  have hwritten : ∃ w ∈ (l₂.map blank).flatMap (c.rowWrites (c.getSramCTRLInfo (o + k)).1),
      w.1 = (c.getSramCTRLInfo (o + k)).2 := by
    obtain ⟨w, hw, hrow⟩ := (L2Config.word_written_of_aligned (s := blank e') ho' hfits' hx
      ((offset_dvd_iff ho').mp (h.aligned (hmem e' he') hpos))
      (show e'.address < _ by omega)).mpr
      ⟨by omega, by show _ < o' + c.paddedLength e'.length; omega⟩
    exact ⟨w, List.mem_flatMap.mpr ⟨blank e', List.mem_map_of_mem he', hw⟩, hrow⟩
  rw [spotted, ← List.singleton_append, ← List.append_assoc, List.flatMap_append] at hone
  obtain ⟨w, hw, hrow, hval⟩ := replay_append_of_mem (m := fun _ _ => (0 : Byte)) hwritten
  rw [hval] at hone
  obtain ⟨s, hs, hw⟩ := List.mem_flatMap.mp hw
  obtain ⟨e'', he'', rfl⟩ := List.mem_map.mp hs
  rw [blank_written (hmem e'' he'') hx hw hrow] at hone
  exact absurd hone (by decide)

theorem Preloads.loadable {t : TcSram c.toL2Params} (h : l.Preloads t) : l.Loadable where
  below _ he hpos := h.below he hpos
  aligned _ he hpos := h.aligned he hpos
  clear := pairwise_of_split fun _ _ _ hl _ he' _ hlo hhi => h.clear hl he' hlo hhi

end ElfLayout

/-- The preload puts every byte where it is read exactly if the sections start with a bank
word, none is padded over an earlier one, and the L2 does not end with the last address. -/
theorem l2_preload_iff {c : L2Config} (l : ElfLayout c) (t : TcSram c.toL2Params) :
    l.Preloads t ↔ l.Loadable :=
  ⟨ElfLayout.Preloads.loadable, fun h => h.preloads t⟩

/-- An L2 of 4 MiB in four banks with 512-bit words and chunks of 1 KiB. -/
def mempoolL2 : L2Config where
  l2Size := 0x400000
  numL2Banks := 4
  axiDataWidth := 512
  interleave := 16
  size_pow := (congrArg (2 ^ ·) (clog2_pow 22)).symm
  banks_pow := (congrArg (2 ^ ·) (clog2_pow 2)).symm
  width_pow := L2Config.largeL2.width_pow
  interleave_pow := L2Config.largeL2.interleave_pow
  banks_two := by decide
  chunks_lt := by decide
  size_fits := by decide

/-- One byte, 16 bytes into a bank word. -/
def shiftedLayout : ElfLayout mempoolL2 where
  extents := [⟨0x80000010, 1⟩]
  inside := by decide
  apart := List.pairwise_singleton _ _

/-- The byte is put in lane 0 and looked for in lane 16. -/
theorem shiftedLayout_misplaced :
    ¬ shiftedLayout.Preloads ⟨fun initVal => initVal, fun _ _ _ => rfl⟩ := by
  intro h
  have hread := (h [⟨0x80000010, 1, [7], by decide⟩] rfl (fun _ _ _ => 0)).testbench _
    List.mem_cons_self 0 1 (by decide)
  exact absurd hread (by decide +kernel)

end TeraNoC.Hw
