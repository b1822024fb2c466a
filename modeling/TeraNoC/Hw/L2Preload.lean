import TeraNoC.Hw.L2

/-!
# Preloading and checking the L2 (`mempool_tb.sv`)

Before reset the testbench writes the sections of an ELF file to the `init_val` of the
SRAM banks, each bank on its own, a bank row at a time. After the run it reads ranges
of the L2 back, a byte at a time.

Every bank asks the loader for the file again, and the loader appends the same sections
to the ones it has already handed out, so all banks see the same list.
-/

namespace TeraNoC.Hw

open TeraNoC.Lib

abbrev Byte := BitVec 8

/-- A row of a bank, by byte lanes. -/
abbrev Row := Nat → Byte

/-- What `get_section` and `read_section` say of a segment: `p_memsz` bytes, of which the
file holds the first. -/
structure ElfSection where
  address : Nat
  length : Nat
  data : List Byte
  filesz_le : data.length ≤ length

/-- The segment's byte `k`: zero where the file holds nothing. -/
def ElfSection.byte (s : ElfSection) (k : Nat) : Byte := s.data.getD k 0

/-- `sram_q` and `init_val` of `tc_sram` (a dependency): reset loads the rows. -/
structure TcSram (p : L2Params) where
  reset : (Nat → Row) → Nat → Row
  reset_row : ∀ initVal row, row < p.l2BankNumWords → reset initVal row = initVal row

/-- The loop variable's values of `for (i = 0; i < n; i += step)`. -/
def forValues (n step : Nat) : List Nat := List.range' 0 ((n + step - 1) / step) step

namespace L2Params

variable (p : L2Params)

def l2MemoryEndAddr : Nat := (l2MemoryBaseAddr + p.l2Size) % 2 ^ addrWidth

/-- Bytes of a row of all banks. -/
def l2BeWidth : Nat := p.axiDataWidth * p.numL2Banks / 8

/-- An address less the base, as an `addr_t`. -/
def relAddr (addr : Nat) : Nat := (addr + (2 ^ addrWidth - l2MemoryBaseAddr)) % 2 ^ addrWidth

/-! ## `gen_srams_init` -/

/-- The buffer's size: the section, padded to whole rows of all banks. -/
def paddedLength (length : Nat) : Nat := (length + p.l2BeWidth - 1) / p.l2BeWidth * p.l2BeWidth

def sectionBuffer (s : ElfSection) : List Byte :=
  s.data ++ List.replicate (p.paddedLength s.length - s.data.length) 0

def memRow (buffer : List Byte) (i : Nat) : Row :=
  fun b => if b < p.l2BankBeWidth then buffer.getD (i + b) 0 else 0

/-- One turn of the loop over the buffer. A row that the bank does not have is not
written. -/
def initRow (bank address : Nat) (buffer : List Byte) (initVal : Nat → Row) (i : Nat) :
    Nat → Row :=
  let info := p.getSramCTRLInfo (relAddr (address + i))
  if info.1 = bank ∧ info.2 < p.l2BankNumWords then
    Function.update initVal info.2 (p.memRow buffer i)
  else initVal

def initSection (bank : Nat) (initVal : Nat → Row) (s : ElfSection) : Nat → Row :=
  if l2MemoryBaseAddr ≤ s.address ∧ s.address < p.l2MemoryEndAddr then
    (forValues (p.paddedLength s.length) p.l2BankBeWidth).foldl
      (p.initRow bank s.address (p.sectionBuffer s)) initVal
  else initVal

/-- `init_val` of the bank when its `l2_init` is done. -/
def l2Init (sections : List ElfSection) (bank : Nat) (initVal : Nat → Row) : Nat → Row :=
  sections.foldl (p.initSection bank) initVal

/-! ## `read_dpi_check_l2_bytes` -/

/-- The cached row with its bank and address, if there is one, and the bytes so far. -/
structure ReadState where
  cached : Option (Nat × Nat × Row)
  buffer : List Byte

def cachedRow (sram : Nat → Nat → Row) (bankId addr : Nat) : Option (Nat × Nat × Row) → Row
  | some (cachedBank, cachedAddr, row) =>
      if bankId = cachedBank ∧ addr = cachedAddr then row else sram bankId addr
  | none => sram bankId addr

/-- One byte; `none` is `$fatal`. -/
def readByte (sram : Nat → Nat → Row) (addr : Nat) (st : ReadState) (i : Nat) :
    Option ReadState :=
  let rel := relAddr ((addr + i) % 2 ^ addrWidth)
  let info := p.getSramCTRLInfo rel
  if p.numL2Banks ≤ info.1 then none
  else
    let row := cachedRow sram info.1 (slice info.2 0 p.l2BankAddrWidth) st.cached
    some { cached := some (info.1, slice info.2 0 p.l2BankAddrWidth, row)
           buffer := st.buffer ++ [row (slice rel 0 p.l2BankByteOffset)] }

def readDpiCheckL2Bytes (sram : Nat → Nat → Row) (addr length : Nat) : Option (List Byte) :=
  if length = 0 then some []
  else
    let endAddr := (addr + length) % 2 ^ addrWidth
    if addr < l2MemoryBaseAddr ∨ endAddr < addr ∨ p.l2MemoryEndAddr < endAddr then none
    else ((List.range length).foldlM (p.readByte sram addr) ⟨none, []⟩).map (·.buffer)

end L2Params

/-- The banks after reset. -/
def preloadedSram {p : L2Params} (t : TcSram p) (sections : List ElfSection)
    (initVal : Nat → Nat → Row) (bank : Nat) : Nat → Row :=
  t.reset (p.l2Init sections bank (initVal bank))

end TeraNoC.Hw
