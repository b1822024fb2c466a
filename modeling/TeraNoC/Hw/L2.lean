import TeraNoC.Lib.Bits

/-!
# The L2 memory behind the AXI network

The L2 is one address range split over banks. The cores and DMAs use plain
addresses; `axi_L2_interleaver` permutes the bits of every address that enters
the AXI network, so that consecutive chunks of `L2BankBeWidth * Interleave`
bytes land in consecutive banks, and the network routes the result to the bank
that owns its part of the range. `mempool_system` then reads a bank-local row
off the address (`tc_sram` banks) or undoes the permutation (DRAM
controllers). The testbench never sees any of this: it preloads and checks the
memories through `getSramCTRLInfo` and `getDramCTRLInfo`, which compute the
place of a byte on their own.

`L2Params` holds the macros `mempool_pkg.sv` reads, with the package's own
integer divisions; `L2Config` is a geometry in which they are powers of two.
-/

namespace TeraNoC.Hw

open TeraNoC.Lib

structure L2Params where
  /-- `L2_SIZE`, in bytes. -/
  l2Size : Nat
  /-- `L2_BANKS`, which is also the number of DRAM controllers. -/
  numL2Banks : Nat
  axiDataWidth : Nat
  /-- `AXI_WIDTH_INTERLEAVED`: beats of one chunk. -/
  interleave : Nat

namespace L2Params

variable (p : L2Params)

def addrWidth : Nat := 32
def l2MemoryBaseAddr : Nat := 0x80000000

def l2BankSize : Nat := p.l2Size / p.numL2Banks
def l2BankBeWidth : Nat := p.axiDataWidth / 8
def l2BankNumWords : Nat := p.l2BankSize / p.l2BankBeWidth
def l2BankAddrWidth : Nat := clog2 p.l2BankNumWords
def l2AddrWidth : Nat := clog2 p.l2Size
def l2BankByteOffset : Nat := clog2 p.l2BankBeWidth

/-! ## The field widths

The interleaver, `mempool_system` and the two package functions each declare
these anew; the values are the same. `ConstantBits` of the package functions
is `LSBConstantBits`, their `ReminderBits` reaches up to the last address
bit. -/

def lsbConstantBits : Nat := clog2 (p.l2BankBeWidth * p.interleave)
def msbConstantBits : Nat := 32 - clog2 p.l2Size
def scrambleBits : Nat := if p.numL2Banks = 1 then 1 else clog2 p.numL2Banks
def reminderBits : Nat :=
  addrWidth - p.scrambleBits - p.lsbConstantBits - p.msbConstantBits
def pkgReminderBits : Nat := addrWidth - p.scrambleBits - p.lsbConstantBits

/-! ## The way of an address into the memory -/

/-- What `axi_L2_interleaver` does to the address of an AW or AR request. The
window is a pair of literals, not `L2Size`. -/
def interleaveAddr (addr : Nat) : Nat :=
  let lsbConst := slice addr 0 p.lsbConstantBits
  let msbConst := slice addr (addrWidth - p.msbConstantBits) p.msbConstantBits
  let scramble := slice addr p.lsbConstantBits p.scrambleBits
  let reminder := slice addr (p.scrambleBits + p.lsbConstantBits) p.reminderBits
  if 0x80000000 ≤ addr ∧ addr < 0x90000000 then
    concat (concat (concat msbConst scramble p.scrambleBits) reminder p.reminderBits)
      lsbConst p.lsbConstantBits
  else addr

/-- The bank that owns the address: the network gives every bank one part of
`L2BankSize` bytes of the range. -/
def l2BankOf (addr : Nat) : Nat := (addr - l2MemoryBaseAddr) / p.l2BankSize

/-- `bank_addr` of an SRAM bank, from the `L2AddrWidth`-bit memory address. -/
def bankAddr (memAddr : Nat) : Nat :=
  slice memAddr (clog2 (p.l2BankBeWidth - 1)) p.l2BankAddrWidth

/-- `addr_scrambler_reset`: the address a DRAM controller is given. -/
def scrambleResetAddr (addr : Nat) : Nat :=
  let lsbConst := slice addr 0 p.lsbConstantBits
  let msbAt (a : Nat) := slice a (addrWidth - p.msbConstantBits) p.msbConstantBits
  -- an unsigned subtraction on `MSBConstantBits` bits
  let msbConst := (msbAt addr + 2 ^ p.msbConstantBits - msbAt l2MemoryBaseAddr) %
    2 ^ p.msbConstantBits
  let reminder := slice addr p.lsbConstantBits p.reminderBits
  concat (concat msbConst reminder p.reminderBits) lsbConst p.lsbConstantBits

/-! ## Where the testbench looks -/

/-- `getDramCTRLInfo`: the controller and its local address. -/
def getDramCTRLInfo (addr : Nat) : Nat × Nat :=
  let reminderAddr := slice addr (addrWidth - p.pkgReminderBits) p.pkgReminderBits
  (slice addr p.lsbConstantBits p.scrambleBits,
    concat reminderAddr (slice addr 0 p.lsbConstantBits) p.lsbConstantBits %
      2 ^ addrWidth)

/-- `getSramCTRLInfo`: the bank and the row in it. -/
def getSramCTRLInfo (addr : Nat) : Nat × Nat :=
  (slice addr p.lsbConstantBits p.scrambleBits,
    if p.interleave = 1 then
      slice addr (p.l2BankByteOffset + p.scrambleBits)
        (addrWidth - (p.l2BankByteOffset + p.scrambleBits))
    else
      concat (slice addr (addrWidth - p.pkgReminderBits) p.pkgReminderBits)
        (slice addr p.l2BankByteOffset (p.lsbConstantBits - p.l2BankByteOffset))
        (p.lsbConstantBits - p.l2BankByteOffset))

end L2Params

/-- A geometry of powers of two with at least two banks and more than one row
of chunks, in the part of the 32-bit address space above the base. -/
structure L2Config extends L2Params where
  size_pow : l2Size = 2 ^ clog2 l2Size
  banks_pow : numL2Banks = 2 ^ clog2 numL2Banks
  width_pow : axiDataWidth = 8 * 2 ^ clog2 (axiDataWidth / 8)
  interleave_pow : interleave = 2 ^ clog2 interleave
  banks_two : 2 ≤ numL2Banks
  chunks_lt : numL2Banks * toL2Params.l2BankBeWidth * interleave < l2Size
  /-- The range ends inside the 32-bit addresses. -/
  size_fits : L2Params.l2MemoryBaseAddr + l2Size ≤ 2 ^ L2Params.addrWidth

/-- What `axi_to_mem` (a dependency) does to an address on its way to
`mem_addr`: it cuts it to `L2AddrWidth` bits and keeps the bank word it lies
in; the address of a whole word is passed on as it is. -/
structure AxiToMem (p : L2Params) where
  memAddr : Nat → Nat
  memAddr_word : ∀ a, memAddr a / p.l2BankBeWidth = a % p.l2Size / p.l2BankBeWidth
  memAddr_aligned : ∀ a, p.l2BankBeWidth ∣ a → memAddr a = a % p.l2Size

namespace L2Config

variable (c : L2Config)

/-! ## The exponents -/

/-- Bits of an address inside the L2. -/
def lBits : Nat := clog2 c.l2Size
/-- Bits of a bank index. -/
def kBits : Nat := clog2 c.numL2Banks
/-- Bits of a byte index within a bank word. -/
def eBits : Nat := clog2 (c.axiDataWidth / 8)
/-- Bits of a beat index within a chunk. -/
def iBits : Nat := clog2 c.interleave
/-- Bits of a chunk index within a bank. -/
def qBits : Nat := c.lBits - (c.kBits + (c.eBits + c.iBits))

theorem l2Size_eq : c.l2Size = 2 ^ c.lBits := c.size_pow

theorem numL2Banks_eq : c.numL2Banks = 2 ^ c.kBits := c.banks_pow

theorem interleave_eq : c.interleave = 2 ^ c.iBits := c.interleave_pow

theorem l2BankBeWidth_eq : c.l2BankBeWidth = 2 ^ c.eBits := by
  rw [L2Params.l2BankBeWidth, c.width_pow, Nat.mul_div_cancel_left _ (by omega)]
  rfl

theorem kBits_pos : 0 < c.kBits := by
  have h := c.banks_two
  rw [c.numL2Banks_eq] at h
  by_contra h0
  rw [show c.kBits = 0 by omega] at h
  omega

theorem fields_lt : c.kBits + (c.eBits + c.iBits) < c.lBits := by
  have h := c.chunks_lt
  rw [c.numL2Banks_eq, c.l2BankBeWidth_eq, c.interleave_eq, c.l2Size_eq, Nat.mul_assoc,
    ← Nat.pow_add, ← Nat.pow_add] at h
  exact (Nat.pow_lt_pow_iff_right (by omega)).mp h

theorem lBits_le : c.lBits ≤ 31 := by
  have h := c.size_fits
  rw [c.l2Size_eq, L2Params.l2MemoryBaseAddr, L2Params.addrWidth] at h
  have h31 : 2 ^ c.lBits ≤ 2 ^ 31 := by omega
  exact (Nat.pow_le_pow_iff_right (by omega)).mp h31

/-- The fields of an L2 address from the bottom: byte and beat of a chunk,
bank, chunk of the bank. -/
theorem lBits_eq : c.lBits = c.eBits + c.iBits + c.kBits + c.qBits := by
  have h := c.fields_lt
  rw [qBits]
  omega

theorem qBits_pos : 0 < c.qBits := by
  have h := c.fields_lt
  rw [qBits]
  omega

theorem lsbConstantBits_eq : c.lsbConstantBits = c.eBits + c.iBits := by
  rw [L2Params.lsbConstantBits, c.l2BankBeWidth_eq, c.interleave_eq, ← Nat.pow_add,
    clog2_pow]

theorem msbConstantBits_eq : c.msbConstantBits = 32 - c.lBits := rfl

theorem scrambleBits_eq : c.scrambleBits = c.kBits := by
  have h := c.banks_two
  rw [L2Params.scrambleBits, if_neg (by omega)]
  rfl

theorem reminderBits_eq : c.reminderBits = c.qBits := by
  have h := c.lBits_eq
  have h31 := c.lBits_le
  rw [L2Params.reminderBits, c.scrambleBits_eq, c.lsbConstantBits_eq,
    c.msbConstantBits_eq, L2Params.addrWidth]
  omega

theorem pkgReminderBits_eq : c.pkgReminderBits = 32 - (c.eBits + c.iBits + c.kBits) := by
  rw [L2Params.pkgReminderBits, c.scrambleBits_eq, c.lsbConstantBits_eq,
    L2Params.addrWidth]
  omega

theorem l2BankByteOffset_eq : c.l2BankByteOffset = c.eBits := by
  rw [L2Params.l2BankByteOffset, c.l2BankBeWidth_eq, clog2_pow]

theorem l2BankSize_eq : c.l2BankSize = 2 ^ (c.eBits + c.iBits + c.qBits) := by
  rw [L2Params.l2BankSize, c.l2Size_eq, c.numL2Banks_eq,
    Nat.pow_div (by rw [c.lBits_eq]; omega) (by omega)]
  congr 1
  rw [c.lBits_eq]
  omega

theorem l2BankAddrWidth_eq : c.l2BankAddrWidth = c.iBits + c.qBits := by
  rw [L2Params.l2BankAddrWidth, L2Params.l2BankNumWords, c.l2BankSize_eq,
    c.l2BankBeWidth_eq, Nat.pow_div (by omega) (by omega), clog2_pow]
  omega

end L2Config

end TeraNoC.Hw
