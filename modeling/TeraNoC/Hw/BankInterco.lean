import TeraNoC.Hw.Pkg

/-!
# Bank selection of a tile (`mempool_tcdm_bank_interco`)

The two placements of the tile's bank interconnect, as the source writes them:
the bank a narrow request is steered to, and the rotation that spreads the
words of a wide request over the banks of its superbank. Both add the row
slice above the bank id to the low bank-id bits; that they describe one
placement is a theorem, not a definition (`Proofs.BankPlacement`).
-/

namespace TeraNoC.Hw

open TeraNoC.Lib

structure IntercoParams where
  numBanksPerTile : Nat
  numSuperbanks : Nat
  spmBankIdRemap : Bool

namespace IntercoParams

variable (q : IntercoParams)

def numBanksPerSB : Nat := q.numBanksPerTile / q.numSuperbanks
def bankOffsetBits : Nat := clog2 q.numBanksPerTile
def bankIdLoBits : Nat := clog2 q.numBanksPerSB
def sbSelBits : Nat := if q.numSuperbanks > 1 then clog2 q.numSuperbanks else 1
def rotBits : Nat := if q.numBanksPerSB > 1 then clog2 q.numBanksPerSB else 1
def bankRemapShiftAmt : Nat := q.bankIdLoBits

/-- `gen_narrow_sel`: the bank a narrow request goes to. -/
def narrowSel (tgtAddr : Nat) : Nat :=
  let rawLo := slice tgtAddr 0 q.bankIdLoBits
  let newLo :=
    if q.spmBankIdRemap then
      let offsetLo := slice tgtAddr q.bankOffsetBits q.bankRemapShiftAmt
      (rawLo + offsetLo) % 2 ^ q.bankIdLoBits
    else rawLo
  if q.numSuperbanks > 1 then
    concat (slice tgtAddr q.bankIdLoBits (q.bankOffsetBits - q.bankIdLoBits))
      newLo q.bankIdLoBits
  else newLo

/-- The select of `i_wide_req_demux`: the superbank of a wide request. -/
def wideSel (tgtAddr : Nat) : Nat :=
  if q.numSuperbanks > 1 then slice tgtAddr q.bankIdLoBits q.sbSelBits else 0

/-- `req_rot` of `gen_sb`: how far the words of a wide request are rotated. -/
def reqRot (tgtAddr : Nat) : Nat :=
  if q.numBanksPerSB > 1 then
    let rawLo := slice tgtAddr 0 q.bankIdLoBits
    let postLo :=
      if q.spmBankIdRemap then
        let offLo := slice tgtAddr q.bankOffsetBits q.bankRemapShiftAmt
        (rawLo + offLo) % 2 ^ q.bankIdLoBits
      else rawLo
    postLo % 2 ^ q.rotBits
  else 0

/-- The word of the wide data that port `b` of a superbank carries. -/
def wideWord (rot b : Nat) : Nat := (b + q.numBanksPerSB - rot) % q.numBanksPerSB

def globalBank (d b : Nat) : Nat := d * q.numBanksPerSB + b

/-- The bank that word `j` of a wide request goes to: the port of its superbank
that carries the word. -/
def wideBank (tgtAddr j : Nat) : Nat :=
  q.globalBank (q.wideSel tgtAddr)
    (((List.range q.numBanksPerSB).find?
      fun b => q.wideWord (q.reqRot tgtAddr) b == j).getD 0)

end IntercoParams

/-- The instance `i_tcdm_bank_interco` of a tile. -/
def Params.bankInterco (p : Params) : IntercoParams where
  numBanksPerTile := p.numBanksPerTile
  numSuperbanks := p.numSuperbanks
  spmBankIdRemap := p.spmBankIdRemap

end TeraNoC.Hw
