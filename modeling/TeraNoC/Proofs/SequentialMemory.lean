import TeraNoC.Proofs.TcdmAdapter

/-!
# Loads, stores and atomics of one bank

The adapter against the memory a programmer has in mind: `memExec` knows words,
byte enables and the RV32A operations, nothing else. Two things are left to do
after `Refines`: the ALU, which compares by the sign bit of a widened
difference, computes the RV32A results (`amoAlu_eq`); and on loads, stores and
atomics the reservation never matters (`specExec_plain`).
-/

namespace TeraNoC.Hw

open TeraNoC.Lib

/-! ## The RV32A operations -/

/-- The word an RV32A operation leaves in memory. -/
def rv32a (op : AmoOp) (old operand : Word) : Word :=
  match op with
  | .swap => operand
  | .add => old + operand
  | .and => old &&& operand
  | .or => old ||| operand
  | .xor => old ^^^ operand
  | .max => if old.toInt < operand.toInt then operand else old
  | .min => if old.toInt < operand.toInt then old else operand
  | .maxu => if old.toNat < operand.toNat then operand else old
  | .minu => if old.toNat < operand.toNat then old else operand
  | _ => old

theorem getLsbD_adderSum (a b : BitVec 33) :
    (adderSum a b).getLsbD 32 = decide ((a.toNat + b.toNat) / 2 ^ 32 % 2 = 1) := by
  have ha := a.isLt
  have hb := b.isLt
  have hsum : (a.toNat % 2 ^ 34 + b.toNat % 2 ^ 34) % 2 ^ 34 = a.toNat + b.toNat := by omega
  rw [adderSum, BitVec.getLsbD, BitVec.toNat_add, BitVec.toNat_setWidth, BitVec.toNat_setWidth,
    hsum, Nat.testBit_eq_decide_div_mod_eq]

theorem toNat_signExtend_33 (a : Word) :
    (a.signExtend 33).toNat = if a.toNat < 2 ^ 31 then a.toNat else a.toNat + 2 ^ 32 := by
  have ha := a.isLt
  rw [BitVec.toNat_signExtend, BitVec.toNat_setWidth, BitVec.msb_eq_decide]
  by_cases h : a.toNat < 2 ^ 31
  · rw [if_pos h]
    simp only [show ¬ 2 ^ (32 - 1) ≤ a.toNat by omega, decide_false, Bool.false_eq_true,
      if_false]
    omega
  · rw [if_neg h]
    simp only [show 2 ^ (32 - 1) ≤ a.toNat by omega, decide_true, if_true]
    omega

/-- The sign bit of the widened signed difference. -/
theorem signed_less (a b : Word) :
    (adderSum (a.signExtend 33) (-(b.signExtend 33))).getLsbD 32
      = decide (a.toInt < b.toInt) := by
  have ha := a.isLt
  have hb := b.isLt
  rw [getLsbD_adderSum, BitVec.toNat_neg, toNat_signExtend_33, toNat_signExtend_33,
    BitVec.toInt_eq_toNat_cond, BitVec.toInt_eq_toNat_cond]
  congr 1
  split <;> split <;> split <;> split <;> simp only [eq_iff_iff] <;> omega

/-- The carry of the widened unsigned difference. -/
theorem unsigned_less (a b : Word) :
    (adderSum (a.setWidth 33) (-(b.setWidth 33))).getLsbD 32
      = decide (a.toNat < b.toNat) := by
  have ha := a.isLt
  have hb := b.isLt
  rw [getLsbD_adderSum, BitVec.toNat_neg, BitVec.toNat_setWidth, BitVec.toNat_setWidth]
  congr 1
  simp only [eq_iff_iff]
  omega

theorem signed_sum (a b : Word) :
    (adderSum (a.signExtend 33) (b.signExtend 33)).setWidth 32 = a + b := by
  have ha := a.isLt
  have hb := b.isLt
  refine BitVec.eq_of_toNat_eq ?_
  rw [BitVec.toNat_setWidth, adderSum, BitVec.toNat_add, BitVec.toNat_add,
    BitVec.toNat_setWidth, BitVec.toNat_setWidth, toNat_signExtend_33, toNat_signExtend_33]
  split <;> split <;> omega

theorem amoAlu_eq {op : AmoOp} (hm : op.modifies = true) (hr : op ≠ .reserved)
    (old operand : Word) : amoAlu op old operand = rv32a op old operand := by
  cases op with
  | none | lr | sc => cases hm
  | reserved => exact absurd rfl hr
  | swap | and | or | xor => rfl
  | add => exact signed_sum old operand
  | max | min => simp only [amoAlu, rv32a, signed_less, decide_eq_true_eq]
  | maxu | minu => simp only [amoAlu, rv32a, unsigned_less, decide_eq_true_eq]

/-! ## The memory -/

variable {Addr Meta : Type} [DecidableEq Addr]

/-- One request on a word-addressed memory: the memory after it, and the word it
returns (a store only acknowledges). -/
def memExec (mem : Addr → Word) (r : BankReq Addr Meta) : (Addr → Word) × Option Word :=
  if r.write then
    (setWord mem r.address (mergeBytes r.be (mem r.address) r.wdata), none)
  else if r.amo = .none then (mem, some (mem r.address))
  else (setWord mem r.address (rv32a r.amo (mem r.address) r.wdata), some (mem r.address))

def memState (mem : Addr → Word) (rs : List (BankReq Addr Meta)) : Addr → Word :=
  rs.foldl (fun mem r => (memExec mem r).1) mem

def memResps (mem : Addr → Word) : List (BankReq Addr Meta) → List (Meta × Option Word)
  | [] => []
  | r :: rs => (r.metadata, (memExec mem r).2) :: memResps (memExec mem r).1 rs

/-- A load, a store or an RV32A atomic, which never raises the write flag. -/
def BankReq.Plain (r : BankReq Addr Meta) : Prop :=
  r.amo ≠ .lr ∧ r.amo ≠ .sc ∧ r.amo ≠ .reserved ∧ (r.write = true → r.amo = .none)

theorem specExec_plain (p : AdapterParams Meta) (s : SpecState Addr)
    {r : BankReq Addr Meta} (hr : r.Plain) :
    (specExec p s r).1.mem = (memExec s.mem r).1 ∧
      (specExec p s r).2 = (memExec s.mem r).2 := by
  obtain ⟨hlr, hsc, hres, hw⟩ := hr
  have hnsc : decide (r.amo = .sc) = false := decide_eq_false hsc
  simp only [specExec, memExec, hnsc, Bool.and_false, Bool.or_false, Bool.false_eq_true,
    if_false]
  by_cases hwr : r.write = true
  · simp [hwr, hw hwr, AmoOp.modifies]
  · by_cases hn : r.amo = .none
    · simp [hwr, hn, AmoOp.modifies]
    · have hm : r.amo.modifies = true := by
        cases h : r.amo with
        | none => exact absurd h hn
        | lr => exact absurd h hlr
        | sc => exact absurd h hsc
        | _ => rfl
      simp [hwr, hn, hm, amoAlu_eq hm hres]

theorem spec_plain (p : AdapterParams Meta) (s : SpecState Addr)
    {rs : List (BankReq Addr Meta)} (hrs : ∀ r ∈ rs, r.Plain) :
    (specState p s rs).mem = memState s.mem rs ∧ specResps p s rs = memResps s.mem rs := by
  induction rs generalizing s with
  | nil => exact ⟨rfl, rfl⟩
  | cons r rs ih =>
      obtain ⟨hmem, hresp⟩ := specExec_plain p s (hrs r List.mem_cons_self)
      obtain ⟨ihm, ihr⟩ := ih (specExec p s r).1 fun q hq => hrs q (List.mem_cons_of_mem _ hq)
      rw [hmem] at ihm ihr
      exact ⟨ihm, by rw [specResps, memResps, hresp, ihr]⟩

theorem accepted_plain {p : AdapterParams Meta} {k : AdapterCells Meta}
    {b : BankState Addr k} {cycles : List (AdapterIn Addr Meta × Word)}
    (hb : ∀ r ∈ b.accepted, r.Plain)
    (hcyc : ∀ c ∈ cycles, c.1.valid = true → c.1.req.Plain) :
    ∀ r ∈ (b.run p cycles).accepted, r.Plain := by
  induction cycles generalizing b with
  | nil => exact hb
  | cons c cycles ih =>
      refine ih ?_ fun d hd => hcyc d (List.mem_cons_of_mem _ hd)
      intro r hr
      have hnext : (b.next p c.1 c.2).accepted
          = if fire b.adapter c.1 then b.accepted ++ [c.1.req] else b.accepted := rfl
      rw [hnext] at hr
      split at hr
      · rename_i hf
        rw [fire, Bool.and_eq_true] at hf
        rcases List.mem_append.mp hr with hr | hr
        · exact hb r hr
        · rw [List.mem_singleton.mp hr]
          exact hcyc c List.mem_cons_self hf.1
      · exact hb r hr

/-- The adapter is a sequential memory. After any number of cycles: what has been
delivered is what the memory answers to the accepted requests, in order; a request
that is accepted now finds the memory as all earlier requests left it; and two
cycles without a request and with the response port open deliver the remaining
answers and leave the final memory in the SRAM. -/
theorem adapter_sequential [Inhabited Addr] (p : AdapterParams Meta) (k : AdapterCells Meta)
    (sram : SramState Addr) (cycles : List (AdapterIn Addr Meta × Word))
    (hcyc : ∀ c ∈ cycles, c.1.valid = true → c.1.req.Plain) :
    let b := (BankState.reset k sram).run p cycles
    (∃ rest, List.Forall₂ Answers b.delivered
        ((memResps sram.mem b.accepted).take b.delivered.length) ∧
      memResps sram.mem b.accepted
        = (memResps sram.mem b.accepted).take b.delivered.length ++ rest) ∧
    (∀ i, fire b.adapter i = true → b.sram.mem = memState sram.mem b.accepted) ∧
    ∀ i j : AdapterIn Addr Meta, ∀ v w : Word, i.valid = false → i.respReady = true →
      j.valid = false → j.respReady = true →
      (b.run p [(i, v), (j, w)]).accepted = b.accepted ∧
      List.Forall₂ Answers (b.run p [(i, v), (j, w)]).delivered
        (memResps sram.mem b.accepted) ∧
      (b.run p [(i, v), (j, w)]).sram.mem = memState sram.mem b.accepted := by
  intro b
  have hwf : ∀ c ∈ cycles, c.1.valid = true → c.1.req.write = true → c.1.req.amo = .none :=
    fun c hc hv hw => (hcyc c hc hv).2.2.2 hw
  obtain ⟨done, pend, h⟩ := (Refines.reset (p := p) (k := k) sram).run hwf
  have hplain : ∀ r ∈ b.accepted, r.Plain :=
    accepted_plain (b := .reset k sram) (fun r hr => absurd hr List.not_mem_nil) hcyc
  obtain ⟨hmem, hresp⟩ := spec_plain p
    { mem := sram.mem, resv := { valid := false, addr := default, core := 0 } } hplain
  rw [← hresp, ← hmem]
  have hlen := h.delivered.length_eq
  refine ⟨⟨pend, ?_, ?_⟩, fun i hf => ?_, fun i j v w hi hi' hj hj' => ?_⟩
  · rw [h.split, hlen, List.take_left]
    exact h.delivered
  · rw [h.split, hlen, List.take_left]
  · obtain ⟨hph, -⟩ := fire_cases h.aligned hf
    exact mem_of_rank_zero h (by rw [hph]; rfl)
  · exact h.drained ⟨hi, hi'⟩ ⟨hj, hj'⟩

/-! ## An atomic on the plain cells -/

def plainCells : AdapterCells Nat where
  metaReg := .list Nat 2
  rdataFifo := .list Word 2

def plainParams : AdapterParams Nat where
  registerAmo := true
  lrScEnable := true
  uniqueCoreId := id

/-- An `amoadd` of 5 to word 3 of an empty bank, presented for a single cycle. -/
def amoaddCycles : List (AdapterIn (BitVec 4) Nat × Word) :=
  [({ valid := true, respReady := false
      req := { address := 3, amo := .add, write := false, wdata := 5, be := 0, metadata := 7 } },
    0)]

/-- Nobody asks, somebody takes. -/
def openIn : AdapterIn (BitVec 4) Nat where
  valid := false
  respReady := true
  req := { address := 0, amo := .none, write := false, wdata := 0, be := 0, metadata := 0 }

theorem amoaddCycles_plain : ∀ c ∈ amoaddCycles, c.1.valid = true → c.1.req.Plain := by
  intro c hc _
  rw [List.mem_singleton.mp hc]
  exact ⟨by decide, by decide, by decide, by decide⟩

theorem adapter_sequential_amoadd :
    (∀ c ∈ amoaddCycles, c.1.valid = true → c.1.req.Plain) ∧
    (((BankState.reset plainCells { mem := fun _ => 0, rdata := 0 }).run plainParams
      amoaddCycles).run plainParams [(openIn, 1), (openIn, 1)]).sram.mem 3 = 5 := by
  refine ⟨amoaddCycles_plain, ?_⟩
  rw [((adapter_sequential plainParams plainCells { mem := fun _ => 0, rdata := 0 } amoaddCycles
    amoaddCycles_plain).2.2 openIn openIn 1 1 rfl rfl rfl rfl).2.2]
  decide

end TeraNoC.Hw
