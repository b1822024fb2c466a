import TeraNoC.Snitch.Core

/-!
# Every operand comes from the register its encoding names

The decoder says for every instruction which operands it takes; the read ports, their
addresses and the checks against the scoreboard are somewhere else, and are computed
from these choices. Here the two are put side by side: `Branch.sources` says which
register fields an instruction names, and at which input of a unit each of them is
wanted, and the theorem is that the register is what arrives there, and that the
instruction waits while it is busy.

It holds for every instruction but the fused multiply-adds. Their third source is named
by the top bits of the word, and it is that register whose scoreboard bit is looked at;
but the address of the third read port is the destination whenever the floating-point
extension is built in, so that the operand is right only where the two coincide.
-/

namespace TeraNoC.Snitch

open TeraNoC.Hw

/-! ## What an encoding names -/

inductive Field where
  | rs1
  | rs2
  | rs3
  | rd
  deriving DecidableEq

def Field.reg (cfg : CoreConfig) (inst : BitVec 32) : Field → RegIdx cfg
  | .rs1 => Snitch.rs1 cfg inst
  | .rs2 => Snitch.rs2 cfg inst
  | .rs3 => rs3Field cfg inst
  | .rd => Snitch.rd cfg inst

/-- Where an operand is used: the two inputs of the ALU, address and data of a request
to the load/store unit, and the three arguments of an accelerator. -/
inductive Sink where
  | opa
  | opb
  | qaddr
  | qdata
  | arga
  | argb
  | argc
  deriving DecidableEq

/-- The register operands of an instruction, as its assembly syntax has them. -/
def Branch.sources : Branch → List (Field × Sink)
  | .arith _ imm => (.rs1, .opa) :: if imm then [] else [(.rs2, .opb)]
  | .lui | .auipc | .jal | .environment | .fence | .wfi => []
  | .jalr => [(.rs1, .opa)]
  | .branch _ => [(.rs1, .opa), (.rs2, .opb)]
  | .store _ => [(.rs1, .opa), (.rs2, .qdata)]
  | .load _ _ => [(.rs1, .opa)]
  | .csrWrite imm | .csrModify _ imm => if imm then [] else [(.rs1, .opa)]
  | .amo _ => [(.rs1, .qaddr), (.rs2, .qdata)]
  | .mulDiv => [(.rs1, .arga), (.rs2, .argb)]
  | .fp _ _ third =>
      [(.rs1, .arga), (.rs2, .argb)] ++
        match third with
        | .none => []
        | .rs3 => [(.rs3, .argc)]
        | .rd => [(.rd, .argc)]
  | .pulpLoad _ _ reg post =>
      [(.rs1, .opa)] ++ (if reg then [(.rs2, .opb)] else []) ++
        if post then [(.rs1, .qaddr)] else []
  | .pulpStore _ reg post =>
      [(.rs1, .opa), (.rs2, .qdata)] ++ (if reg then [(.rd, .opb)] else []) ++
        if post then [(.rs1, .qaddr)] else []
  | .immBranch _ => [(.rs1, .opa)]
  | .pulpIpu second third =>
      [(.rs1, .arga)] ++ (if second then [(.rs2, .argb)] else []) ++
        if third then [(.rd, .argc)] else []

/-- Instructions with one source fix the field of the second, and name no register
there. -/
def Row.opensRs2 (r : Row) : Bool := r.mask.extractLsb' 20 5 == 0

def Row.operands (r : Row) : List (Field × Sink) :=
  r.branch.sources.filter fun o => o.1 != .rs2 || r.opensRs2

def Row.isFusedMultiplyAdd (r : Row) : Bool :=
  match r.branch with
  | .fp _ _ .rs3 => true
  | _ => false

/-! ## What the core hands over -/

namespace CoreState

variable {cfg : CoreConfig} {k : LsuCells cfg}

def handed (s : CoreState k) (i : CoreIn cfg) : Sink → Word
  | .opa => s.opa i
  | .opb => s.opb i
  | .qaddr => (s.lsuReq i).qaddr
  | .qdata => (s.lsuReq i).qdata
  | .arga => s.gprRdata0 i
  | .argb => s.gprRdata1 i
  | .argc => s.gprRdata2 i

/-- Whenever the instruction is issued, every operand is the content of its register,
and it is not issued while one of them is busy. -/
def Delivers (k : LsuCells cfg) (inst : BitVec 32) (operands : List (Field × Sink)) : Prop :=
  ∀ (s : CoreState k) (i : CoreIn cfg), i.instData = inst →
    (s.stall i = false → s.exception i = false →
      ∀ o ∈ operands, s.handed i o.2 = s.regs.mem (o.1.reg cfg inst)) ∧
    ∀ o ∈ operands, s.sb (o.1.reg cfg inst) = true → s.stall i = true

variable {s : CoreState k} {i : CoreIn cfg} {r : Row}

theorem decode_of_row {inst : BitVec 32} (h : rowOf inst = some r) :
    decode cfg inst = r.branch.decode cfg inst := by
  rw [decode, h]

theorem valid_of_issue (h : s.stall i = false) : s.validInstr i = true := by
  rw [stall] at h
  simp only [Bool.or_eq_false_iff, Bool.not_eq_false'] at h
  exact h.1.1.1

theorem ready_of_issue (h : s.stall i = false) :
    s.opaReady i = true ∧ s.opbReady i = true ∧ s.opcReady i = true ∧ s.dstReady i = true := by
  have hv := valid_of_issue h
  rw [validInstr, operandsReady] at hv
  simp only [Bool.and_eq_true] at hv
  exact ⟨hv.1.2.1.1, hv.1.2.1.2, hv.1.2.2, hv.2⟩

/-- What the checks say about the scoreboard when an instruction is issued. -/
theorem free_of_issue (h : s.stall i = false) :
    ((decode cfg i.instData).opaSelect = .reg → s.sb (rs1 cfg i.instData) = false) ∧
    ((decode cfg i.instData).opbSelect = .reg ∨ (decode cfg i.instData).opbSelect = .sImmediate ∨
      (decode cfg i.instData).opcSelect = .regRs2 → s.sb (rs2 cfg i.instData) = false) ∧
    ((decode cfg i.instData).opbSelect = .regRd → s.sb (rd cfg i.instData) = false) ∧
    ((decode cfg i.instData).opcSelect = .reg →
      s.sb (if cfg.zfinx then rs3 cfg i.instData else rd cfg i.instData) = false) ∧
    ((decode cfg i.instData).usesRd = true → s.exception i = false →
      s.sb (rd cfg i.instData) = false) := by
  obtain ⟨ha, hb, hc, hd⟩ := ready_of_issue h
  simp only [opaReady, opbReady, opcReady, dstReady, usesRd] at ha hb hc hd
  refine ⟨fun hsel => ?_, fun hsel => ?_, fun hsel => ?_, fun hsel => ?_, fun huse hex => ?_⟩
  · simpa [hsel] using ha
  · rcases hsel with hsel | hsel | hsel
    · simpa [hsel] using hb
    · simpa [hsel] using hb
    · cases hz : cfg.zfinx <;> simpa [hsel, hz] using hc
  · simpa [hsel] using hb
  · cases hz : cfg.zfinx <;> simpa [hsel, hz] using hc
  · simpa [huse, hex] using hd

/-- Only a memory access can trap once it has been decoded. -/
theorem exception_eq_false (hlegal : (decode cfg i.instData).illegalInst = false)
    (hload : (decode cfg i.instData).isLoad = false)
    (hstore : (decode cfg i.instData).isStore = false) : s.exception i = false := by
  simp [exception, addrMisaligned, hlegal, hload, hstore]

theorem lsuQvalid_of_issue (h : s.stall i = false) (hex : s.exception i = false)
    (hmem : ((decode cfg i.instData).isLoad || (decode cfg i.instData).isStore) = true) :
    s.lsuQvalid i = true := by
  have halign : s.addrMisaligned i = false := by
    rw [exception, Bool.or_eq_false_iff] at hex
    exact hex.2
  rw [lsuQvalid, valid_of_issue h, hmem, halign]
  rfl

theorem fpEnabled_of_legal {fmt : FpFormat} {divsqrt : Bool} {third : FpThird}
    {inst : BitVec 32}
    (h : ((Branch.fp fmt divsqrt third).decode cfg inst).illegalInst = false) :
    cfg.fpEnabled fmt divsqrt = true := by
  by_contra hno
  simp [Branch.decode, hno, illegal] at h

theorem zfinx_of_fpEnabled {fmt : FpFormat} {divsqrt : Bool}
    (h : cfg.fpEnabled fmt divsqrt = true) : cfg.zfinx = true := by
  simp only [CoreConfig.fpEnabled, Bool.and_eq_true] at h
  exact h.1.1

theorem rs3_of_fp (h : (decode cfg i.instData).accQaddr ≠ .xpulpIpu) :
    rs3 cfg i.instData = rs3Field cfg i.instData := by
  cases hq : (decode cfg i.instData).accQaddr with
  | xpulpIpu => exact absurd hq h
  | fpSs | fpDivsqrt => rw [rs3, hq]

theorem rs3_of_ipu (h : (decode cfg i.instData).accQaddr = .xpulpIpu)
    (hx : cfg.xpulpimg = true) : rs3 cfg i.instData = rd cfg i.instData := by
  rw [rs3, h]
  exact if_pos hx

/-- No register that an issued instruction names is busy. -/
theorem free_of_named {inst : BitVec 32} (hinst : i.instData = inst) (hrow : rowOf inst = some r)
    (hlegal : (decode cfg inst).illegalInst = false) (h : s.stall i = false) :
    ∀ o ∈ r.branch.sources, s.sb (o.1.reg cfg inst) = false := by
  subst hinst
  obtain ⟨h1, h2, hrd, hc, huse⟩ := free_of_issue h
  have hex := exception_eq_false (s := s) (i := i) hlegal
  have hfp := rs3_of_fp (i := i)
  have hipu := rs3_of_ipu (i := i)
  rw [decode_of_row hrow] at h1 h2 hrd hc huse hlegal hex hfp hipu
  cases hb : r.branch with
  | arith op imm =>
      cases imm <;> simp_all [Branch.sources, Branch.decode, Field.reg]
  | lui | auipc | jal | environment | fence | wfi => simp [Branch.sources]
  | jalr | branch _ | store _ | load _ _ | amo _ | mulDiv =>
      simp_all [Branch.sources, Branch.decode, Field.reg]
  | csrWrite imm => cases imm <;> simp_all [Branch.sources, Branch.decode, Field.reg]
  | csrModify op imm => cases imm <;> simp_all [Branch.sources, Branch.decode, Field.reg]
  | fp fmt divsqrt third =>
      rw [hb] at h1 h2 hc huse hlegal hex hfp
      have hen := fpEnabled_of_legal hlegal
      have hz := zfinx_of_fpEnabled hen
      simp only [Branch.decode, hen, if_true] at h1 h2 hc huse hex hfp
      cases third with
      | none => simp_all [Branch.sources, Field.reg]
      -- the check looks at the register in the top bits
      | rs3 => cases divsqrt <;> simp_all [Branch.sources, Field.reg, FpThird.select]
      -- nothing but the destination check looks at the accumulator
      | rd => simp_all [Branch.sources, Field.reg]
  | pulpLoad size signed reg post =>
      cases hx : cfg.xpulpimg
      · simp [hb, hx, Branch.decode, illegal] at hlegal
      · cases reg <;> cases post <;> simp_all [Branch.sources, Branch.decode, Field.reg]
  | pulpStore size reg post =>
      cases hx : cfg.xpulpimg
      · simp [hb, hx, Branch.decode, illegal] at hlegal
      · cases reg <;> cases post <;> simp_all [Branch.sources, Branch.decode, Field.reg]
  | immBranch op =>
      cases hx : cfg.xpulpimg
      · simp [hb, hx, Branch.decode, illegal] at hlegal
      · simp_all [Branch.sources, Branch.decode, Field.reg]
  | pulpIpu second third =>
      cases hx : cfg.xpulpimg
      · simp [hb, hx, Branch.decode, illegal] at hlegal
      · cases second <;> cases third <;> simp_all [Branch.sources, Branch.decode, Field.reg]

/-- Every atomic has an operation. -/
theorem ne_amo_none {inst : BitVec 32} (hrow : rowOf inst = some r) :
    r.branch ≠ .amo .none := by
  have hall : rows.all (fun r => r.branch != .amo .none) = true := by decide +kernel
  simpa using List.all_eq_true.mp hall r (List.mem_of_find?_eq_some hrow)

/-- The third read port reads the destination, whatever the third operand is. -/
theorem gprRdata2_eq (h : cfg.thirdReadPort = true) :
    s.gprRdata2 i = s.regs.mem (rd cfg i.instData) := by
  have haddr : gprRaddr2 cfg i.instData = rd cfg i.instData := by
    cases hz : cfg.zfinx <;> simp [gprRaddr2, hz]
  rw [gprRdata2, if_pos h, haddr]

theorem handed_of_named {inst : BitVec 32} (hinst : i.instData = inst)
    (hrow : rowOf inst = some r) (hlegal : (decode cfg inst).illegalInst = false)
    (h : s.stall i = false) (hex : s.exception i = false)
    (hfused : r.isFusedMultiplyAdd = true → rs3Field cfg inst = rd cfg inst) :
    ∀ o ∈ r.branch.sources, s.handed i o.2 = s.regs.mem (o.1.reg cfg inst) := by
  subst hinst
  have hvalid := lsuQvalid_of_issue h hex
  have hport : cfg.thirdReadPort = true → _ := gprRdata2_eq (s := s) (i := i)
  rw [CoreConfig.thirdReadPort] at hport
  rw [decode_of_row hrow] at hvalid hlegal
  have hopa := opa.eq_1 s i
  have hopb := opb.eq_1 s i
  have hqaddr := lsuQaddr.eq_1 s i
  have hqdata := lsuQdata.eq_1 s i
  have halu := aluResult.eq_1 s i
  rw [decode_of_row hrow] at hopa hopb hqaddr hqdata halu
  rw [Row.isFusedMultiplyAdd] at hfused
  cases hb : r.branch with
  | arith op imm =>
      cases imm <;>
        simp_all [Branch.sources, Branch.decode, Field.reg, handed, gprRdata0, gprRdata1]
  | lui | auipc | jal | environment | fence | wfi => simp [Branch.sources]
  | jalr | branch _ | store _ | load _ _ | mulDiv =>
      simp_all [Branch.sources, Branch.decode, Field.reg, handed, gprRdata0, gprRdata1, lsuReq]
  | amo op =>
      have hop : op ≠ .none := by
        rintro rfl
        exact ne_amo_none hrow hb
      simp_all [Branch.sources, Branch.decode, Field.reg, handed, gprRdata0, gprRdata1, lsuReq,
        alu]
  | csrWrite imm =>
      cases imm <;> simp_all [Branch.sources, Branch.decode, Field.reg, handed, gprRdata0]
  | csrModify op imm =>
      cases imm <;> simp_all [Branch.sources, Branch.decode, Field.reg, handed, gprRdata0]
  | fp fmt divsqrt third =>
      rw [hb] at hlegal
      have hz := zfinx_of_fpEnabled (fpEnabled_of_legal hlegal)
      cases third <;>
        simp_all [Branch.sources, Field.reg, handed, gprRdata0, gprRdata1]
  | pulpLoad size signed reg post =>
      cases hx : cfg.xpulpimg
      · simp [hb, hx, Branch.decode, illegal] at hlegal
      · cases reg <;> cases post <;>
          simp_all [Branch.sources, Branch.decode, Field.reg, handed, gprRdata0, gprRdata1,
            lsuReq]
  | pulpStore size reg post =>
      cases hx : cfg.xpulpimg
      · simp [hb, hx, Branch.decode, illegal] at hlegal
      · cases reg <;> cases post <;>
          simp_all [Branch.sources, Branch.decode, Field.reg, handed, gprRdata0, gprRdata1,
            lsuReq]
  | immBranch op =>
      cases hx : cfg.xpulpimg
      · simp [hb, hx, Branch.decode, illegal] at hlegal
      · simp_all [Branch.sources, Branch.decode, Field.reg, handed, gprRdata0]
  | pulpIpu second third =>
      cases hx : cfg.xpulpimg
      · simp [hb, hx, Branch.decode, illegal] at hlegal
      · cases second <;> cases third <;>
          simp_all [Branch.sources, Field.reg, handed, gprRdata0, gprRdata1]

/-! ## The fused multiply-adds -/

/-- Registers in which `a` differs from every other register. -/
def apart (a : RegIdx cfg) : RegFile cfg where
  mem r := if r = 0 then 0 else if r = a then 1 else 2
  zero := if_pos rfl

theorem apart_ne {a b : RegIdx cfg} (h : b ≠ a) : (apart a).mem a ≠ (apart a).mem b := by
  simp only [apart]
  by_cases ha : a = 0
  · have hb : b ≠ 0 := fun hb => h (hb.trans ha.symm)
    rw [if_pos ha, if_neg hb, if_neg h]
    decide
  · rw [if_neg ha, if_pos trivial, if_neg h]
    split
    · decide
    · decide

theorem fused_issues {inst : BitVec 32} (hrow : rowOf inst = some r)
    (hlegal : (decode cfg inst).illegalInst = false) (hfused : r.isFusedMultiplyAdd = true) :
    let s : CoreState k := { CoreState.reset k with regs := apart (rd cfg inst) }
    s.stall (.present cfg inst) = false ∧ s.exception (.present cfg inst) = false := by
  intro s
  obtain ⟨fmt, divsqrt, hb⟩ : ∃ fmt divsqrt, r.branch = .fp fmt divsqrt .rs3 := by
    rw [Row.isFusedMultiplyAdd] at hfused
    split at hfused
    · exact ⟨_, _, ‹_›⟩
    · cases hfused
  have hdec : decode cfg inst = (Branch.fp fmt divsqrt .rs3).decode cfg inst := by
    rw [decode_of_row hrow, hb]
  have hen : cfg.fpEnabled fmt divsqrt = true := fpEnabled_of_legal (hdec ▸ hlegal)
  simp only [Branch.decode, hen, if_true] at hdec
  have hex : s.exception (.present cfg inst) = false := by
    simp [exception, addrMisaligned, CoreIn.present, hdec]
  refine ⟨?_, hex⟩
  simp [stall, validInstr, operandsReady, opaReady, opbReady, opcReady, dstReady, lsuStall,
    lsuQvalid, accStall, fenceStall, CoreIn.present, hdec, s, CoreState.reset, WfiState.reset]

theorem operands_delivered_iff (k : LsuCells cfg) (inst : BitVec 32) (r : Row)
    (hrow : rowOf inst = some r) (hlegal : (decode cfg inst).illegalInst = false) :
    Delivers k inst r.operands ↔
      ¬ (r.isFusedMultiplyAdd = true ∧ rs3Field cfg inst ≠ rd cfg inst) := by
  constructor
  · rintro hdel ⟨hfused, hne⟩
    obtain ⟨hissue, hex⟩ := fused_issues (k := k) hrow hlegal hfused
    have hmem : (Field.rs3, Sink.argc) ∈ r.operands := by
      rw [Row.isFusedMultiplyAdd] at hfused
      split at hfused
      · next hb => simp [Row.operands, hb, Branch.sources]
      · cases hfused
    have hthird : cfg.thirdReadPort = true := by
      rw [Row.isFusedMultiplyAdd] at hfused
      split at hfused
      · next hb =>
          rw [decode_of_row hrow, hb] at hlegal
          simp [CoreConfig.thirdReadPort, zfinx_of_fpEnabled (fpEnabled_of_legal hlegal)]
      · cases hfused
    have hgot := (hdel _ (.present cfg inst) rfl).1 hissue hex _ hmem
    rw [handed, gprRdata2_eq hthird] at hgot
    exact apart_ne hne hgot
  · intro hno s i hinst
    have hfused : r.isFusedMultiplyAdd = true → rs3Field cfg inst = rd cfg inst :=
      fun hf => by_contra fun hne => hno ⟨hf, hne⟩
    refine ⟨fun h hex o ho => ?_, fun o ho hbusy => ?_⟩
    · exact handed_of_named hinst hrow hlegal h hex hfused o (List.mem_filter.mp ho).1
    · by_contra hissue
      have hfree := free_of_named hinst hrow hlegal (Bool.eq_false_of_not_eq_true hissue) o
        (List.mem_filter.mp ho).1
      exact Bool.noConfusion (hfree.symm.trans hbusy)

/-- `fmadd.s x5, x6, x7, x5`. -/
theorem operands_delivered_accumulating :
    Delivers (LsuCells.plain mempoolCore) 0x287302c3
      [(.rs1, .arga), (.rs2, .argb), (.rs3, .argc)] :=
  (operands_delivered_iff (LsuCells.plain mempoolCore) 0x287302c3
    ⟨.fmaddS, 0x0600007f, 0x00000043, .fp .s false .rs3⟩ (by decide +kernel)
    (by decide +kernel)).mpr (by decide +kernel)

/-- `fmadd.s x5, x6, x7, x8` is handed `x5` in place of `x8`. -/
theorem fmadd_reads_destination :
    ¬ Delivers (LsuCells.plain mempoolCore) 0x407302c3
      [(.rs1, .arga), (.rs2, .argb), (.rs3, .argc)] := by
  intro hdel
  have hgot := (hdel { CoreState.reset _ with regs := apart 5#5 } (.present mempoolCore 0x407302c3)
    rfl).1 (by decide +kernel) (by decide +kernel) (.rs3, .argc) (by decide)
  exact absurd hgot (by decide +kernel)

end CoreState

end TeraNoC.Snitch
