import TeraNoC.Proofs.Operands

/-!
# What an instruction does before it is issued

A cycle in which the presented instruction is held back should be a cycle of the core
without an instruction: results that come back are written, the flags of the
floating-point unit are collected, and nothing else happens. For the PC, the registers
and the scoreboard this is so, whatever the word on the fetch port is, because each of
them is gated by `stall`, or by `valid_instr` where no unit can refuse the instruction.

The writable control and status registers are gated by the decoder alone. An instruction
that writes one of them does so in every cycle in which it is presented, with whatever
its operands are then. `HarmlessWait` is the condition under which that does not matter:
the instruction that is held back is not one that writes such a register. A pure read
writes back what it reads, which is harmless but for the flags, where what the
floating-point unit reports in the same cycle is lost.
-/

namespace TeraNoC.Snitch.CoreState

open TeraNoC.Hw

variable {cfg : CoreConfig} {k : LsuCells cfg}

/-! ## The control and status registers -/

/-- The registers a program can write. -/
structure Csrs where
  trace : Word
  stackLimit : Word
  fcsr : Fcsr

def csrs (s : CoreState k) : Csrs := ⟨s.csrTrace, s.csrStackLimit, s.fcsr⟩

/-- The floating-point unit reports flags. -/
def Csrs.report (cfg : CoreConfig) (status : BitVec 5) (c : Csrs) : Csrs :=
  { c with
    fcsr := if cfg.zfinx then ⟨c.fcsr.frm, c.fcsr.fflags ||| status⟩ else c.fcsr }

/-- The register `reg` is written with `v`. -/
def Csrs.write (cfg : CoreConfig) (reg : Option Csr) (v : Word) (c : Csrs) : Csrs :=
  match reg with
  | some .trace => { c with trace := v }
  | some .stacklimit => { c with stackLimit := v }
  | some .fflags => if cfg.zfinx then { c with fcsr.fflags := v.extractLsb' 0 5 } else c
  | some .frm => if cfg.zfinx then { c with fcsr.frm := v.extractLsb' 0 3 } else c
  | some .fcsr =>
      if cfg.zfinx then { c with fcsr := ⟨v.extractLsb' 5 3, v.extractLsb' 0 5⟩ } else c
  | _ => c

/-- Every cycle writes the register its instruction word addresses. -/
theorem csrs_next (s : CoreState k) (i : CoreIn cfg) :
    (s.next i).csrs =
      ((s.csrs.report cfg i.fpuStatus).write cfg (csrAccess cfg i.instData) (s.aluResult i)) := by
  cases hz : cfg.zfinx <;> cases hreg : csrAccess cfg i.instData with
  | none => simp [csrs, next, csrTraceEn, csrStackLimitEn, fcsrD, Csrs.report, Csrs.write, hz, hreg]
  | some reg =>
      cases reg <;>
        simp [csrs, next, csrTraceEn, csrStackLimitEn, fcsrD, Csrs.report, Csrs.write, hz, hreg]

/-- The instruction reads a register and writes back what it read. -/
def pureRead (cfg : CoreConfig) (inst : BitVec 32) : Bool :=
  (decode cfg inst).opbSelect == .csr && rs1 cfg inst == 0

/-- The instruction writes a control and status register. -/
def csrWrites (cfg : CoreConfig) (inst : BitVec 32) : Bool :=
  match csrAccess cfg inst with
  | some .trace | some .stacklimit => !pureRead cfg inst
  | some .frm => cfg.zfinx && !pureRead cfg inst
  | some .fflags | some .fcsr => cfg.zfinx
  | _ => false

/-- Reading and writing back goes through an operation that keeps the second operand. -/
theorem csrModify_op {inst : BitVec 32} {r : Row} {op : AluOp} {imm : Bool}
    (hrow : rowOf inst = some r) (hb : r.branch = .csrModify op imm) (v : Word) :
    alu op 0 v = v := by
  have hall : rows.all (fun r => match r.branch with
      | .csrModify op _ => op == .lor || op == .lnand
      | _ => true) = true := by decide +kernel
  have hop := List.all_eq_true.mp hall r (List.mem_of_find?_eq_some hrow)
  rw [hb] at hop
  simp only [Bool.or_eq_true, beq_iff_eq] at hop
  rcases hop with rfl | rfl
  · exact BitVec.zero_or
  · exact BitVec.allOnes_and

/-- Only these instructions take the register as their second operand. -/
theorem csr_of_opb {inst : BitVec 32} {r : Row} (hrow : rowOf inst = some r)
    (hsel : (decode cfg inst).opbSelect = .csr) :
    ∃ op imm, r.branch = .csrModify op imm ∧
      decode cfg inst =
        { aluOp := op, opaSelect := if imm then .csrImmediate else .reg, opbSelect := .csr
          rdSelect := .rdBypass, rdBypass := .csr, csrEn := true } := by
  rw [decode_of_row hrow] at hsel ⊢
  cases hb : r.branch with
  | csrModify op imm =>
      refine ⟨op, imm, rfl, ?_⟩
      rw [hb, Branch.decode] at hsel
      rw [Branch.decode]
      split at hsel
      · cases hsel
      · next hssr => rw [if_neg hssr]
  | arith op imm => cases imm <;> simp [hb, Branch.decode] at hsel
  | fp fmt divsqrt third =>
      cases hen : cfg.fpEnabled fmt divsqrt <;> simp [hb, Branch.decode, hen, illegal] at hsel
  | pulpLoad size signed reg post =>
      cases reg <;> cases hx : cfg.xpulpimg <;> simp [hb, Branch.decode, hx, illegal] at hsel
  | pulpStore size reg post =>
      cases reg <;> cases hx : cfg.xpulpimg <;> simp [hb, Branch.decode, hx, illegal] at hsel
  | immBranch op => cases hx : cfg.xpulpimg <;> simp [hb, Branch.decode, hx, illegal] at hsel
  | pulpIpu second third =>
      cases second <;> cases hx : cfg.xpulpimg <;> simp [hb, Branch.decode, hx, illegal] at hsel
  | lui | auipc | jal | jalr | branch _ | store _ | load _ _ | csrWrite _ | environment | fence
  | wfi | amo _ | mulDiv => simp [hb, Branch.decode] at hsel

theorem aluResult_of_pureRead (s : CoreState k) (i : CoreIn cfg)
    (h : pureRead cfg i.instData = true) : s.aluResult i = s.csrRvalue i := by
  simp only [pureRead, Bool.and_eq_true, beq_iff_eq] at h
  obtain ⟨hsel, hrs1⟩ := h
  have hopb : s.opb i = s.csrRvalue i := by rw [opb, hsel]
  rw [aluResult, hopb]
  cases hrow : rowOf i.instData with
  | none => simp [decode, hrow, illegal] at hsel
  | some r =>
      obtain ⟨op, imm, hb, hdec⟩ := csr_of_opb hrow hsel
      have hopa : s.opa i = 0 := by
        rw [opa, hdec]
        cases imm with
        | false => exact (congrArg s.regs.mem hrs1).trans s.regs.zero
        | true => exact congrArg (BitVec.setWidth 32) hrs1 |>.trans (BitVec.setWidth_zero _ _)
      rw [hopa, hdec]
      exact csrModify_op hrow hb _

/-- An instruction that writes no register leaves them to the floating-point unit. -/
theorem csrs_next_of_harmless (s : CoreState k) (i : CoreIn cfg)
    (h : csrWrites cfg i.instData = false) :
    (s.next i).csrs = s.csrs.report cfg i.fpuStatus := by
  rw [csrs_next]
  rw [csrWrites] at h
  have hread := aluResult_of_pureRead s i
  rw [csrRvalue] at hread
  cases hreg : csrAccess cfg i.instData with
  | none => rfl
  | some reg =>
      rw [hreg] at h hread
      cases reg with
      | mhartid | mcycle | minstret | mcycleh | minstreth | mhpmcounter3 | mhpmcounter4
      | mhpmcounter5 => rfl
      | trace =>
          rw [hread (by simpa using h)]
          rfl
      | stacklimit =>
          rw [hread (by simpa using h)]
          rfl
      | fflags => simp [Csrs.write, show cfg.zfinx = false from h]
      | fcsr => simp [Csrs.write, show cfg.zfinx = false from h]
      | frm =>
          cases hz : cfg.zfinx with
          | false => simp [Csrs.write, hz]
          | true =>
              rw [hread (by simpa [hz] using h)]
              have hlow : (s.fcsr.frm.setWidth 32).extractLsb' 0 3 = s.fcsr.frm := by
                ext j hj
                simp [show j < 32 by omega, BitVec.getLsbD_eq_getElem hj]
              simp [Csrs.write, Csrs.report, csrs, hz, hlow]

/-! ## The PC, the registers and the scoreboard -/

/-- What a unit can refuse does not write its destination when it is issued. -/
theorem writeRd_of_unit {inst : BitVec 32}
    (h : (decode cfg inst).isLoad = true ∨ (decode cfg inst).isStore = true ∨
      (decode cfg inst).accQvalid = true ∨ (decode cfg inst).fence = true) :
    (decode cfg inst).writeRd = false := by
  cases hrow : rowOf inst with
  | none => simp [decode, hrow, illegal] at h
  | some r =>
      rw [decode_of_row hrow] at h ⊢
      cases hb : r.branch with
      | csrModify op imm =>
          rw [hb, Branch.decode] at h
          rw [Branch.decode]
          split at h
          · next hssr => rw [if_pos hssr]
          · simp at h
      | fp fmt divsqrt third =>
          cases hen : cfg.fpEnabled fmt divsqrt <;> simp_all [Branch.decode, illegal]
      | pulpLoad _ _ _ _ | pulpStore _ _ _ | immBranch _ | pulpIpu _ _ =>
          cases hx : cfg.xpulpimg <;> simp_all [Branch.decode, illegal]
      | arith _ _ | lui | auipc | jal | jalr | branch _ | store _ | load _ _ | csrWrite _
      | environment | fence | wfi | amo _ | mulDiv => simp_all [Branch.decode]

/-- An instruction that is held back writes no register of its own. -/
theorem ownPort_of_stall {s : CoreState k} {i : CoreIn cfg} (h : s.stall i = true) :
    (s.ownPort i).we = false := by
  have hp : s.retireP i = false := by simp [retireP, h]
  have hi : s.retireI i = false := by
    cases hv : s.validInstr i with
    | false => simp [retireI, hv]
    | true =>
        have hunit : (decode cfg i.instData).writeRd = false := by
          apply writeRd_of_unit
          simp only [stall, lsuStall, lsuQvalid, accStall, accQvalid, fenceStall, hv,
            Bool.or_eq_true, Bool.and_eq_true, Bool.not_true, Bool.false_eq_true, false_or,
            true_and] at h
          tauto
        simp [retireI, writeRd, hunit]
  rw [ownPort, hi, hp]
  rfl

/-- The results that come back in a cycle and are taken. -/
def answers (s : CoreState k) (i : CoreIn cfg) : List (WritePort cfg) :=
  (if (s.writeBack i).retireAcc then [accPort i] else []) ++
    if (s.writeBack i).retireLoad then [s.loadPort i] else []

/-- The scoreboard without the registers whose results are taken. -/
def cleared (s : CoreState k) (i : CoreIn cfg) (r : RegIdx cfg) : Bool :=
  r != 0 && s.sb r && !(s.answers i).any fun p => p.waddr == r

theorem regs_next_of_stall {s : CoreState k} {i : CoreIn cfg} (h : s.stall i = true)
    (a : RegIdx cfg) : (s.next i).regs.mem a = (s.regs.write (s.answers i)).mem a := by
  have hown := ownPort_of_stall h
  have hports : ∀ v, RegFile.written (s.writeBack i).ports a v =
      RegFile.written (s.answers i) a v := by
    intro v
    simp only [answers, writeBack, Snitch.writeBack, hown, Bool.false_eq_true, if_false]
    cases cfg.twoWritePorts <;> cases hl : (s.loadPort i).we <;> cases ha : (accPort i).we <;>
      simp [RegFile.written, hl, ha, hown]
  change (if a = 0 then 0 else _) = (if a = 0 then 0 else _)
  rw [hports]

theorem sb_next_of_stall {s : CoreState k} {i : CoreIn cfg} (h : s.stall i = true) :
    (s.next i).sb = s.cleared i := by
  have hmarks : s.marks i = false := by simp [marks, h]
  funext r
  change s.sbD i r = _
  rw [sbD, cleared, hmarks]
  by_cases hr : r = 0
  · simp [hr]
  · have hne : (r != 0) = true := bne_iff_ne.mpr hr
    have hload : s.lsu.lsuPtag (s.lsuPort i false) = (s.loadPort i).waddr := rfl
    have hacc : i.accPid.setWidth cfg.regWidth = (accPort i).waddr := rfl
    rw [if_neg hr, answers, hne, hload, hacc]
    cases (s.writeBack i).retireLoad <;> cases (s.writeBack i).retireAcc <;>
      by_cases hl : (s.loadPort i).waddr = r <;> by_cases ha : (accPort i).waddr = r <;>
        simp [hl, ha]

/-! ## Cycles without an issue -/

/-- The cycle is one of a core that is presented nothing. -/
structure NoEffect (s : CoreState k) (i : CoreIn cfg) : Prop where
  pc : (s.next i).pc = s.pc
  regs : ∀ a, (s.next i).regs.mem a = (s.regs.write (s.answers i)).mem a
  sb : (s.next i).sb = s.cleared i
  csrs : (s.next i).csrs = s.csrs.report cfg i.fpuStatus

theorem noEffect_of_stall {s : CoreState k} {i : CoreIn cfg} (h : s.stall i = true)
    (hharm : csrWrites cfg i.instData = false) : NoEffect s i where
  pc := by simp [next, pcD, h]
  regs := regs_next_of_stall h
  sb := sb_next_of_stall h
  csrs := csrs_next_of_harmless s i hharm

/-- No instruction that writes a control and status register is held back. -/
def HarmlessWaits (s : CoreState k) : List (CoreIn cfg) → Prop
  | [] => True
  | i :: is =>
      (s.stall i = true → csrWrites cfg i.instData = false) ∧ HarmlessWaits (s.next i) is

/-- The instruction is presented in every cycle and held back in all of them. -/
def Waits (s : CoreState k) (inst : BitVec 32) : List (CoreIn cfg) → Prop
  | [] => True
  | i :: is => i.instData = inst ∧ s.stall i = true ∧ Waits (s.next i) inst is

/-- The flags the floating-point unit reports. -/
def reported : List (CoreIn cfg) → BitVec 5
  | [] => 0#5
  | i :: is => i.fpuStatus ||| reported is

/-- In every cycle without an issue the presented instruction does nothing, and when it
is issued it writes the control and status registers once: from what they were before it
had to wait, with the result of the cycle in which it is issued. -/
def IssuesOnce (s : CoreState k) (is : List (CoreIn cfg)) : Prop :=
  (∀ pre i, pre ++ [i] <+: is → (s.after pre).stall i = true → NoEffect (s.after pre) i) ∧
  ∀ pre waits i, pre ++ waits ++ [i] <+: is → Waits (s.after pre) i.instData waits →
    (s.after (pre ++ waits)).stall i = false →
    (s.after (pre ++ waits ++ [i])).csrs =
      ((s.after pre).csrs.report cfg (reported (waits ++ [i]))).write cfg
        (csrAccess cfg i.instData) ((s.after (pre ++ waits)).aluResult i)

theorem after_append (s : CoreState k) (is js : List (CoreIn cfg)) :
    s.after (is ++ js) = (s.after is).after js :=
  List.foldl_append

theorem HarmlessWaits.append {s : CoreState k} {is js : List (CoreIn cfg)}
    (h : s.HarmlessWaits (is ++ js)) : (s.after is).HarmlessWaits js := by
  induction is generalizing s with
  | nil => exact h
  | cons i is ih => exact ih h.2

theorem HarmlessWaits.left {s : CoreState k} {is js : List (CoreIn cfg)}
    (h : s.HarmlessWaits (is ++ js)) : s.HarmlessWaits is := by
  induction is generalizing s with
  | nil => trivial
  | cons i is ih => exact ⟨h.1, ih h.2⟩

theorem Csrs.report_report (c : Csrs) (a b : BitVec 5) :
    (c.report cfg a).report cfg b = c.report cfg (a ||| b) := by
  cases hz : cfg.zfinx <;> simp [Csrs.report, hz, BitVec.or_assoc]

theorem Csrs.report_zero (c : Csrs) : c.report cfg 0#5 = c := by
  cases hz : cfg.zfinx <;> simp [Csrs.report, hz]

theorem reported_append (is js : List (CoreIn cfg)) :
    reported (is ++ js) = reported is ||| reported js := by
  induction is with
  | nil => simp [reported]
  | cons i is ih => simp [reported, ih, BitVec.or_assoc]

/-- However long an instruction waits, the control and status registers only collect
flags. -/
theorem Waits.csrs_after {s : CoreState k} {inst : BitVec 32} {is : List (CoreIn cfg)}
    (h : s.Waits inst is) (hharm : s.HarmlessWaits is) :
    (s.after is).csrs = s.csrs.report cfg (reported is) := by
  induction is generalizing s with
  | nil => exact (Csrs.report_zero _).symm
  | cons i is ih =>
      obtain ⟨-, hstall, hrest⟩ := h
      have hstep := (noEffect_of_stall hstall (hharm.1 hstall)).csrs
      change ((s.next i).after is).csrs = _
      rw [ih hrest hharm.2, hstep, Csrs.report_report, reported]

theorem waiting_has_no_effect (s : CoreState k) (is : List (CoreIn cfg))
    (hharm : s.HarmlessWaits is) : s.IssuesOnce is := by
  constructor
  · rintro pre i ⟨rest, rfl⟩ hstall
    rw [List.append_assoc] at hharm
    exact noEffect_of_stall hstall (hharm.append.1 hstall)
  · rintro pre waits i ⟨rest, rfl⟩ hwaits -
    rw [List.append_assoc, List.append_assoc] at hharm
    have hcsrs := hwaits.csrs_after hharm.append.left
    rw [after_append, after_append s pre waits]
    change (((s.after pre).after waits).next i).csrs = _
    rw [csrs_next, hcsrs, Csrs.report_report, reported_append, reported, reported,
      BitVec.or_zero]

/-- `addi x5, x0, 1`, `lw x5, 0(x0)`, `add x6, x5, x5`: the last one waits two cycles for the
load. -/
theorem waiting_has_no_effect_ready :
    let s := CoreState.reset (LsuCells.plain mempoolCore)
    let add := CoreIn.present mempoolCore 0x00528333
    let loaded := { add with dataPvalid := true, dataPdata := 7 }
    let is := [.present mempoolCore 0x00100293, .present mempoolCore 0x00002283, add, loaded, add]
    s.IssuesOnce is ∧ (s.after (is.take 2)).stall add = true ∧
      (s.after (is.take 3)).stall loaded = true ∧ (s.after (is.take 4)).stall add = false :=
  ⟨waiting_has_no_effect _ _ ⟨by decide +kernel, by decide +kernel, by decide +kernel,
    by decide +kernel, by decide +kernel, trivial⟩,
    by decide +kernel, by decide +kernel, by decide +kernel⟩

/-- `addi x5, x0, 1`, `lw x5, 0(x0)`, `csrrs x0, trace, x5`: while the last one waits for
the load, it sets the bits of the old `x5`. -/
theorem csrrs_sets_stale_bits :
    ¬ (CoreState.reset (LsuCells.plain mempoolCore)).IssuesOnce
      [.present mempoolCore 0x00100293, .present mempoolCore 0x00002283,
        .present mempoolCore 0x7d02a073] := by
  intro h
  have hquiet := h.1 [.present mempoolCore 0x00100293, .present mempoolCore 0x00002283]
    (.present mempoolCore 0x7d02a073) (List.prefix_refl _) (by decide +kernel)
  exact absurd (congrArg Csrs.trace hquiet.csrs) (by decide +kernel)

end TeraNoC.Snitch.CoreState
