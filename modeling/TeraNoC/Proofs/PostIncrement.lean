import TeraNoC.Proofs.DataLanes
import TeraNoC.Proofs.Issue

/-!
# Register offsets and post-increment against the golden model

One memory instruction of Xpulpimg is followed from the cycle in which it is issued, with
the load/store unit idle, to the cycle in which its answer is written, however long the
memory takes; and what it leaves behind is compared with the instruction set simulator.
The base is incremented when the instruction is issued and the loaded value is written
when it comes back, so that the core's result is the old registers with two writes, the
base first (`run_regs`). The simulator writes the loaded value first and then reads the
base and the offset again.

The two agree on all forms without post-increment. With it, the core checks the
alignment of the incremented address in place of that of the access, and a load that
overwrites its own base or offset register leaves something else in the base.
-/

namespace TeraNoC.Snitch

open TeraNoC.Hw TeraNoC.Spike LsuState

variable {cfg : CoreConfig} {k : LsuCells cfg}

/-! ## The load/store unit -/

namespace LsuState

/-- Nothing is outstanding. -/
structure Idle (s : LsuState k) : Prop where
  contents : k.reqReg.contents s.reqReg = []
  pending : s.handshakePending = false
  available : ∀ j, s.idAvailable j = true

/-- The request with the metadata `md` was given `id`, and it has been taken by the memory
or is still offered. -/
structure Sent (s : LsuState k) (id : MetaId cfg) (md : Metadata cfg) : Prop where
  metadata : s.metadata id = md
  offered : k.reqReg.contents s.reqReg = [] ∨
    s.handshakePending = true ∧ ∃ req, k.reqReg.contents s.reqReg = [req]

theorem lsuQready_of_nil {s : LsuState k} (h : k.reqReg.contents s.reqReg = []) :
    s.lsuQready = true := by
  rw [lsuQready, k.reqReg.full_eq, h]
  rfl

/-- A request to the idle unit is offered to the memory at once. -/
structure Offers (s : LsuState k) (i : LsuIn cfg) : Prop where
  valid : s.dataQvalid i = true
  req : s.postregReq i = i.req
  push : s.idTablePush i = true

theorem Idle.offers {s : LsuState k} (h : s.Idle) {i : LsuIn cfg} (hq : i.qvalid = true) :
    s.Offers i := by
  have hpush : s.regPush i = true := by rw [regPush, hq, lsuQready_of_nil h.contents]; rfl
  have hfull : s.idTableFull = false := by
    rw [idTableFull, decide_eq_false_iff_not]
    intro hno
    have := hno ⟨0, cfg.numLoads_pos⟩
    rw [h.available] at this
    cases this
  have hvalid : s.dataQvalid i = true := by
    rw [dataQvalid, postregValid, k.reqReg.empty_eq, hpush, hfull]
    simp
  refine ⟨hvalid, ?_, ?_⟩
  · rw [postregReq, hpush]
    exact k.reqReg.data_eq _ _ _ _ (by simp [h.contents])
  · rw [idTablePush, hvalid, h.pending]
    rfl

theorem Idle.sent {s : LsuState k} (h : s.Idle) {i : LsuIn cfg} (hq : i.qvalid = true) :
    (s.next i).Sent s.reqId (s.reqMetadata i) := by
  have hoffer := h.offers hq
  have hpush : s.regPush i = true := by rw [regPush, hq, lsuQready_of_nil h.contents]; rfl
  have hnotfull : k.reqReg.full s.reqReg = false := by
    have := lsuQready_of_nil h.contents
    simpa [lsuQready] using this
  have hnext : k.reqReg.contents (s.next i).reqReg =
      if s.postregValid i && s.postregReady i then [] else [i.req] := by
    change k.reqReg.contents (k.reqReg.next _ _ _ _) = _
    rw [k.reqReg.contents_next _ _ _ _ (fun _ => hnotfull), hpush, h.contents]
    rfl
  constructor
  · simp [next, hoffer.push]
  · rw [hnext]
    cases hpop : s.postregValid i && s.postregReady i with
    | true => exact .inl rfl
    | false =>
        refine .inr ⟨?_, _, rfl⟩
        have hvalid := hoffer.valid
        rw [dataQvalid, Bool.and_eq_true] at hvalid
        rw [hvalid.1, postregReady, hvalid.2] at hpop
        change s.handshakePendingD i = true
        simpa using hpop

/-- While nothing new is asked for, the request keeps its place in the table. -/
theorem Sent.next {s : LsuState k} {id : MetaId cfg} {md : Metadata cfg} (h : s.Sent id md)
    {i : LsuIn cfg} (hq : i.qvalid = false) : (s.next i).Sent id md := by
  have hpush : s.regPush i = false := by rw [regPush, hq]; rfl
  have hnext : k.reqReg.contents (s.next i).reqReg =
      if s.postregValid i && s.postregReady i then (k.reqReg.contents s.reqReg).tail
      else k.reqReg.contents s.reqReg := by
    change k.reqReg.contents (k.reqReg.next _ _ _ _) = _
    rw [k.reqReg.contents_next _ _ _ _ (fun hno => by rw [hpush] at hno; cases hno), hpush]
    simp
  rcases h.offered with hnil | ⟨hpend, req, hone⟩
  · have hvalid : s.postregValid i = false := by
      rw [postregValid, k.reqReg.empty_eq, hpush, hnil]
      rfl
    constructor
    · simp [LsuState.next, idTablePush, dataQvalid, hvalid, h.metadata]
    · rw [hnext, hvalid, hnil]
      exact .inl rfl
  · have hvalid : s.postregValid i = true := by
      rw [postregValid, k.reqReg.empty_eq, hpush, hone]
      rfl
    constructor
    · simp [LsuState.next, idTablePush, hpend, h.metadata]
    · rw [hnext, hvalid, hone]
      cases hready : s.postregReady i with
      | true => exact .inl rfl
      | false =>
          refine .inr ⟨?_, req, rfl⟩
          rw [postregReady, hpend] at hready
          change s.handshakePendingD i = true
          simpa using hready

end LsuState

/-! ## One instruction, from issue to answer -/

namespace CoreState

/-- A cycle in which nothing is fetched and no other unit answers. -/
def Alone (i : CoreIn cfg) : Prop := i.instReady = false ∧ i.accPvalid = false

/-- The instruction presented in `i` is issued with nothing outstanding, and after the
cycles `waits` the memory `m` answers in `r`, if it was asked at all. -/
structure MemoryRun (s : CoreState k) (m : Mem) (i : CoreIn cfg) (waits : List (CoreIn cfg))
    (r : CoreIn cfg) : Prop where
  idle : s.lsu.Idle
  issues : s.stall i = false
  quiet : i.accPvalid = false ∧ i.dataPvalid = false
  waiting : ∀ w ∈ waits, Alone w ∧ w.dataPvalid = false
  alone : Alone r
  answered : r.dataPvalid = !s.exception i
  id : r.dataPid = s.lsu.reqId
  data : r.dataPdata = readWord m (s.lsu.dataQaddr (s.lsuPort i false))

/-- The memory after the request on the data port. -/
def memAfter (s : CoreState k) (i : CoreIn cfg) (m : Mem) : Mem :=
  let p := s.lsuPort i false
  if s.lsu.dataQvalid p && s.lsu.dataQwrite p then
    lanesWritten m (s.lsu.dataQaddr p) (s.lsu.dataQstrb p) (s.lsu.dataQdata p)
  else m

/-- What the instruction leaves behind, and whether it trapped. -/
def outcome (s : CoreState k) (m : Mem) (i : CoreIn cfg) (waits : List (CoreIn cfg))
    (r : CoreIn cfg) : Option Trap × State cfg :=
  (if s.exception i then
      some (if (decode cfg i.instData).isStore then .storeAddressMisaligned
        else .loadAddressMisaligned)
    else none,
    { xpr := (s.after (i :: waits ++ [r])).regs
      mem := s.memAfter i m
      accesses := if s.lsuQvalid i then [((s.lsuReq i).qaddr, (s.lsuReq i).qsize)] else [] })

theorem stall_of_not_ready {s : CoreState k} {i : CoreIn cfg} (h : i.instReady = false) :
    s.stall i = true := by
  simp [stall, validInstr, h]

theorem lsuQvalid_of_not_ready {s : CoreState k} {i : CoreIn cfg} (h : i.instReady = false) :
    s.lsuQvalid i = false := by
  simp [lsuQvalid, validInstr, h]

/-- Ports of which one writes at most. -/
theorem write_of_written {x : RegFile cfg} {ports : List (WritePort cfg)} {p : WritePort cfg}
    (h : ∀ a v, RegFile.written ports a v = if p.we && p.waddr == a then p.wdata else v) :
    x.write ports = if p.we then writeXpr x p.waddr p.wdata else x := by
  apply RegFile.ext
  funext a
  change (if a = 0 then 0 else RegFile.written ports a (x.mem a)) = _
  rw [h]
  cases p.we with
  | false =>
      split
      · next hz => rw [hz]; exact x.zero.symm
      · rfl
  | true =>
      change _ = if a = p.waddr ∧ p.waddr ≠ 0 then p.wdata else x.mem a
      by_cases hz : a = 0
      · rw [if_pos hz, if_neg (fun h => h.2 (h.1.symm.trans hz)), hz, x.zero]
      · rw [if_neg hz]
        by_cases ha : a = p.waddr
        · have hr : p.waddr ≠ 0 := fun hr => hz (ha.trans hr)
          rw [if_pos (And.intro ha hr), if_pos (by simp [ha])]
        · rw [if_neg (by simp [Ne.symm ha]), if_neg (fun hboth => ha hboth.1)]

/-- With no answer in the cycle, only the instruction's own port writes. -/
theorem regs_next_of_quiet {s : CoreState k} {i : CoreIn cfg} (hacc : i.accPvalid = false)
    (hload : i.dataPvalid = false) :
    (s.next i).regs =
      if (s.ownPort i).we then writeXpr s.regs (s.ownPort i).waddr (s.ownPort i).wdata
      else s.regs := by
  have hl : (s.loadPort i).we = false := by simp [loadPort, lsuPvalid, lsuPort, hload]
  have ha : (accPort i).we = false := hacc
  refine write_of_written fun a v => ?_
  rw [writeBack, Snitch.writeBack, hl, ha]
  cases cfg.twoWritePorts <;> cases hown : (s.ownPort i).we <;> simp [RegFile.written, hl, hown]

/-- With the instruction held back, only the load's port writes. -/
theorem regs_next_of_load {s : CoreState k} {i : CoreIn cfg} (h : Alone i) :
    (s.next i).regs =
      if (s.loadPort i).we then writeXpr s.regs (s.loadPort i).waddr (s.loadPort i).wdata
      else s.regs := by
  have hown := ownPort_of_stall (stall_of_not_ready (s := s) h.1)
  have ha : (accPort i).we = false := h.2
  refine write_of_written fun a v => ?_
  rw [writeBack, Snitch.writeBack, hown, ha]
  cases cfg.twoWritePorts <;> cases hl : (s.loadPort i).we <;> simp [RegFile.written, hl, hown]

theorem regs_after_waits {t : CoreState k} {waits : List (CoreIn cfg)}
    (h : ∀ w ∈ waits, Alone w ∧ w.dataPvalid = false) : (t.after waits).regs = t.regs := by
  induction waits generalizing t with
  | nil => rfl
  | cons w ws ih =>
      obtain ⟨halone, hnone⟩ := h w (List.mem_cons_self ..)
      have hstep : (t.next w).regs = t.regs := by
        rw [regs_next_of_load halone]
        simp [loadPort, lsuPvalid, lsuPort, hnone]
      exact (ih fun v hv => h v (List.mem_cons_of_mem _ hv)).trans hstep

theorem sent_after_waits {t : CoreState k} {id : MetaId cfg} {md : Metadata cfg}
    {waits : List (CoreIn cfg)} (h : ∀ w ∈ waits, Alone w ∧ w.dataPvalid = false)
    (hsent : t.lsu.Sent id md) : (t.after waits).lsu.Sent id md := by
  induction waits generalizing t with
  | nil => exact hsent
  | cons w ws ih =>
      have halone := (h w (List.mem_cons_self ..)).1
      exact ih (fun v hv => h v (List.mem_cons_of_mem _ hv))
        (hsent.next (lsuQvalid_of_not_ready halone.1))

theorem writeXpr_zero (x : RegFile cfg) (v : Word) : writeXpr x 0 v = x := by
  apply RegFile.ext
  funext a
  exact if_neg fun h => h.2 rfl

section Run

variable {s : CoreState k} {m : Mem} {i r : CoreIn cfg} {waits : List (CoreIn cfg)}

/-- The increment is written in the cycle of the issue. -/
theorem regs_issue (h : MemoryRun s m i waits r)
    (hmem : (decode cfg i.instData).isLoad = true ∨ (decode cfg i.instData).isStore = true) :
    (s.next i).regs =
      if s.writeRs1 i then writeXpr s.regs (rs1 cfg i.instData) (s.aluWriteback i)
      else s.regs := by
  have hwrite : (decode cfg i.instData).writeRd = false :=
    writeRd_of_unit (hmem.elim .inl fun h => .inr (.inl h))
  have hi : s.retireI i = false := by simp [retireI, writeRd, hwrite]
  rw [regs_next_of_quiet h.quiet.1 h.quiet.2]
  cases hp : s.writeRs1 i with
  | false => simp [ownPort, retireP, hi, hp]
  | true =>
      by_cases hz : rs1 cfg i.instData = 0
      · simp only [hz, writeXpr_zero]
        simp [ownPort, retireP, hi, hz]
      · have hretire : s.retireP i = true := by
          rw [retireP, hp, h.issues, bne_iff_ne.mpr hz]
          rfl
        simp [ownPort, hretire]

/-- A trap leaves the registers alone. -/
theorem run_trap (h : MemoryRun s m i waits r)
    (hmem : (decode cfg i.instData).isLoad = true ∨ (decode cfg i.instData).isStore = true)
    (hex : s.exception i = true) : (s.after (i :: waits ++ [r])).regs = s.regs := by
  have hnone : r.dataPvalid = false := by rw [h.answered, hex]; rfl
  have hissue : (s.next i).regs = s.regs := by
    rw [regs_issue h hmem]
    simp [writeRs1, hex]
  rw [after_append]
  change (((s.next i).after waits).next r).regs = _
  rw [regs_next_of_load h.alone]
  simp [loadPort, lsuPvalid, lsuPort, hnone, regs_after_waits h.waiting, hissue]

/-- The request of the instruction is the one on the data port. -/
theorem MemoryRun.offers (h : MemoryRun s m i waits r) (hq : s.lsuQvalid i = true)
    (pready : Bool) : s.lsu.Offers (s.lsuPort i pready) :=
  h.idle.offers hq

theorem MemoryRun.sent (h : MemoryRun s m i waits r) (hq : s.lsuQvalid i = true) :
    ((s.next i).after waits).lsu.Sent s.lsu.reqId
      (s.lsu.reqMetadata (s.lsuPort i (s.writeBack i).lsuPready)) := by
  have hissue : (s.next i).lsu.Sent s.lsu.reqId
      (s.lsu.reqMetadata (s.lsuPort i (s.writeBack i).lsuPready)) := h.idle.sent hq
  exact sent_after_waits h.waiting hissue

/-- Where the answer of the load goes, and how it is cut out of the word. -/
def loadMetadata (s : CoreState k) (i : CoreIn cfg) : Metadata cfg where
  write := false
  tag := rd cfg i.instData
  signExt := (decode cfg i.instData).isSigned
  offset := (s.lsuQaddr i).extractLsb' 0 2
  size := (decode cfg i.instData).lsSize

/-- The answer of a load is written last, over an increment of the same register. -/
theorem run_load (h : MemoryRun s m i waits r) (hload : (decode cfg i.instData).isLoad = true)
    (hstore : (decode cfg i.instData).isStore = false) (hex : s.exception i = false) :
    (s.after (i :: waits ++ [r])).regs =
      writeXpr (s.next i).regs (rd cfg i.instData)
        (loadResult (s.loadMetadata i) (readWord m (wordAddr (s.lsuQaddr i)))) := by
  have hq : s.lsuQvalid i = true := lsuQvalid_of_issue h.issues hex (by simp [hload])
  have hreq := (h.offers hq (s.writeBack i).lsuPready).req
  have hmeta : s.lsu.reqMetadata (s.lsuPort i (s.writeBack i).lsuPready) = s.loadMetadata i := by
    rw [reqMetadata, hreq]
    simp [lsuPort, lsuReq, lsuQtag, loadMetadata, hq, hstore]
  have hsent := h.sent hq
  have hdata : s.lsu.dataQaddr (s.lsuPort i false) = wordAddr (s.lsuQaddr i) := by
    rw [dataQaddr, (h.offers hq false).req]
    rfl
  have hresp : ((s.next i).after waits).lsu.respMetadata
      (((s.next i).after waits).lsuPort r false) = s.loadMetadata i := by
    rw [respMetadata]
    change ((s.next i).after waits).lsu.metadata r.dataPid = _
    rw [h.id]
    exact hsent.metadata.trans hmeta
  rw [after_append]
  change (((s.next i).after waits).next r).regs = _
  rw [regs_next_of_load h.alone, regs_after_waits h.waiting]
  have hwe : (((s.next i).after waits).loadPort r).we = true := by
    rw [loadPort, lsuPvalid, hresp]
    simp [lsuPort, loadMetadata, h.answered, hex]
  rw [if_pos hwe]
  simp only [loadPort, lsuPtag, ldResult, hresp]
  rw [show (((s.next i).after waits).lsuPort r false).dataPdata = r.dataPdata from rfl, h.data,
    hdata]
  rfl

theorem run_store (h : MemoryRun s m i waits r)
    (hstore : (decode cfg i.instData).isStore = true) (hex : s.exception i = false) :
    (s.after (i :: waits ++ [r])).regs = (s.next i).regs := by
  have hq : s.lsuQvalid i = true := lsuQvalid_of_issue h.issues hex (by simp [hstore])
  have hreq := (h.offers hq (s.writeBack i).lsuPready).req
  have hsent := h.sent hq
  have hwrite : (s.lsu.reqMetadata (s.lsuPort i (s.writeBack i).lsuPready)).write = true := by
    rw [reqMetadata, hreq]
    exact hstore
  rw [after_append]
  change (((s.next i).after waits).next r).regs = _
  rw [regs_next_of_load h.alone, regs_after_waits h.waiting]
  have hwe : (((s.next i).after waits).loadPort r).we = false := by
    rw [loadPort, lsuPvalid, respMetadata]
    change (r.dataPvalid && !(((s.next i).after waits).lsu.metadata r.dataPid).write) = false
    rw [h.id, hsent.metadata, hwrite]
    simp
  rw [hwe]
  rfl

/-! ## The core's outcome -/

theorem outcome_trap (h : MemoryRun s m i waits r)
    (hlegal : (decode cfg i.instData).illegalInst = false)
    (hmem : (decode cfg i.instData).isLoad = true ∨ (decode cfg i.instData).isStore = true)
    (hex : s.exception i = true) :
    s.outcome m i waits r =
      (some (if (decode cfg i.instData).isStore then .storeAddressMisaligned
        else .loadAddressMisaligned), ⟨s.regs, m, []⟩) := by
  have halign : s.addrMisaligned i = true := by simpa [exception, hlegal] using hex
  have hq : s.lsuQvalid i = false := by simp [lsuQvalid, halign]
  have hoff : s.lsu.dataQvalid (s.lsuPort i false) = false := by
    rw [dataQvalid, postregValid, k.reqReg.empty_eq, h.idle.contents, regPush]
    simp [lsuPort, hq]
  rw [outcome, run_trap h hmem hex, memAfter, hoff]
  simp [hex, hq]

theorem outcome_load (h : MemoryRun s m i waits r)
    (hload : (decode cfg i.instData).isLoad = true)
    (hstore : (decode cfg i.instData).isStore = false) (hex : s.exception i = false)
    (hsize : (decode cfg i.instData).lsSize ≠ .double)
    (halign : misaligned (decode cfg i.instData).lsSize (s.lsuQaddr i) = false) :
    s.outcome m i waits r =
      (none, ⟨writeXpr (s.next i).regs (rd cfg i.instData)
        (loaded (decode cfg i.instData).lsSize (decode cfg i.instData).isSigned m (s.lsuQaddr i)),
        m, [(s.lsuQaddr i, (decode cfg i.instData).lsSize)]⟩) := by
  have hq : s.lsuQvalid i = true := lsuQvalid_of_issue h.issues hex (by simp [hload])
  have hread : s.lsu.dataQwrite (s.lsuPort i false) = false := by
    rw [dataQwrite, (h.offers hq false).req]
    exact hstore
  have hvalue : loadResult (s.loadMetadata i) (readWord m (wordAddr (s.lsuQaddr i))) =
      loaded (decode cfg i.instData).lsSize (decode cfg i.instData).isSigned m (s.lsuQaddr i) :=
    loadResult_eq (s.loadMetadata i) m (s.lsuQaddr i) rfl hsize halign
  rw [outcome, run_load h hload hstore hex, hvalue, memAfter, hread]
  simp [hex, hq, lsuReq]

theorem outcome_store (h : MemoryRun s m i waits r)
    (hstore : (decode cfg i.instData).isStore = true) (hex : s.exception i = false)
    (hsize : (decode cfg i.instData).lsSize ≠ .double)
    (halign : misaligned (decode cfg i.instData).lsSize (s.lsuQaddr i) = false) :
    s.outcome m i waits r =
      (none, ⟨(s.next i).regs,
        stored (decode cfg i.instData).lsSize m (s.lsuQaddr i) (s.gprRdata1 i),
        [(s.lsuQaddr i, (decode cfg i.instData).lsSize)]⟩) := by
  have hq : s.lsuQvalid i = true := lsuQvalid_of_issue h.issues hex (by simp [hstore])
  have hoffer := h.offers hq false
  have hmem : s.memAfter i m =
      stored (decode cfg i.instData).lsSize m (s.lsuQaddr i) (s.gprRdata1 i) := by
    rw [← lanesWritten_eq _ m _ _ hsize halign, memAfter]
    simp only [dataQwrite, dataQaddr, dataQstrb, dataQdata, hoffer.valid, hoffer.req]
    simp [lsuPort, lsuReq, hstore, lsuQdata, hq]
  rw [outcome, run_store h hstore hex, hmem]
  simp [hex, hq, lsuReq]

end Run

/-! ## The simulator's outcome -/

theorem load_of_misaligned {size : LsSize} {signed : Bool} {st : State cfg} {addr : Word}
    (h : misaligned size addr = true) :
    load size signed st addr = .error .loadAddressMisaligned :=
  if_pos h

theorem load_of_aligned {size : LsSize} {signed : Bool} {st : State cfg} {addr : Word}
    (h : ¬ misaligned size addr = true) :
    load size signed st addr = .ok (loaded size signed st.mem addr,
      { st with accesses := st.accesses ++ [(addr, size)] }) :=
  if_neg h

theorem store_of_misaligned {size : LsSize} {st : State cfg} {addr v : Word}
    (h : misaligned size addr = true) :
    store size st addr v = .error .storeAddressMisaligned :=
  if_pos h

theorem store_of_aligned {size : LsSize} {st : State cfg} {addr v : Word}
    (h : ¬ misaligned size addr = true) :
    store size st addr v = .ok { st with
      mem := stored size st.mem addr v
      accesses := st.accesses ++ [(addr, size)] } :=
  if_neg h

section Outcome

variable (offset : BitVec 32 → State cfg → Word) (size : LsSize) (signed : Bool)
  (inst : BitVec 32) (st : State cfg)

theorem outcome_loadPost :
    Spike.outcome (loadPost offset size signed) inst st =
      if misaligned size (st.reg (rs1 cfg inst)) then (some .loadAddressMisaligned, st)
      else
        let st' := State.write
          { st with accesses := st.accesses ++ [(st.reg (rs1 cfg inst), size)] }
          (rd cfg inst) (loaded size signed st.mem (st.reg (rs1 cfg inst)))
        (none, st'.write (rs1 cfg inst) (st'.reg (rs1 cfg inst) + offset inst st')) := by
  by_cases hmis : misaligned size (st.reg (rs1 cfg inst)) = true
  · rw [if_pos hmis, Spike.outcome, loadPost, load_of_misaligned hmis]
    rfl
  · rw [if_neg hmis, Spike.outcome, loadPost, load_of_aligned hmis]
    rfl

theorem outcome_loadRr :
    Spike.outcome (loadRr size signed) inst st =
      if misaligned size (st.reg (rs1 cfg inst) + st.reg (rs2 cfg inst)) then
        (some .loadAddressMisaligned, st)
      else
        let addr := st.reg (rs1 cfg inst) + st.reg (rs2 cfg inst)
        (none, State.write { st with accesses := st.accesses ++ [(addr, size)] } (rd cfg inst)
          (loaded size signed st.mem addr)) := by
  by_cases hmis : misaligned size (st.reg (rs1 cfg inst) + st.reg (rs2 cfg inst)) = true
  · rw [if_pos hmis, Spike.outcome, loadRr, load_of_misaligned hmis]
    rfl
  · rw [if_neg hmis, Spike.outcome, loadRr, load_of_aligned hmis]
    rfl

theorem outcome_storePost :
    Spike.outcome (storePost offset size) inst st =
      if misaligned size (st.reg (rs1 cfg inst)) then (some .storeAddressMisaligned, st)
      else
        let st' : State cfg := { st with
          mem := stored size st.mem (st.reg (rs1 cfg inst)) (st.reg (rs2 cfg inst))
          accesses := st.accesses ++ [(st.reg (rs1 cfg inst), size)] }
        (none, st'.write (rs1 cfg inst) (st'.reg (rs1 cfg inst) + offset inst st')) := by
  by_cases hmis : misaligned size (st.reg (rs1 cfg inst)) = true
  · rw [if_pos hmis, Spike.outcome, storePost, store_of_misaligned hmis]
    rfl
  · rw [if_neg hmis, Spike.outcome, storePost, store_of_aligned hmis]
    rfl

theorem outcome_storeRr :
    Spike.outcome (storeRr size) inst st =
      if misaligned size (st.reg (rs1 cfg inst) + st.reg (rd cfg inst)) then
        (some .storeAddressMisaligned, st)
      else
        let addr := st.reg (rs1 cfg inst) + st.reg (rd cfg inst)
        (none, { st with
          mem := stored size st.mem addr (st.reg (rs2 cfg inst))
          accesses := st.accesses ++ [(addr, size)] }) := by
  by_cases hmis : misaligned size (st.reg (rs1 cfg inst) + st.reg (rd cfg inst)) = true
  · rw [if_pos hmis, Spike.outcome, storeRr, store_of_misaligned hmis]
  · rw [if_neg hmis, Spike.outcome, storeRr, store_of_aligned hmis]

end Outcome

/-- Two writes in either order. -/
theorem writeXpr_swap_iff (x : RegFile cfg) {p q : RegIdx cfg} (u v w : Word) (hp : p ≠ 0)
    (hq : q ≠ 0) :
    writeXpr (writeXpr x p u) q v = writeXpr (writeXpr x q v) p w ↔
      w = if p = q then v else u := by
  constructor
  · intro h
    have hat := congrArg (fun y => RegFile.mem y p) h
    simp only [writeXpr, hp, hq, ne_eq, not_false_eq_true, and_true, if_true] at hat
    exact hat.symm
  · rintro rfl
    apply RegFile.ext
    funext a
    simp only [writeXpr, hp, hq, ne_eq, not_false_eq_true, and_true]
    by_cases ha : a = p <;> by_cases hb : a = q <;> simp_all

/-! ## The comparison -/

theorem alu_add (a b : Word) : alu .add a b = a + b := by
  have hlow : ∀ x : Word, (x.signExtend 33).setWidth 32 = x := by
    intro x
    ext j hj
    rw [BitVec.getElem_setWidth, BitVec.getLsbD_signExtend, if_pos hj,
      decide_eq_true (by omega), Bool.true_and, BitVec.getLsbD_eq_getElem hj]
  rw [alu, BitVec.setWidth_add _ _ (by omega), hlow, hlow]

/-- The offset a load adds to its base, with the registers `x`. -/
def loadOffset (cfg : CoreConfig) (reg : Bool) (inst : BitVec 32) (x : RegFile cfg) : Word :=
  if reg then x.mem (rs2 cfg inst) else iimm inst

def storeOffset (cfg : CoreConfig) (reg : Bool) (inst : BitVec 32) (x : RegFile cfg) : Word :=
  if reg then x.mem (rd cfg inst) else simm inst

/-- When the core and the simulator agree on a memory instruction: the incremented
address is aligned where the base is, and a load that overwrites the base or the offset
does not change what the base is incremented to. -/
def AgreesWhen (cfg : CoreConfig) (inst : BitVec 32) (x : RegFile cfg) (m : Mem) : Branch → Prop
  | .pulpLoad size signed reg post =>
      post = true →
        let base := x.mem (rs1 cfg inst)
        let offset := loadOffset cfg reg inst x
        misaligned size base = misaligned size (base + offset) ∧
        (misaligned size base = false → rd cfg inst ≠ 0 → rs1 cfg inst ≠ 0 →
          (if reg ∧ rs2 cfg inst = rd cfg inst then loaded size signed m base else offset) =
            if rs1 cfg inst = rd cfg inst then 0 else offset)
  | .pulpStore size reg post =>
      post = true →
        let base := x.mem (rs1 cfg inst)
        misaligned size base = misaligned size (base + storeOffset cfg reg inst x)
  | _ => True

/-- The registers after a post-increment load, as the core and as the simulator have
them. -/
theorem postLoad_regs_iff (x y : RegFile cfg) (inst : BitVec 32) (reg : Bool) (v : Word)
    (hy : y = writeXpr x (rd cfg inst) v) :
    writeXpr (writeXpr x (rs1 cfg inst) (x.mem (rs1 cfg inst) + loadOffset cfg reg inst x))
          (rd cfg inst) v =
        writeXpr y (rs1 cfg inst) (y.mem (rs1 cfg inst) + loadOffset cfg reg inst y) ↔
      (rd cfg inst ≠ 0 → rs1 cfg inst ≠ 0 →
        (if reg ∧ rs2 cfg inst = rd cfg inst then v else loadOffset cfg reg inst x) =
          if rs1 cfg inst = rd cfg inst then 0 else loadOffset cfg reg inst x) := by
  by_cases hd : rd cfg inst = 0
  · rw [hy, hd, writeXpr_zero, writeXpr_zero]
    exact ⟨fun _ hno => absurd rfl hno, fun _ => rfl⟩
  by_cases hs : rs1 cfg inst = 0
  · rw [hy, hs, writeXpr_zero, writeXpr_zero]
    exact ⟨fun _ _ hno => absurd rfl hno, fun _ => rfl⟩
  have hbase : y.mem (rs1 cfg inst) =
      if rs1 cfg inst = rd cfg inst then v else x.mem (rs1 cfg inst) := by
    simp only [hy, writeXpr, hd, ne_eq, not_false_eq_true, and_true]
  have hoffset : loadOffset cfg reg inst y =
      if reg ∧ rs2 cfg inst = rd cfg inst then v else loadOffset cfg reg inst x := by
    cases reg with
    | false => simp [loadOffset]
    | true =>
        simp only [loadOffset, hy, writeXpr, hd, ne_eq, not_false_eq_true, and_true, true_and,
          if_true]
  rw [hbase, hoffset, hy, writeXpr_swap_iff _ _ _ _ hs hd]
  simp only [ne_eq, hd, hs, not_false_eq_true, forall_const]
  by_cases heq : rs1 cfg inst = rd cfg inst
  · rw [if_pos heq, if_pos heq, if_pos heq]
    exact BitVec.add_right_eq_self
  · rw [if_neg heq, if_neg heq, if_neg heq]
    exact BitVec.add_right_inj _

section Compare

variable {s : CoreState k} {m : Mem} {i r : CoreIn cfg} {waits : List (CoreIn cfg)}

/-- What the decoder makes of a load. -/
def loadDecoded (size : LsSize) (signed reg post : Bool) : Decoded :=
  { writeRd := false, writeRs1 := post, isLoad := true, isPostincr := post
    isSigned := signed, lsSize := size, opaSelect := .reg
    opbSelect := if reg then .reg else .iImmediate }

def storeDecoded (size : LsSize) (reg post : Bool) : Decoded :=
  { writeRd := false, usesRd := reg, writeRs1 := post, isStore := true, isPostincr := post
    lsSize := size, opaSelect := .reg, opbSelect := if reg then .regRd else .sImmediate
    opcSelect := if reg then .regRs2 else .none }

section Load

variable {size : LsSize} {signed reg post : Bool}
  (hdec : decode cfg i.instData = loadDecoded size signed reg post)

include hdec

theorem aluResult_load : s.aluResult i =
    s.regs.mem (rs1 cfg i.instData) + loadOffset cfg reg i.instData s.regs := by
  rw [aluResult, opa, opb, hdec]
  cases reg <;> exact alu_add _ _

/-- The core checks the sum, whether or not it is the address. -/
theorem exception_load : s.exception i = misaligned size
    (s.regs.mem (rs1 cfg i.instData) + loadOffset cfg reg i.instData s.regs) := by
  rw [exception, addrMisaligned, lsMisaligned_eq, aluResult_load hdec, hdec]
  simp [loadDecoded]

theorem regs_issue_load (h : MemoryRun s m i waits r) (hex : s.exception i = false) :
    (s.next i).regs =
      if post then writeXpr s.regs (rs1 cfg i.instData)
        (s.regs.mem (rs1 cfg i.instData) + loadOffset cfg reg i.instData s.regs)
      else s.regs := by
  have hmem : (decode cfg i.instData).isLoad = true := by rw [hdec]; rfl
  have hback : s.aluWriteback i = s.aluResult i := by rw [aluWriteback, hdec]; rfl
  rw [regs_issue h (.inl hmem), hback, aluResult_load hdec]
  simp [writeRs1, hex, hdec, loadDecoded]

theorem lsuQaddr_load (h : MemoryRun s m i waits r) (hex : s.exception i = false) :
    s.lsuQaddr i =
      if post then s.regs.mem (rs1 cfg i.instData)
      else s.regs.mem (rs1 cfg i.instData) + loadOffset cfg reg i.instData s.regs := by
  have hq : s.lsuQvalid i = true := lsuQvalid_of_issue h.issues hex (by rw [hdec]; rfl)
  rw [lsuQaddr, hq, aluResult_load hdec, hdec]
  rfl

/-- The core's outcome of a load whose address is aligned. -/
theorem outcome_load_eq (h : MemoryRun s m i waits r) (hex : s.exception i = false)
    (hsize : size ≠ .double) {addr : Word}
    (haddr : addr = if post then s.regs.mem (rs1 cfg i.instData)
      else s.regs.mem (rs1 cfg i.instData) + loadOffset cfg reg i.instData s.regs)
    (halign : misaligned size addr = false) :
    s.outcome m i waits r =
      (none, ⟨writeXpr (s.next i).regs (rd cfg i.instData) (loaded size signed m addr), m,
        [(addr, size)]⟩) := by
  have hq := lsuQaddr_load hdec h hex
  rw [← haddr] at hq
  have hout := outcome_load h (by rw [hdec]; rfl)
    (by rw [hdec]; rfl) hex (by rw [hdec]; exact hsize)
    (by rw [hdec, hq]; exact halign)
  rw [hdec, hq] at hout
  exact hout

theorem outcome_load_trap (h : MemoryRun s m i waits r) (hex : s.exception i = true) :
    s.outcome m i waits r = (some .loadAddressMisaligned, ⟨s.regs, m, []⟩) := by
  have hout := outcome_trap h (by rw [hdec]; rfl) (.inl (by rw [hdec]; rfl)) hex
  rw [hdec] at hout
  exact hout

end Load

theorem loadPost_agrees {size : LsSize} {signed reg : Bool} (h : MemoryRun s m i waits r)
    (hdec : decode cfg i.instData = loadDecoded size signed reg true) (hsize : size ≠ .double) :
    s.outcome m i waits r =
        Spike.outcome (loadPost (fun inst st => loadOffset cfg reg inst st.xpr) size signed)
          i.instData ⟨s.regs, m, []⟩ ↔
      AgreesWhen cfg i.instData s.regs m (.pulpLoad size signed reg true) := by
  have hex := exception_load (s := s) hdec
  rw [outcome_loadPost]
  change _ = (if misaligned size (s.regs.mem (rs1 cfg i.instData)) = true then _ else _) ↔
    (true = true → _ ∧ _)
  rw [← hex]
  cases hb : misaligned size (s.regs.mem (rs1 cfg i.instData)) with
  | true =>
      cases he : s.exception i with
      | true => simp [outcome_load_trap hdec h he]
      | false => simp [outcome, he]
  | false =>
      cases he : s.exception i with
      | true => simp [outcome, he]
      | false =>
          rw [outcome_load_eq hdec h he hsize rfl hb, regs_issue_load hdec h he]
          simp only [if_true, Bool.false_eq_true, if_false, Prod.mk.injEq, true_and,
            State.write, State.mk.injEq, and_true, State.reg, List.nil_append, forall_const]
          exact postLoad_regs_iff s.regs _ i.instData reg _ rfl

/-- Without post-increment, the sum is the address. -/
theorem loadRr_agrees {size : LsSize} {signed : Bool} (h : MemoryRun s m i waits r)
    (hdec : decode cfg i.instData = loadDecoded size signed true false) (hsize : size ≠ .double) :
    s.outcome m i waits r =
      Spike.outcome (loadRr size signed) i.instData ⟨s.regs, m, []⟩ := by
  have hex := exception_load (s := s) hdec
  rw [outcome_loadRr]
  change _ = if misaligned size (s.regs.mem (rs1 cfg i.instData) +
    loadOffset cfg true i.instData s.regs) = true then _ else _
  rw [← hex]
  cases he : s.exception i with
  | true => exact outcome_load_trap hdec h he
  | false =>
      rw [outcome_load_eq hdec h he hsize rfl (hex.symm.trans he), regs_issue_load hdec h he]
      rfl

section Store

variable {size : LsSize} {reg post : Bool} (hport : cfg.xpulpimg = true)
  (hdec : decode cfg i.instData = storeDecoded size reg post)

include hport hdec

theorem aluResult_store : s.aluResult i =
    s.regs.mem (rs1 cfg i.instData) + storeOffset cfg reg i.instData s.regs := by
  have hthird : s.gprRdata2 i = s.regs.mem (rd cfg i.instData) :=
    gprRdata2_eq (by simp [CoreConfig.thirdReadPort, hport])
  rw [aluResult, opa, opb, hdec, hthird]
  cases reg <;> exact alu_add _ _

theorem exception_store : s.exception i = misaligned size
    (s.regs.mem (rs1 cfg i.instData) + storeOffset cfg reg i.instData s.regs) := by
  rw [exception, addrMisaligned, lsMisaligned_eq, aluResult_store hport hdec, hdec]
  simp [storeDecoded]

theorem regs_issue_store (h : MemoryRun s m i waits r) (hex : s.exception i = false) :
    (s.next i).regs =
      if post then writeXpr s.regs (rs1 cfg i.instData)
        (s.regs.mem (rs1 cfg i.instData) + storeOffset cfg reg i.instData s.regs)
      else s.regs := by
  have hmem : (decode cfg i.instData).isStore = true := by rw [hdec]; rfl
  have hback : s.aluWriteback i = s.aluResult i := by rw [aluWriteback, hdec]; rfl
  rw [regs_issue h (.inr hmem), hback, aluResult_store hport hdec]
  simp [writeRs1, hex, hdec, storeDecoded]

theorem lsuQaddr_store (h : MemoryRun s m i waits r) (hex : s.exception i = false) :
    s.lsuQaddr i =
      if post then s.regs.mem (rs1 cfg i.instData)
      else s.regs.mem (rs1 cfg i.instData) + storeOffset cfg reg i.instData s.regs := by
  have hq : s.lsuQvalid i = true := lsuQvalid_of_issue h.issues hex (by rw [hdec]; rfl)
  rw [lsuQaddr, hq, aluResult_store hport hdec, hdec]
  rfl

theorem outcome_store_eq (h : MemoryRun s m i waits r) (hex : s.exception i = false)
    (hsize : size ≠ .double) {addr : Word}
    (haddr : addr = if post then s.regs.mem (rs1 cfg i.instData)
      else s.regs.mem (rs1 cfg i.instData) + storeOffset cfg reg i.instData s.regs)
    (halign : misaligned size addr = false) :
    s.outcome m i waits r =
      (none, ⟨(s.next i).regs, stored size m addr (s.regs.mem (rs2 cfg i.instData)),
        [(addr, size)]⟩) := by
  have hq := lsuQaddr_store hport hdec h hex
  rw [← haddr] at hq
  have hout := outcome_store h (by rw [hdec]; rfl) hex (by rw [hdec]; exact hsize)
    (by rw [hdec, hq]; exact halign)
  rw [hdec, hq] at hout
  exact hout

omit hport in
theorem outcome_store_trap (h : MemoryRun s m i waits r) (hex : s.exception i = true) :
    s.outcome m i waits r = (some .storeAddressMisaligned, ⟨s.regs, m, []⟩) := by
  have hout := outcome_trap h (by rw [hdec]; rfl) (.inr (by rw [hdec]; rfl)) hex
  rw [hdec] at hout
  exact hout

end Store

theorem storePost_agrees {size : LsSize} {reg : Bool} (hport : cfg.xpulpimg = true)
    (h : MemoryRun s m i waits r)
    (hdec : decode cfg i.instData = storeDecoded size reg true) (hsize : size ≠ .double) :
    s.outcome m i waits r =
        Spike.outcome (storePost (fun inst st => storeOffset cfg reg inst st.xpr) size)
          i.instData ⟨s.regs, m, []⟩ ↔
      AgreesWhen cfg i.instData s.regs m (.pulpStore size reg true) := by
  have hex := exception_store (s := s) hport hdec
  rw [outcome_storePost]
  change _ = (if misaligned size (s.regs.mem (rs1 cfg i.instData)) = true then _ else _) ↔
    (true = true → misaligned size (s.regs.mem (rs1 cfg i.instData)) = misaligned size
      (s.regs.mem (rs1 cfg i.instData) + storeOffset cfg reg i.instData s.regs))
  rw [← hex]
  cases hb : misaligned size (s.regs.mem (rs1 cfg i.instData)) with
  | true =>
      cases he : s.exception i with
      | true => simp [outcome_store_trap hdec h he]
      | false => simp [outcome, he]
  | false =>
      cases he : s.exception i with
      | true => simp [outcome, he]
      | false =>
          rw [outcome_store_eq hport hdec h he hsize rfl hb, regs_issue_store hport hdec h he]
          simp only [if_true, Bool.false_eq_true, if_false, forall_const, iff_true]
          rfl

theorem storeRr_agrees {size : LsSize} (hport : cfg.xpulpimg = true)
    (h : MemoryRun s m i waits r)
    (hdec : decode cfg i.instData = storeDecoded size true false) (hsize : size ≠ .double) :
    s.outcome m i waits r = Spike.outcome (storeRr size) i.instData ⟨s.regs, m, []⟩ := by
  have hex := exception_store (s := s) hport hdec
  rw [outcome_storeRr]
  change _ = if misaligned size (s.regs.mem (rs1 cfg i.instData) +
    storeOffset cfg true i.instData s.regs) = true then _ else _
  rw [← hex]
  cases he : s.exception i with
  | true => exact outcome_store_trap hdec h he
  | false =>
      rw [outcome_store_eq hport hdec h he hsize rfl (hex.symm.trans he),
        regs_issue_store hport hdec h he]
      rfl

end Compare

/-! ## The table -/

/-- The decoder's case of every memory instruction. -/
def memoryBranch : Op → Option Branch
  | .pLbIrpost => some (.pulpLoad .byte true false true)
  | .pLbuIrpost => some (.pulpLoad .byte false false true)
  | .pLhIrpost => some (.pulpLoad .halfWord true false true)
  | .pLhuIrpost => some (.pulpLoad .halfWord false false true)
  | .pLwIrpost => some (.pulpLoad .word true false true)
  | .pLbRrpost => some (.pulpLoad .byte true true true)
  | .pLbuRrpost => some (.pulpLoad .byte false true true)
  | .pLhRrpost => some (.pulpLoad .halfWord true true true)
  | .pLhuRrpost => some (.pulpLoad .halfWord false true true)
  | .pLwRrpost => some (.pulpLoad .word true true true)
  | .pLbRr => some (.pulpLoad .byte true true false)
  | .pLbuRr => some (.pulpLoad .byte false true false)
  | .pLhRr => some (.pulpLoad .halfWord true true false)
  | .pLhuRr => some (.pulpLoad .halfWord false true false)
  | .pLwRr => some (.pulpLoad .word true true false)
  | .pSbIrpost => some (.pulpStore .byte false true)
  | .pShIrpost => some (.pulpStore .halfWord false true)
  | .pSwIrpost => some (.pulpStore .word false true)
  | .pSbRrpost => some (.pulpStore .byte true true)
  | .pShRrpost => some (.pulpStore .halfWord true true)
  | .pSwRrpost => some (.pulpStore .word true true)
  | .pSbRr => some (.pulpStore .byte true false)
  | .pShRr => some (.pulpStore .halfWord true false)
  | .pSwRr => some (.pulpStore .word true false)
  | _ => none

theorem branch_of_op {inst : BitVec 32} {row : Row} {b : Branch} (hrow : rowOf inst = some row)
    (hb : memoryBranch row.op = some b) : row.branch = b := by
  have hall : rows.all (fun r => match memoryBranch r.op with
      | some b => r.branch == b
      | none => true) = true := by decide +kernel
  have hrest := List.all_eq_true.mp hall row (List.mem_of_find?_eq_some hrow)
  rw [hb] at hrest
  simpa using hrest

/-- The simulator's body of every memory instruction is the one for the decoder's case. -/
theorem memory_cases {inst : BitVec 32} {row : Row} {f : Insn cfg}
    (hrow : rowOf inst = some row) (hf : memoryInsn row.op = some f) :
    (∃ size signed reg, size ≠ .double ∧ row.branch = .pulpLoad size signed reg true ∧
      f = loadPost (fun inst st => loadOffset cfg reg inst st.xpr) size signed) ∨
    (∃ size signed, size ≠ .double ∧ row.branch = .pulpLoad size signed true false ∧
      f = loadRr size signed) ∨
    (∃ size reg, size ≠ .double ∧ row.branch = .pulpStore size reg true ∧
      f = storePost (fun inst st => storeOffset cfg reg inst st.xpr) size) ∨
    ∃ size, size ≠ .double ∧ row.branch = .pulpStore size true false ∧ f = storeRr size := by
  have hbranch : ∀ b, memoryBranch row.op = some b → row.branch = b :=
    fun b => branch_of_op hrow
  generalize row.op = op at hf hbranch
  unfold memoryInsn at hf
  split at hf <;> simp only [Option.some.injEq, reduceCtorEq] at hf <;> subst hf
  -- in the order of the table: loads, then stores, each by the kind of its offset
  iterate 5 next => exact .inl ⟨_, _, false, by decide, hbranch _ rfl, rfl⟩
  iterate 5 next => exact .inl ⟨_, _, true, by decide, hbranch _ rfl, rfl⟩
  iterate 5 next => exact .inr (.inl ⟨_, _, by decide, hbranch _ rfl, rfl⟩)
  iterate 3 next => exact .inr (.inr (.inl ⟨_, false, by decide, hbranch _ rfl, rfl⟩))
  iterate 3 next => exact .inr (.inr (.inl ⟨_, true, by decide, hbranch _ rfl, rfl⟩))
  iterate 3 next => exact .inr (.inr (.inr ⟨_, by decide, hbranch _ rfl, rfl⟩))

theorem pulp_memory_agrees_iff (s : CoreState k) (m : Mem) (i : CoreIn cfg)
    (waits : List (CoreIn cfg)) (r : CoreIn cfg) (row : Row) (f : Insn cfg)
    (hrow : rowOf i.instData = some row) (hf : memoryInsn row.op = some f)
    (hx : cfg.xpulpimg = true) (h : MemoryRun s m i waits r) :
    s.outcome m i waits r = Spike.outcome f i.instData ⟨s.regs, m, []⟩ ↔
      AgreesWhen cfg i.instData s.regs m row.branch := by
  have hdec : decode cfg i.instData = _ := decode_of_row hrow
  rcases memory_cases hrow hf with ⟨size, signed, reg, hsize, hb, rfl⟩ |
    ⟨size, signed, hsize, hb, rfl⟩ | ⟨size, reg, hsize, hb, rfl⟩ | ⟨size, hsize, hb, rfl⟩
  · rw [hb, Branch.decode, if_pos hx] at hdec
    rw [hb]
    exact loadPost_agrees h hdec hsize
  · rw [hb, Branch.decode, if_pos hx] at hdec
    rw [hb, loadRr_agrees h hdec hsize]
    simp [AgreesWhen]
  · rw [hb, Branch.decode, if_pos hx] at hdec
    rw [hb]
    exact storePost_agrees hx h hdec hsize
  · rw [hb, Branch.decode, if_pos hx] at hdec
    rw [hb, storeRr_agrees hx h hdec hsize]
    simp [AgreesWhen]

/-- The core after reset, but with 256 in `x6`. -/
def baseInX6 : CoreState (LsuCells.plain mempoolCore) :=
  { CoreState.reset _ with regs := writeXpr .reset 6#5 256 }

/-- The answer of a memory that is zero everywhere. -/
def zeroAnswer : CoreIn mempoolCore :=
  { CoreIn.present mempoolCore 0 with instReady := false, dataPvalid := true }

theorem baseInX6_run (inst : BitVec 32)
    (hissue : baseInX6.stall (.present mempoolCore inst) = false)
    (hex : baseInX6.exception (.present mempoolCore inst) = false) :
    baseInX6.MemoryRun (fun _ => 0) (.present mempoolCore inst) [] zeroAnswer where
  idle := ⟨rfl, rfl, fun _ => rfl⟩
  issues := hissue
  quiet := ⟨rfl, rfl⟩
  waiting := by simp
  alone := ⟨rfl, rfl⟩
  answered := by rw [hex]; rfl
  id := by decide +kernel
  data := by
    change (0 : Word) = (0 : BitVec 8) ++ (0 : BitVec 8) ++ (0 : BitVec 8) ++ (0 : BitVec 8)
    decide

/-- `p.lw x5, 4(x6!)`. -/
theorem pulp_memory_agrees_incrementFour :
    baseInX6.outcome (fun _ => 0) (.present mempoolCore 0x43228b) [] zeroAnswer =
      Spike.outcome pLwIrpost 0x43228b ⟨baseInX6.regs, fun _ => 0, []⟩ :=
  (pulp_memory_agrees_iff baseInX6 (fun _ => 0) (.present mempoolCore 0x43228b) [] zeroAnswer
    ⟨.pLwIrpost, 0x0000707f, 0x0000200b, .pulpLoad .word true false true⟩ pLwIrpost
    (by decide +kernel) rfl rfl (baseInX6_run _ (by decide +kernel) (by decide +kernel))).mpr
    fun _ => ⟨by decide +kernel, fun _ _ _ => by decide +kernel⟩

/-- `p.lw x5, 2(x6!)` traps, although it accesses an aligned word. -/
theorem increment_by_two_traps :
    baseInX6.stall (.present mempoolCore 0x23228b) = false ∧
      (baseInX6.outcome (fun _ => 0) (.present mempoolCore 0x23228b) [] zeroAnswer).1 =
        some .loadAddressMisaligned ∧
      (Spike.outcome pLwIrpost 0x23228b ⟨baseInX6.regs, fun _ => 0, []⟩).1 = none := by
  refine ⟨?_, ?_, ?_⟩ <;> decide +kernel

end CoreState

end TeraNoC.Snitch
