import TeraNoC.Lib.Scoreboard
import TeraNoC.Proofs.Issue
import TeraNoC.Proofs.LsuTickets

/-!
# Registers are read and written in program order

The core issues its instructions in order, but their results come back in any order: a
load when the memory answers, an offloaded instruction when its unit does. A `Tracked`
core is a core together with what the program order is about: the instructions are
numbered as they are issued, every write of a register is noted with the number of its
instruction, and every request carries that number to the unit that answers it. The
core itself knows none of this. What it does know, one busy bit a register and the
identifiers of the load/store unit, is enough: in every run in which the units answer
only what they were asked (`Tracked.Legal`) the registers are those of a machine that
completes each instruction before it starts the next.
-/

namespace TeraNoC.Snitch

open TeraNoC.Hw TeraNoC.Lib

variable {cfg : CoreConfig} {k : LsuCells cfg}

/-! ## What the decoder keeps apart -/

/-- An instruction is for one unit at most, and has at most one result of its own. -/
structure Decoded.Exclusive (d : Decoded) : Prop where
  load : d.isLoad = true → d.isStore = false ∧ d.accQvalid = false ∧ d.accRegisterRd = false ∧
    d.fence = false ∧ d.usesRd = true
  store : d.isStore = true → d.accQvalid = false ∧ d.accRegisterRd = false ∧ d.fence = false
  unit : d.accRegisterRd = true → d.accQvalid = true ∧ d.usesRd = true ∧ d.fence = false
  offload : d.accQvalid = true → d.isLoad = false ∧ d.isStore = false ∧ d.fence = false ∧
    d.writeRd = false ∧ d.writeRs1 = false
  own : d.writeRd = true → d.usesRd = true ∧ d.writeRs1 = false
  base : d.writeRs1 = true → d.opaSelect = .reg
  legal : d.illegalInst = true → d.isLoad = false ∧ d.isStore = false

theorem decode_exclusive (inst : BitVec 32) : (decode cfg inst).Exclusive := by
  cases hrow : rowOf inst with
  | none =>
      rw [decode, hrow]
      constructor <;> simp [illegal]
  | some r =>
      rw [CoreState.decode_of_row hrow]
      cases r.branch with
      | csrModify op imm =>
          rw [Branch.decode]
          split <;> constructor <;> simp
      | fp fmt divsqrt third =>
          rw [Branch.decode]
          split <;> constructor <;> simp [illegal]
      | pulpLoad size signed reg post =>
          rw [Branch.decode]
          split <;> constructor <;> simp [illegal]
      | pulpStore size reg post =>
          rw [Branch.decode]
          split <;> constructor <;> simp [illegal]
      | immBranch op =>
          rw [Branch.decode]
          split <;> constructor <;> simp [illegal]
      | pulpIpu second third =>
          rw [Branch.decode]
          split <;> constructor <;> simp [illegal]
      | arith _ _ | lui | auipc | jal | jalr | branch _ | store _ | load _ _ | csrWrite _
      | environment | fence | wfi | amo _ | mulDiv => constructor <;> simp [Branch.decode]

/-! ## Requests and awaited writes -/

/-- The results that are to come for the requests `ts`: a store has none. -/
def Ticket.results (ts : List (Ticket cfg)) : List (Nat × RegIdx cfg) :=
  (ts.filter fun t => !t.req.qwrite).map fun t => (t.num, t.req.qtag)

theorem Ticket.results_send (id : MetaId cfg) (ts : List (Ticket cfg)) :
    results (send id ts) = results ts := by
  induction ts with
  | nil => rfl
  | cons t ts ih =>
      obtain ⟨num, req, tid⟩ := t
      cases tid with
      | none => cases hw : req.qwrite <;> simp [send, results, hw]
      | some j =>
          rw [results, results] at ih
          cases hw : req.qwrite <;> simp [send, results, hw, ih]

/-- The awaited writes are those of the requests `ts` and of the offloaded instructions
`os`, which all have different numbers. -/
structure Linked (ws : List (Write (RegIdx cfg) Word)) (ts : List (Ticket cfg))
    (os : List (Nat × RegIdx cfg)) : Prop where
  nums : (ts.map Ticket.num ++ os.map Prod.fst).Nodup
  awaited : (Write.awaited ws).Perm (Ticket.results ts ++ os)

namespace Linked

open Ticket

variable {ws : List (Write (RegIdx cfg) Word)} {ts : List (Ticket cfg)}
  {os : List (Nat × RegIdx cfg)} {n : Nat} {r q : RegIdx cfg} {t : Ticket cfg}

/-- Each instruction awaits one result. -/
theorem only (h : Linked ws ts os) (hr : (n, r) ∈ Write.awaited ws)
    (hq : (n, q) ∈ Write.awaited ws) : q = r := by
  have hsub : ((results ts ++ os).map Prod.fst).Sublist (ts.map num ++ os.map Prod.fst) := by
    rw [List.map_append, results, List.map_map]
    exact (List.Sublist.map _ List.filter_sublist).append_right _
  have hnodup : ((Write.awaited ws).map Prod.fst).Nodup :=
    (h.awaited.map Prod.fst).nodup_iff.mpr (h.nums.sublist hsub)
  have heq := List.inj_on_of_nodup_map hnodup hq hr rfl
  exact congrArg Prod.snd heq

/-- Nothing waits for the answer to a store. -/
theorem not_awaited (h : Linked ws ts os) (ht : t ∈ ts) (hw : t.req.qwrite = true) :
    ∀ q, (t.num, q) ∉ Write.awaited ws := by
  intro q hq
  rcases List.mem_append.mp (h.awaited.mem_iff.mp hq) with hq | hq
  · obtain ⟨u, hu, heq⟩ := List.mem_map.mp hq
    obtain ⟨hmem, hread⟩ := List.mem_filter.mp hu
    have hsame := List.inj_on_of_nodup_map (List.nodup_append.mp h.nums).1 hmem ht
      (congrArg Prod.fst heq)
    rw [hsame, hw] at hread
    cases hread
  · exact (List.nodup_append.mp h.nums).2.2 _ (List.mem_map_of_mem ht) _
      (List.mem_map_of_mem hq) rfl

theorem write (h : Linked ws ts os) (v : Word) : Linked (⟨n, r, some v⟩ :: ws) ts os :=
  ⟨h.nums, h.awaited⟩

theorem request (h : Linked ws ts os) (ht : t.req.qwrite = false)
    (hfresh : t.num ∉ ts.map num ++ os.map Prod.fst) :
    Linked (⟨t.num, t.req.qtag, none⟩ :: ws) (ts ++ [t]) os where
  nums := by
    rw [List.map_append, List.append_assoc]
    exact (List.perm_middle.nodup_iff).mpr (List.nodup_cons.mpr ⟨hfresh, h.nums⟩)
  awaited := by
    have hresults : results (ts ++ [t]) = results ts ++ [(t.num, t.req.qtag)] := by
      simp [results, ht]
    rw [hresults, List.append_assoc]
    exact (h.awaited.cons _).trans List.perm_middle.symm

theorem store (h : Linked ws ts os) (ht : t.req.qwrite = true)
    (hfresh : t.num ∉ ts.map num ++ os.map Prod.fst) : Linked ws (ts ++ [t]) os where
  nums := by
    rw [List.map_append, List.append_assoc]
    exact (List.perm_middle.nodup_iff).mpr (List.nodup_cons.mpr ⟨hfresh, h.nums⟩)
  awaited := by
    have hresults : results (ts ++ [t]) = results ts := by simp [results, ht]
    rw [hresults]
    exact h.awaited

theorem offload (h : Linked ws ts os) (hfresh : n ∉ ts.map num ++ os.map Prod.fst) :
    Linked (⟨n, r, none⟩ :: ws) ts (os ++ [(n, r)]) where
  nums := by
    rw [List.map_append, ← List.append_assoc]
    exact (List.perm_append_singleton _ _).nodup_iff.mpr
      (List.nodup_cons.mpr ⟨hfresh, h.nums⟩)
  awaited := by
    rw [← List.append_assoc]
    exact (h.awaited.cons _).trans (List.perm_append_singleton _ _).symm

theorem send (h : Linked ws ts os) (id : MetaId cfg) : Linked ws (Ticket.send id ts) os where
  nums := by
    rw [map_num_send]
    exact h.nums
  awaited := by
    rw [results_send]
    exact h.awaited

/-- The memory has answered instruction `n`. -/
theorem answer (h : Linked ws ts os) (v : Word) (hn : n ∈ ts.map num) :
    Linked (Write.deliver n v ws) (ts.filter fun t => t.num != n) os where
  nums := h.nums.sublist ((List.Sublist.map _ List.filter_sublist).append_right _)
  awaited := by
    have hos : os.filter (fun e => e.1 != n) = os := by
      apply List.filter_eq_self.mpr
      intro e he
      have hne := (List.nodup_append.mp h.nums).2.2 n hn e.1 (List.mem_map_of_mem he)
      exact bne_iff_ne.mpr (Ne.symm hne)
    have hresults : (results ts).filter (fun e => e.1 != n) =
        results (ts.filter fun t => t.num != n) := by
      rw [results, List.filter_map, results, List.filter_filter, List.filter_filter]
      congr 1
      apply List.filter_congr
      intro t _
      exact Bool.and_comm _ _
    rw [Write.awaited_deliver, ← hresults, ← hos, ← List.filter_append]
    exact h.awaited.filter _

/-- The unit has answered instruction `n`. -/
theorem answerUnit (h : Linked ws ts os) (v : Word) (hn : n ∈ os.map Prod.fst) :
    Linked (Write.deliver n v ws) ts (os.filter fun e => e.1 != n) where
  nums := h.nums.sublist ((List.Sublist.map _ List.filter_sublist).append_left _)
  awaited := by
    have hresults : (results ts).filter (fun e => e.1 != n) = results ts := by
      apply List.filter_eq_self.mpr
      intro e he
      obtain ⟨t, ht, rfl⟩ := List.mem_map.mp he
      have hmem : t.num ∈ ts.map num := List.mem_map_of_mem (List.mem_of_mem_filter ht)
      exact bne_iff_ne.mpr ((List.nodup_append.mp h.nums).2.2 _ hmem n hn)
    rw [Write.awaited_deliver, ← hresults, ← List.filter_append]
    exact h.awaited.filter _

end Linked

/-! ## A core and its program order -/

/-- A core, with the number of instructions it has issued, all their writes, the newest
first, and the instructions whose results are still to come. -/
structure Tracked (k : LsuCells cfg) where
  core : CoreState k
  issued : Nat
  history : List (Write (RegIdx cfg) Word)
  requests : List (Ticket cfg)
  offloads : List (Nat × RegIdx cfg)

/-- The inputs of a cycle, and the instructions whose results they bring. -/
structure Cycle (cfg : CoreConfig) where
  inputs : CoreIn cfg
  loadNum : Nat
  accNum : Nat

namespace CoreState

variable (s : CoreState k) (i : CoreIn cfg)

/-- The writes of the presented instruction, if it is issued now as number `n`. The
result of a load comes after the base it has incremented. -/
def issueWrites (n : Nat) : List (Write (RegIdx cfg) Word) :=
  (if s.marks i then [⟨n, rd cfg i.instData, none⟩] else []) ++
    if s.stall i then []
    else
      (if s.writeRs1 i then [⟨n, rs1 cfg i.instData, some (s.aluWriteback i)⟩] else []) ++
        if s.writeRd i then [⟨n, rd cfg i.instData, some (s.aluWriteback i)⟩] else []

/-- `data_pvalid_i && data_pready_o`. -/
def loadTaken : Bool := s.lsu.idTablePop (s.lsuPort i (s.writeBack i).lsuPready)

/-- `acc_pvalid_i && acc_pready_o`. -/
def accTaken : Bool := i.accPvalid && (s.writeBack i).accPready

/-- `acc_qvalid_o && acc_qready_i`. -/
def offloaded : Bool := s.accQvalid i && i.accQready

end CoreState

namespace Tracked

def reset (k : LsuCells cfg) : Tracked k where
  core := .reset k
  issued := 0
  history := []
  requests := []
  offloads := []

variable (g : Tracked k) (c : Cycle cfg)

/-- What the memory's answer means to the instruction that asked for it. -/
def loadValue : Word :=
  match g.requests.find? fun t => t.num == c.loadNum with
  | some t => LsuState.loadResult (metadataOf t.req) c.inputs.dataPdata
  | none => 0

/-- The offloaded instructions, with the one that is offloaded in this cycle. -/
def offloadsNow : List (Nat × RegIdx cfg) :=
  g.offloads ++
    if g.core.offloaded c.inputs then [(g.issued, rd cfg c.inputs.instData)] else []

/-- The writes after the cycle's issue, and those after the answer of a unit. -/
def historyIssued : List (Write (RegIdx cfg) Word) :=
  g.core.issueWrites c.inputs g.issued ++ g.history

def historyUnit : List (Write (RegIdx cfg) Word) :=
  if g.core.accTaken c.inputs then
    Write.deliver c.accNum c.inputs.accPdata (g.historyIssued c)
  else g.historyIssued c

def step : Tracked k where
  core := g.core.next c.inputs
  issued := if g.core.stall c.inputs then g.issued else g.issued + 1
  history :=
    if g.core.loadTaken c.inputs then
      Write.deliver c.loadNum (g.loadValue c) (g.historyUnit c)
    else g.historyUnit c
  requests := g.core.lsu.ticketsNext
    (g.core.lsuPort c.inputs (g.core.writeBack c.inputs).lsuPready) g.issued c.loadNum g.requests
  offloads :=
    if g.core.accTaken c.inputs then (g.offloadsNow c).filter fun e => e.1 != c.accNum
    else g.offloadsNow c

/-- The state after the cycles `cs`. -/
def after (cs : List (Cycle cfg)) : Tracked k := cs.foldl step g

/-- The cycle's answers are for requests: the memory answers what it has accepted in an
earlier cycle, a unit what it has accepted, maybe in this one, and both with the tag of
the request. What is offloaded has a result, as all but the switch of the stream
registers does. -/
structure Legal : Prop where
  memory : c.inputs.dataPvalid = true →
    ∃ t ∈ g.requests, t.num = c.loadNum ∧ t.id = some c.inputs.dataPid
  unit : c.inputs.accPvalid = true →
    ∃ r, (c.accNum, r) ∈ g.offloadsNow c ∧ c.inputs.accPid = r.setWidth 5
  stream : (decode cfg c.inputs.instData).accQvalid = true →
    (decode cfg c.inputs.instData).accRegisterRd = true

def LegalRun (g : Tracked k) : List (Cycle cfg) → Prop
  | [] => True
  | c :: cs => g.Legal c ∧ LegalRun (g.step c) cs

/-- The results that are to come, with their registers. -/
def outstanding : List (Nat × RegIdx cfg) := Ticket.results g.requests ++ g.offloads

/-- What the latest write of `r` in program order leaves there; nothing is known of it
while it is awaited. -/
def latest (r : RegIdx cfg) : Option Word :=
  if r = 0 then some 0 else Write.latest 0 (Write.of r g.history)

/-- The newest result for `r` there is. -/
def newest (r : RegIdx cfg) : Option Word :=
  Write.latest 0 ((Write.of r g.history).filter fun w => w.value.isSome)

end Tracked

/-! ## What a cycle does to the registers -/

/-- If several ports write one register, a load wins over a unit, and both over the
instruction that is issued. -/
theorem written_writeBack (two : Bool) (own load acc : WritePort cfg) (r : RegIdx cfg)
    (v : Word) : RegFile.written (writeBack two own load acc).ports r v =
      if (writeBack two own load acc).retireLoad && load.waddr == r then load.wdata
      else if (writeBack two own load acc).retireAcc && acc.waddr == r then acc.wdata
      else if own.we && own.waddr == r then own.wdata
      else v := by
  rw [writeBack]
  cases two <;> cases ho : own.we <;> cases hl : load.we <;> cases ha : acc.we <;>
    simp [RegFile.written, ho, hl, ha]

theorem retire_writeBack (two : Bool) (own load acc : WritePort cfg) :
    (writeBack two own load acc).retireLoad =
        (load.we && (writeBack two own load acc).lsuPready) ∧
      (writeBack two own load acc).retireAcc =
        (acc.we && (writeBack two own load acc).accPready) := by
  rw [writeBack]
  cases two <;> cases own.we <;> cases load.we <;> cases acc.we <;> exact ⟨rfl, rfl⟩

namespace CoreState

variable {s : CoreState k} {i : CoreIn cfg} {r : RegIdx cfg}

/-- The core retires the loads among the answers it takes. -/
theorem retireLoad_eq : (s.writeBack i).retireLoad =
    (s.loadTaken i && !(s.lsu.respMetadata (s.lsuPort i false)).write) := by
  have htaken : s.loadTaken i = (i.dataPvalid && ((s.writeBack i).lsuPready ||
      (s.lsu.respMetadata (s.lsuPort i false)).write)) := rfl
  rw [htaken, writeBack, (retire_writeBack _ _ _ _).1]
  change (i.dataPvalid && !(s.lsu.respMetadata (s.lsuPort i false)).write && _) = _
  cases i.dataPvalid <;> cases (s.lsu.respMetadata (s.lsuPort i false)).write <;> simp

theorem retireAcc_eq : (s.writeBack i).retireAcc = s.accTaken i :=
  (retire_writeBack _ _ _ _).2

theorem regs_next (hr : r ≠ 0) : (s.next i).regs.mem r =
    if (s.writeBack i).retireLoad && (s.loadPort i).waddr == r then (s.loadPort i).wdata
    else if (s.writeBack i).retireAcc && (accPort i).waddr == r then (accPort i).wdata
    else if (s.ownPort i).we && (s.ownPort i).waddr == r then (s.ownPort i).wdata
    else s.regs.mem r := by
  change (if r = 0 then 0 else RegFile.written (s.writeBack i).ports r (s.regs.mem r)) = _
  rw [if_neg hr, writeBack, written_writeBack]

theorem ne_zero_and_beq {a : RegIdx cfg} (hr : r ≠ 0) : (a != 0 && a == r) = (a == r) := by
  cases h : a == r with
  | false => exact Bool.and_false _
  | true =>
      rw [Bool.and_true, beq_iff_eq.mp h]
      exact bne_iff_ne.mpr hr

/-- The two results an instruction can have of its own go to one port. -/
theorem ownPort_eq (hr : r ≠ 0) : ((s.ownPort i).we && (s.ownPort i).waddr == r) =
    (!s.stall i && (s.writeRs1 i && rs1 cfg i.instData == r ||
      s.writeRd i && rd cfg i.instData == r)) := by
  cases hstall : s.stall i with
  | true =>
      rw [ownPort_of_stall hstall]
      rfl
  | false =>
      have hretireI : s.retireI i = (s.writeRd i && rd cfg i.instData != 0) := by
        rw [retireI, valid_of_issue hstall, Bool.and_true]
      have hretireP : s.retireP i = (s.writeRs1 i && rs1 cfg i.instData != 0) := by
        rw [retireP, hstall, Bool.not_false, Bool.and_true]
      change ((s.retireI i || s.retireP i) &&
        (if s.retireP i then rs1 cfg i.instData else rd cfg i.instData) == r) = _
      rw [hretireI, hretireP]
      cases hp : s.writeRs1 i with
      | false =>
          simp only [Bool.false_and, Bool.or_false, Bool.false_eq_true, if_false, Bool.not_false,
            Bool.true_and, Bool.false_or, Bool.and_assoc]
          rw [ne_zero_and_beq hr]
      | true =>
          have hi : s.writeRd i = false := by
            rw [writeRs1, Bool.and_eq_true] at hp
            rw [writeRd]
            cases hd : (decode cfg i.instData).writeRd with
            | false => rfl
            | true =>
                rw [((decode_exclusive i.instData).own hd).2] at hp
                cases hp.1
          rw [hi, ← ne_zero_and_beq (a := rs1 cfg i.instData) hr]
          cases rs1 cfg i.instData != 0
          · rfl
          · exact (Bool.or_false _).symm

/-! ## What an issue needs and does -/

/-- A register that the instruction marks busy was not busy. -/
theorem free_of_marks (h : s.marks i = true) : s.sb (rd cfg i.instData) = false := by
  rw [marks] at h
  simp only [Bool.and_eq_true, Bool.or_eq_true, Bool.not_eq_true'] at h
  obtain ⟨⟨hunit, hstall⟩, hex⟩ := h
  have huses : (decode cfg i.instData).usesRd = true := by
    rcases hunit with hload | hacc
    · exact ((decode_exclusive i.instData).load hload).2.2.2.2
    · exact ((decode_exclusive i.instData).unit hacc).2.1
  exact (free_of_issue hstall).2.2.2.2 huses hex

theorem free_of_writeRd (hstall : s.stall i = false) (h : s.writeRd i = true) :
    s.sb (rd cfg i.instData) = false := by
  obtain ⟨hd, hex⟩ := Bool.and_eq_true_iff.mp h
  have huses := ((decode_exclusive i.instData).own hd).1
  exact (free_of_issue hstall).2.2.2.2 huses (by simpa using hex)

theorem free_of_writeRs1 (hstall : s.stall i = false) (h : s.writeRs1 i = true) :
    s.sb (rs1 cfg i.instData) = false := by
  obtain ⟨hd, -⟩ := Bool.and_eq_true_iff.mp h
  exact (free_of_issue hstall).1 ((decode_exclusive i.instData).base hd)

/-- A memory instruction that does not trap is issued when the load/store unit takes its
request. -/
theorem regPush_eq (p : Bool) : s.lsu.regPush (s.lsuPort i p) =
    (!s.stall i && ((decode cfg i.instData).isLoad || (decode cfg i.instData).isStore) &&
      !s.exception i) := by
  have hx : (decode cfg i.instData).Exclusive := decode_exclusive _
  have hqueue : s.lsu.regPush (s.lsuPort i p) = (s.lsuQvalid i && s.lsu.lsuQready) := rfl
  rw [hqueue]
  cases hmem : ((decode cfg i.instData).isLoad || (decode cfg i.instData).isStore) with
  | false => simp [lsuQvalid, hmem]
  | true =>
      have hquiet : (decode cfg i.instData).accQvalid = false ∧
          (decode cfg i.instData).fence = false := by
        rcases Bool.or_eq_true_iff.mp hmem with h | h
        · exact ⟨(hx.load h).2.1, (hx.load h).2.2.2.1⟩
        · exact ⟨(hx.store h).1, (hx.store h).2.2⟩
      have hlegal : (decode cfg i.instData).illegalInst = false := by
        by_contra hc
        have hno := hx.legal (by simpa using hc)
        rw [hno.1, hno.2] at hmem
        cases hmem
      simp only [stall, lsuStall, accStall, accQvalid, fenceStall, lsuQvalid, exception, hquiet.1,
        hquiet.2, hlegal, hmem]
      cases s.validInstr i <;> cases s.addrMisaligned i <;> cases s.lsu.lsuQready <;> rfl

/-- An offloaded instruction is issued when its unit takes it. -/
theorem offloaded_eq : s.offloaded i =
    (!s.stall i && (decode cfg i.instData).accQvalid && !s.exception i) := by
  have hx : (decode cfg i.instData).Exclusive := decode_exclusive _
  rw [offloaded, accQvalid]
  cases hacc : (decode cfg i.instData).accQvalid with
  | false => simp
  | true =>
      obtain ⟨hload, hstore, hfence, -⟩ := hx.offload hacc
      simp only [stall, lsuStall, accStall, accQvalid, fenceStall, lsuQvalid, hload, hstore,
        hfence, hacc]
      cases s.validInstr i <;> cases s.exception i <;> cases i.accQready <;> rfl

end CoreState

namespace Tracked

open CoreState

/-- The registers with their writes. -/
def board (g : Tracked k) : Board (RegIdx cfg) Word where
  busy := g.core.sb
  regs := g.core.regs.mem
  history := g.history

/-- What holds between the core and its program order. -/
structure Ok (g : Tracked k) : Prop where
  board : g.board.Ok (· ≠ 0) 0
  lsu : g.core.lsu.Tracks g.requests
  linked : Linked g.history g.requests g.offloads
  bound : ∀ n ∈ g.requests.map Ticket.num ++ g.offloads.map Prod.fst, n < g.issued

theorem ok_reset : Ok (.reset k) where
  board _ _ := Coherent.nil 0
  lsu := LsuState.tracks_reset
  linked := ⟨List.nodup_nil, List.Perm.refl _⟩
  bound := by
    intro n hn
    cases hn

variable {g : Tracked k} {c : Cycle cfg}

theorem Ok.fresh (h : g.Ok) :
    g.issued ∉ g.requests.map Ticket.num ++ g.offloads.map Prod.fst := by
  intro hmem
  exact absurd (h.bound _ hmem) (lt_irrefl _)

/-! ### The issue -/

/-- The registers after the issue of the cycle, before its answers. -/
def boardIssued (g : Tracked k) (c : Cycle cfg) : Board (RegIdx cfg) Word where
  busy r := if g.core.marks c.inputs && rd cfg c.inputs.instData == r then true else g.core.sb r
  regs r := if (g.core.ownPort c.inputs).we && (g.core.ownPort c.inputs).waddr == r then
    g.core.aluWriteback c.inputs else g.core.regs.mem r
  history := g.historyIssued c

theorem boardIssued_ok (h : g.Ok) : (g.boardIssued c).Ok (· ≠ 0) 0 := by
  cases hstall : g.core.stall c.inputs with
  | true =>
      have hmarks : g.core.marks c.inputs = false := by simp [marks, hstall]
      apply h.board.congr
      · change g.core.issueWrites c.inputs g.issued ++ g.history = g.history
        rw [issueWrites, hmarks, hstall]
        rfl
      · intro r _
        change (if (g.core.marks c.inputs && _) = true then true else g.core.sb r) = g.core.sb r
        rw [hmarks]
        rfl
      · intro r _
        change (if ((g.core.ownPort c.inputs).we && _) = true then _ else _) = _
        rw [ownPort_of_stall hstall]
        rfl
  | false =>
      -- the instruction's own result, its increment, and the result it waits for
      let b1 := if g.core.writeRd c.inputs then
        g.board.write g.issued (rd cfg c.inputs.instData) (g.core.aluWriteback c.inputs)
        else g.board
      let b2 := if g.core.writeRs1 c.inputs then
        b1.write g.issued (rs1 cfg c.inputs.instData) (g.core.aluWriteback c.inputs) else b1
      let b3 := if g.core.marks c.inputs then
        b2.reserve g.issued (rd cfg c.inputs.instData) else b2
      have hbusy1 : b1.busy = g.core.sb := by
        simp only [b1]
        split <;> rfl
      have hbusy2 : b2.busy = g.core.sb := by
        simp only [b2]
        split <;> exact hbusy1
      have hok1 : b1.Ok (· ≠ 0) 0 := by
        simp only [b1]
        split
        · next hw => exact h.board.write fun _ => free_of_writeRd hstall hw
        · exact h.board
      have hok2 : b2.Ok (· ≠ 0) 0 := by
        simp only [b2]
        split
        · next hw =>
          apply hok1.write
          rw [hbusy1]
          exact fun _ => free_of_writeRs1 hstall hw
        · exact hok1
      have hok3 : b3.Ok (· ≠ 0) 0 := by
        simp only [b3]
        split
        · next hm =>
          apply hok2.reserve
          rw [hbusy2]
          exact fun _ => free_of_marks hm
        · exact hok2
      apply hok3.congr
      · simp only [boardIssued, historyIssued, issueWrites, hstall, b3, b2, b1]
        cases g.core.marks c.inputs <;> cases g.core.writeRs1 c.inputs <;>
          cases g.core.writeRd c.inputs <;> rfl
      · intro r _
        simp only [boardIssued, b3]
        cases g.core.marks c.inputs with
        | false => rw [← hbusy2]; rfl
        | true =>
            simp only [Bool.true_and, if_true, Board.reserve, beq_iff_eq, hbusy2]
            by_cases hr : r = rd cfg c.inputs.instData
            · rw [if_pos hr, if_pos hr.symm]
            · rw [if_neg hr, if_neg (Ne.symm hr)]
      · intro r hr
        simp only [boardIssued, ownPort_eq hr, hstall, b3, b2, b1]
        cases g.core.marks c.inputs <;> cases g.core.writeRs1 c.inputs <;>
          cases g.core.writeRd c.inputs <;> by_cases h1 : rs1 cfg c.inputs.instData = r <;>
          by_cases h2 : rd cfg c.inputs.instData = r <;>
          simp [Board.write, Board.reserve, board, eq_comm (a := r), h1, h2]

/-- The issue of an instruction adds what it will wait for to the requests on their way. -/
theorem linked_issued (h : g.Ok) (hc : g.Legal c) (p : Bool) :
    Linked (g.historyIssued c)
      (g.core.lsu.arrived (g.core.lsuPort c.inputs p) g.issued g.requests) (g.offloadsNow c) := by
  have hx : (decode cfg c.inputs.instData).Exclusive := decode_exclusive _
  have hown : Linked ((if g.core.stall c.inputs then [] else
      (if g.core.writeRs1 c.inputs then
        [⟨g.issued, rs1 cfg c.inputs.instData, some (g.core.aluWriteback c.inputs)⟩] else []) ++
      if g.core.writeRd c.inputs then
        [⟨g.issued, rd cfg c.inputs.instData, some (g.core.aluWriteback c.inputs)⟩] else []) ++
      g.history) g.requests g.offloads := by
    cases g.core.stall c.inputs <;> cases g.core.writeRs1 c.inputs <;>
      cases g.core.writeRd c.inputs
    case false.false.true => exact h.linked.write _
    case false.true.false => exact h.linked.write _
    case false.true.true => exact (h.linked.write _).write _
    all_goals exact h.linked
  rw [historyIssued, issueWrites, List.append_assoc, LsuState.arrived, offloadsNow, regPush_eq,
    offloaded_eq]
  cases hmarks : g.core.marks c.inputs with
  | false =>
      rw [marks] at hmarks
      have hoff : (!g.core.stall c.inputs && (decode cfg c.inputs.instData).accQvalid &&
          !g.core.exception c.inputs) = false := by
        cases hacc : (decode cfg c.inputs.instData).accQvalid with
        | false => simp
        | true =>
            rw [hc.stream hacc] at hmarks
            simpa using hmarks
      rw [hoff]
      change Linked (_ ++ g.history) _ (g.offloads ++ [])
      rw [List.append_nil]
      cases hpush : !g.core.stall c.inputs && ((decode cfg c.inputs.instData).isLoad ||
          (decode cfg c.inputs.instData).isStore) && !g.core.exception c.inputs with
      | false =>
          change Linked _ (g.requests ++ []) _
          rw [List.append_nil]
          exact hown
      | true =>
          simp only [Bool.and_eq_true, Bool.or_eq_true, Bool.not_eq_true'] at hpush
          have hstore : (decode cfg c.inputs.instData).isStore = true := by
            rcases hpush.1.2 with hload | hstore
            · rw [hload, hpush.1.1, hpush.2] at hmarks
              cases hmarks
            · exact hstore
          exact hown.store (t := ⟨g.issued, g.core.lsuReq c.inputs, none⟩) hstore h.fresh
  | true =>
      have hpushed := regPush_eq (s := g.core) (i := c.inputs) p
      rw [marks] at hmarks
      simp only [Bool.and_eq_true, Bool.or_eq_true, Bool.not_eq_true'] at hmarks
      obtain ⟨⟨hunit, hstall⟩, hex⟩ := hmarks
      rw [hstall, hex] at hpushed ⊢
      rw [hstall] at hown
      rcases hunit with hload | hacc
      · obtain ⟨hstore, hacc, -⟩ := hx.load hload
        have hvalid : g.core.lsuQvalid c.inputs = true := by
          apply lsuQvalid_of_issue hstall hex
          rw [hload]
          rfl
        have htag : (g.core.lsuReq c.inputs).qtag = rd cfg c.inputs.instData := by
          change (if _ then _ else _) = _
          rw [hvalid, hstore]
          rfl
        have hrequest := hown.request (t := ⟨g.issued, g.core.lsuReq c.inputs, none⟩) hstore h.fresh
        change Linked (⟨g.issued, (g.core.lsuReq c.inputs).qtag, none⟩ :: _) _ _ at hrequest
        rw [htag] at hrequest
        rw [hload, hacc]
        change Linked (⟨g.issued, _, none⟩ :: _) (g.requests ++ [_]) (g.offloads ++ [])
        rw [List.append_nil]
        exact hrequest
      · obtain ⟨hqvalid, -⟩ := hx.unit hacc
        obtain ⟨hload, hstore, -⟩ := hx.offload hqvalid
        rw [hload, hstore, hqvalid]
        change Linked (⟨g.issued, _, none⟩ :: _) (g.requests ++ []) (g.offloads ++ [_])
        rw [List.append_nil]
        exact hown.offload h.fresh

/-! ### The answers -/

/-- The requests on their way, before the memory's answer is taken. -/
def requestsSent (g : Tracked k) (c : Cycle cfg) : List (Ticket cfg) :=
  let port := g.core.lsuPort c.inputs (g.core.writeBack c.inputs).lsuPready
  let arrived := g.core.lsu.arrived port g.issued g.requests
  if g.core.lsu.accepts port then Ticket.send g.core.lsu.dataQid arrived else arrived

theorem linked_sent (h : g.Ok) (hc : g.Legal c) :
    Linked (g.historyIssued c) (g.requestsSent c) (g.offloadsNow c) := by
  rw [requestsSent]
  split
  · exact (linked_issued h hc _).send _
  · exact linked_issued h hc _

/-- The tag of a unit's answer is the register of the instruction. -/
theorem tag_of_unit {r : RegIdx cfg} {tag : BitVec 5} (h : tag = r.setWidth 5) :
    tag.setWidth cfg.regWidth = r := by
  have hle : cfg.regWidth ≤ 5 := by
    rw [CoreConfig.regWidth]
    split <;> omega
  rw [h, BitVec.setWidth_setWidth_of_le _ hle, BitVec.setWidth_eq]

/-- The registers after the answer of a unit, before that of the memory. -/
def boardUnit (g : Tracked k) (c : Cycle cfg) : Board (RegIdx cfg) Word :=
  if g.core.accTaken c.inputs then
    (g.boardIssued c).deliver c.accNum (c.inputs.accPid.setWidth cfg.regWidth) c.inputs.accPdata
  else g.boardIssued c

theorem boardUnit_history : (g.boardUnit c).history = g.historyUnit c := by
  rw [boardUnit, historyUnit]
  split <;> rfl

theorem unit_taken (h : g.Ok) (hc : g.Legal c) :
    (g.boardUnit c).Ok (· ≠ 0) 0 ∧
      Linked (g.historyUnit c) (g.requestsSent c) (g.step c).offloads := by
  have hsent := linked_sent h hc
  have hboard := boardIssued_ok (c := c) h
  rw [boardUnit, historyUnit, step]
  cases htaken : g.core.accTaken c.inputs with
  | false => exact ⟨hboard, hsent⟩
  | true =>
      obtain ⟨r, hr, htag⟩ := hc.unit (Bool.and_eq_true_iff.mp htaken).1
      have hawaited : (c.accNum, r) ∈ Write.awaited (g.historyIssued c) :=
        hsent.awaited.mem_iff.mpr (List.mem_append_right _ hr)
      rw [tag_of_unit htag]
      constructor
      · exact hboard.deliver hawaited fun q hq => hsent.only hawaited hq
      · exact hsent.answerUnit _ (List.mem_map_of_mem hr)

/-- The request that the memory answers. -/
structure Answered (g : Tracked k) (c : Cycle cfg) (t : Ticket cfg) : Prop where
  mem : t ∈ g.requests
  sent : t ∈ g.requestsSent c
  num : t.num = c.loadNum
  metadata : g.core.lsu.respMetadata (g.core.lsuPort c.inputs false) = metadataOf t.req
  value : g.loadValue c = LsuState.loadResult (metadataOf t.req) c.inputs.dataPdata

theorem exists_answered (h : g.Ok) (hc : g.Legal c) (hv : c.inputs.dataPvalid = true) :
    ∃ t, g.Answered c t := by
  obtain ⟨t, ht, hnum, hid⟩ := hc.memory hv
  have hisSent : t.id.isNone = false := by rw [hid]; rfl
  refine ⟨t, ht, ?_, hnum, h.lsu.respMetadata_eq ht hid, ?_⟩
  · rw [requestsSent]
    split
    · exact Ticket.mem_send_of_sent (List.mem_append_left _ ht) hisSent
    · exact List.mem_append_left _ ht
  · have hfind : (g.requests.find? fun t => t.num == c.loadNum) = some t := by
      cases hf : g.requests.find? fun t => t.num == c.loadNum with
      | none => exact absurd (beq_iff_eq.mpr hnum) (List.find?_eq_none.mp hf t ht)
      | some u =>
          have hu : u.num = c.loadNum := beq_iff_eq.mp (List.find?_some hf :)
          have heq := List.inj_on_of_nodup_map h.lsu.nums (List.mem_of_find?_eq_some hf) ht
            (hu.trans hnum.symm)
          rw [heq]
    rw [loadValue, hfind]

theorem step_requests (h : g.core.loadTaken c.inputs = true) :
    (g.step c).requests = (g.requestsSent c).filter fun t => t.num != c.loadNum := by
  change (if g.core.loadTaken c.inputs = true then _ else _) = _
  rw [if_pos h]
  rfl

theorem linked_step (h : g.Ok) (hc : g.Legal c) :
    Linked (g.step c).history (g.step c).requests (g.step c).offloads := by
  have hunit := (unit_taken h hc).2
  cases htaken : g.core.loadTaken c.inputs with
  | false =>
      have hrequests : (g.step c).requests = g.requestsSent c := by
        change (if g.core.loadTaken c.inputs = true then _ else _) = _
        rw [htaken]
        rfl
      have hhistory : (g.step c).history = g.historyUnit c := by
        change (if g.core.loadTaken c.inputs = true then _ else _) = _
        rw [htaken]
        rfl
      rw [hrequests, hhistory]
      exact hunit
  | true =>
      obtain ⟨t, ht⟩ := exists_answered h hc (Bool.and_eq_true_iff.mp htaken).1
      have hhistory : (g.step c).history =
          Write.deliver c.loadNum (g.loadValue c) (g.historyUnit c) := by
        change (if g.core.loadTaken c.inputs = true then _ else _) = _
        rw [if_pos htaken]
      rw [step_requests htaken, hhistory]
      apply hunit.answer
      rw [← ht.num]
      exact List.mem_map_of_mem ht.sent

theorem boardUnit_busy (r : RegIdx cfg) : (g.boardUnit c).busy r =
    if (g.core.writeBack c.inputs).retireAcc && c.inputs.accPid.setWidth cfg.regWidth == r then
      false
    else (g.boardIssued c).busy r := by
  rw [boardUnit, retireAcc_eq]
  cases g.core.accTaken c.inputs with
  | false => rfl
  | true =>
      by_cases hr : c.inputs.accPid.setWidth cfg.regWidth = r
      · simp [Board.deliver, hr]
      · simp [Board.deliver, hr, Ne.symm hr]

theorem boardUnit_regs (r : RegIdx cfg) : (g.boardUnit c).regs r =
    if (g.core.writeBack c.inputs).retireAcc && c.inputs.accPid.setWidth cfg.regWidth == r then
      c.inputs.accPdata
    else (g.boardIssued c).regs r := by
  rw [boardUnit, retireAcc_eq]
  cases g.core.accTaken c.inputs with
  | false => rfl
  | true =>
      by_cases hr : c.inputs.accPid.setWidth cfg.regWidth = r
      · simp [Board.deliver, hr]
      · simp [Board.deliver, hr, Ne.symm hr]

/-- Without a load that retires, the cycle ends with the answer of the unit. -/
theorem board_step_of_not_retired (h : g.Ok) (hc : g.Legal c)
    (hretire : (g.core.writeBack c.inputs).retireLoad = false) :
    (g.step c).board.Ok (· ≠ 0) 0 := by
  obtain ⟨hboard, hlinked⟩ := unit_taken h hc
  apply hboard.congr
  · rw [boardUnit_history]
    change (if g.core.loadTaken c.inputs = true then _ else _) = _
    split
    · next htaken =>
      -- a store, for whose answer nothing waits
      obtain ⟨t, ht⟩ := exists_answered h hc (Bool.and_eq_true_iff.mp htaken).1
      rw [retireLoad_eq, htaken, ht.metadata] at hretire
      rw [← ht.num]
      exact Write.deliver_eq_self _ (hlinked.not_awaited ht.sent
        (by simpa [metadataOf] using hretire))
    · rfl
  · intro r hr
    rw [boardUnit_busy]
    change g.core.sbD c.inputs r = _
    rw [sbD, if_neg hr, hretire]
    rfl
  · intro r hr
    rw [boardUnit_regs]
    change (g.core.next c.inputs).regs.mem r = _
    rw [regs_next hr, hretire]
    rfl

/-- A load that retires finds its register busy, and not marked again. -/
theorem board_step_of_retired (h : g.Ok) (hc : g.Legal c)
    (hretire : (g.core.writeBack c.inputs).retireLoad = true) :
    (g.step c).board.Ok (· ≠ 0) 0 := by
  obtain ⟨hboard, hlinked⟩ := unit_taken h hc
  have hload := hretire
  rw [retireLoad_eq, Bool.and_eq_true] at hload
  obtain ⟨t, ht⟩ := exists_answered h hc (Bool.and_eq_true_iff.mp hload.1).1
  have hread : t.req.qwrite = false := by
    have hwrite := hload.2
    rw [ht.metadata] at hwrite
    simpa [metadataOf] using hwrite
  have hresult : ∀ ts : List (Ticket cfg), t ∈ ts → (t.num, t.req.qtag) ∈ Ticket.results ts := by
    intro ts hts
    exact List.mem_map.mpr ⟨t, List.mem_filter.mpr ⟨hts, by rw [hread]; rfl⟩, rfl⟩
  have hwaddr : (g.core.loadPort c.inputs).waddr = t.req.qtag :=
    congrArg Metadata.tag ht.metadata
  have hwdata : (g.core.loadPort c.inputs).wdata = g.loadValue c := by
    rw [ht.value, ← ht.metadata]
    rfl
  have hawaited : (t.num, t.req.qtag) ∈ Write.awaited (g.historyUnit c) :=
    hlinked.awaited.mem_iff.mpr (List.mem_append_left _ (hresult _ ht.sent))
  have hdelivered : ((g.boardUnit c).deliver t.num t.req.qtag (g.loadValue c)).Ok (· ≠ 0) 0 := by
    apply hboard.deliver
    · rw [boardUnit_history]
      exact hawaited
    · intro q hq
      rw [boardUnit_history] at hq
      exact hlinked.only hawaited hq
  apply hdelivered.congr
  · change (if g.core.loadTaken c.inputs = true then _ else _) = Write.deliver _ _ _
    rw [if_pos hload.1, boardUnit_history, ht.num]
  · intro r hr
    change g.core.sbD c.inputs r = if r = t.req.qtag then false else (g.boardUnit c).busy r
    rw [boardUnit_busy, sbD, if_neg hr, hretire]
    change (if _ then false else if _ then true
      else if (true && (g.core.loadPort c.inputs).waddr == r) = true then false else _) = _
    rw [hwaddr]
    by_cases heq : r = t.req.qtag
    · subst heq
      have hbusy : g.core.sb t.req.qtag = true := by
        apply h.board.busy_of_awaited hr (n := t.num)
        exact h.linked.awaited.mem_iff.mpr (List.mem_append_left _ (hresult _ ht.mem))
      have hmarks : (g.core.marks c.inputs && rd cfg c.inputs.instData == t.req.qtag) = false := by
        by_contra hboth
        obtain ⟨hm, hrd⟩ := Bool.and_eq_true_iff.mp (Bool.not_eq_false _ ▸ hboth)
        have hfree := free_of_marks hm
        rw [beq_iff_eq.mp hrd, hbusy] at hfree
        cases hfree
      simp [hmarks]
    · simp [heq, Ne.symm heq, boardIssued]
  · intro r hr
    change (g.core.next c.inputs).regs.mem r =
      if r = t.req.qtag then g.loadValue c else (g.boardUnit c).regs r
    rw [boardUnit_regs, regs_next hr, hretire, hwaddr, hwdata]
    by_cases heq : r = t.req.qtag
    · simp [heq]
    · simp only [heq, Ne.symm heq, Bool.true_and, beq_iff_eq, if_false]
      rfl

/-! ### A cycle and a run -/

theorem num_of_arrived {p : Bool} {n : Nat}
    (hn : n ∈ (g.core.lsu.arrived (g.core.lsuPort c.inputs p) g.issued g.requests).map
      Ticket.num) :
    n ∈ g.requests.map Ticket.num ∨ n = g.issued ∧ g.core.stall c.inputs = false := by
  rw [LsuState.arrived, List.map_append] at hn
  rcases List.mem_append.mp hn with hn | hn
  · exact .inl hn
  · cases hpush : g.core.lsu.regPush (g.core.lsuPort c.inputs p) with
    | false =>
        rw [hpush] at hn
        cases hn
    | true =>
        rw [hpush] at hn
        rw [regPush_eq] at hpush
        simp only [Bool.and_eq_true, Bool.not_eq_true'] at hpush
        exact .inr ⟨List.mem_singleton.mp hn, hpush.1.1⟩

theorem num_of_requests {n : Nat} (hn : n ∈ (g.step c).requests.map Ticket.num) :
    n ∈ g.requests.map Ticket.num ∨ n = g.issued ∧ g.core.stall c.inputs = false := by
  obtain ⟨t, ht, rfl⟩ := List.mem_map.mp hn
  rcases (LsuState.mem_ticketsNext ht).1 with ht | ⟨-, u, hu, -, rfl⟩
  · exact num_of_arrived (List.mem_map_of_mem ht)
  · exact num_of_arrived (n := u.num) (List.mem_map_of_mem hu)

theorem num_of_offloads {n : Nat} (hn : n ∈ (g.step c).offloads.map Prod.fst) :
    n ∈ g.offloads.map Prod.fst ∨ n = g.issued ∧ g.core.stall c.inputs = false := by
  have hnow : n ∈ (g.offloadsNow c).map Prod.fst := by
    change n ∈ (if g.core.accTaken c.inputs = true then _ else _ : List _).map Prod.fst at hn
    split at hn
    · obtain ⟨e, he, rfl⟩ := List.mem_map.mp hn
      exact List.mem_map_of_mem (List.mem_of_mem_filter he)
    · exact hn
  rw [offloadsNow, List.map_append] at hnow
  rcases List.mem_append.mp hnow with hn | hn
  · exact .inl hn
  · cases hoff : g.core.offloaded c.inputs with
    | false =>
        rw [hoff] at hn
        cases hn
    | true =>
        rw [hoff] at hn
        rw [offloaded_eq] at hoff
        simp only [Bool.and_eq_true, Bool.not_eq_true'] at hoff
        exact .inr ⟨List.mem_singleton.mp hn, hoff.1.1⟩

theorem Ok.step (h : g.Ok) (hc : g.Legal c) : (g.step c).Ok where
  board := by
    cases hretire : (g.core.writeBack c.inputs).retireLoad with
    | false => exact board_step_of_not_retired h hc hretire
    | true => exact board_step_of_retired h hc hretire
  lsu := by
    apply h.lsu.next
    · intro hmem
      exact h.fresh (List.mem_append_left _ hmem)
    · exact hc.memory
  linked := linked_step h hc
  bound := by
    intro n hn
    have hcase : n ∈ g.requests.map Ticket.num ++ g.offloads.map Prod.fst ∨
        n = g.issued ∧ g.core.stall c.inputs = false := by
      rcases List.mem_append.mp hn with hn | hn
      · exact (num_of_requests hn).imp (List.mem_append_left _) id
      · exact (num_of_offloads hn).imp (List.mem_append_right _) id
    change n < if g.core.stall c.inputs then g.issued else g.issued + 1
    rcases hcase with hn | ⟨rfl, hstall⟩
    · have hlt := h.bound n hn
      split <;> omega
    · rw [hstall]
      exact Nat.lt_succ_self _

theorem Ok.after {cs : List (Cycle cfg)} (h : g.Ok) (hrun : g.LegalRun cs) :
    (g.after cs).Ok := by
  induction cs generalizing g with
  | nil => exact h
  | cons c cs ih => exact ih (h.step hrun.1) hrun.2

/-! ## The registers and the program order -/

theorem Ok.length_outstanding (h : g.Ok) {r : RegIdx cfg} (hr : r ≠ 0) :
    (g.outstanding.filter fun e => e.2 = r).length = if g.core.sb r then 1 else 0 := by
  rw [outstanding, ← (h.linked.awaited.filter _).length_eq]
  exact h.board.length_awaited hr

theorem busy_of_outstanding (h : g.Ok) {n : Nat} {r : RegIdx cfg} (hr : r ≠ 0)
    (hn : (n, r) ∈ g.outstanding) : g.core.sb r = true :=
  h.board.busy_of_awaited hr (h.linked.awaited.mem_iff.mpr hn)

/-- A load that comes back is outstanding. -/
theorem outstanding_of_load (h : g.Ok) (hc : g.Legal c)
    (hl : (g.core.loadPort c.inputs).we = true) :
    ∃ n, (n, (g.core.loadPort c.inputs).waddr) ∈ Ticket.results g.requests := by
  obtain ⟨hv, hread⟩ := Bool.and_eq_true_iff.mp hl
  obtain ⟨t, ht⟩ := exists_answered h hc hv
  change (!(g.core.lsu.respMetadata (g.core.lsuPort c.inputs false)).write) = true at hread
  have hwaddr : (g.core.loadPort c.inputs).waddr = t.req.qtag := congrArg Metadata.tag ht.metadata
  rw [ht.metadata] at hread
  refine ⟨t.num, ?_⟩
  rw [hwaddr]
  exact List.mem_map.mpr ⟨t, List.mem_filter.mpr ⟨ht.mem, hread⟩, rfl⟩

/-- An instruction that writes a register itself is issued while that is free, and is not
for another unit. -/
theorem free_of_own {r : RegIdx cfg} (hr : r ≠ 0)
    (ho : ((g.core.ownPort c.inputs).we && (g.core.ownPort c.inputs).waddr == r) = true) :
    g.core.sb r = false ∧ (decode cfg c.inputs.instData).accQvalid = false := by
  have hx : (decode cfg c.inputs.instData).Exclusive := decode_exclusive _
  rw [ownPort_eq hr] at ho
  simp only [Bool.and_eq_true, Bool.or_eq_true, Bool.not_eq_true', beq_iff_eq] at ho
  obtain ⟨hstall, ⟨hw, rfl⟩ | ⟨hw, rfl⟩⟩ := ho
  · refine ⟨free_of_writeRs1 hstall hw, Bool.eq_false_iff.mpr fun hacc => ?_⟩
    rw [writeRs1, (hx.offload hacc).2.2.2.2] at hw
    cases hw
  · refine ⟨free_of_writeRd hstall hw, Bool.eq_false_iff.mpr fun hacc => ?_⟩
    rw [writeRd, (hx.offload hacc).2.2.2.1] at hw
    cases hw

/-- A unit answers what was outstanding, or the instruction it has just been given. -/
theorem outstanding_of_unit (hc : g.Legal c) (ha : (accPort c.inputs).we = true) :
    (∃ n, (n, (accPort c.inputs).waddr) ∈ g.offloads) ∨
      g.core.marks c.inputs = true ∧ (decode cfg c.inputs.instData).accQvalid = true ∧
        rd cfg c.inputs.instData = (accPort c.inputs).waddr := by
  obtain ⟨r, hmem, htag⟩ := hc.unit ha
  have hwaddr : (accPort c.inputs).waddr = r := tag_of_unit htag
  rw [hwaddr]
  rcases List.mem_append.mp hmem with hmem | hmem
  · exact .inl ⟨_, hmem⟩
  · cases hoff : g.core.offloaded c.inputs with
    | false =>
        rw [hoff] at hmem
        cases hmem
    | true =>
        rw [hoff] at hmem
        rw [offloaded_eq] at hoff
        simp only [Bool.and_eq_true, Bool.not_eq_true'] at hoff
        obtain ⟨⟨hstall, hacc⟩, hex⟩ := hoff
        refine .inr ⟨?_, hacc, (congrArg Prod.snd (List.mem_singleton.mp hmem)).symm⟩
        rw [marks, hc.stream hacc, hstall, hex, Bool.or_true]
        rfl

theorem length_ports (two : Bool) (own load acc : WritePort cfg) (r : RegIdx cfg)
    (hol : (own.we && own.waddr == r) = true → (load.we && load.waddr == r) = false)
    (hoa : (own.we && own.waddr == r) = true → (acc.we && acc.waddr == r) = false)
    (hla : (load.we && load.waddr == r) = true → (acc.we && acc.waddr == r) = false) :
    ((Snitch.writeBack two own load acc).ports.filter fun p => p.we && p.waddr == r).length ≤
      1 := by
  rw [Snitch.writeBack]
  cases two <;> cases ho : own.we <;> cases hl : load.we <;> cases ha : acc.we <;>
    simp only [ho, hl, ha, Bool.true_and, Bool.false_and] at hol hoa hla <;>
    cases ho' : own.waddr == r <;> cases hl' : load.waddr == r <;> cases ha' : acc.waddr == r <;>
    simp_all

theorem ports_apart (h : g.Ok) (hc : g.Legal c) {r : RegIdx cfg} (hr : r ≠ 0) :
    ((g.core.writeBack c.inputs).ports.filter fun p => p.we && p.waddr == r).length ≤ 1 := by
  have hload : ((g.core.loadPort c.inputs).we && (g.core.loadPort c.inputs).waddr == r) = true →
      ∃ n, (n, r) ∈ Ticket.results g.requests := by
    intro hl
    obtain ⟨hwe, hwaddr⟩ := Bool.and_eq_true_iff.mp hl
    obtain ⟨n, hn⟩ := outstanding_of_load h hc hwe
    exact ⟨n, beq_iff_eq.mp hwaddr ▸ hn⟩
  have hbusy : ∀ {n}, (n, r) ∈ Ticket.results g.requests → g.core.sb r = true := fun hn =>
    busy_of_outstanding h hr (List.mem_append_left _ hn)
  apply length_ports
  · intro ho
    apply Bool.eq_false_iff.mpr
    intro hl
    obtain ⟨n, hn⟩ := hload hl
    have hfree := (free_of_own hr ho).1
    rw [hbusy hn] at hfree
    cases hfree
  · intro ho
    apply Bool.eq_false_iff.mpr
    intro ha
    obtain ⟨hwe, hwaddr⟩ := Bool.and_eq_true_iff.mp ha
    obtain ⟨hfree, hacc⟩ := free_of_own hr ho
    rcases outstanding_of_unit hc hwe with ⟨n, hn⟩ | ⟨-, hacc', -⟩
    · rw [beq_iff_eq.mp hwaddr] at hn
      rw [busy_of_outstanding h hr (List.mem_append_right _ hn)] at hfree
      cases hfree
    · rw [hacc] at hacc'
      cases hacc'
  · intro hl
    apply Bool.eq_false_iff.mpr
    intro ha
    obtain ⟨hwe, hwaddr⟩ := Bool.and_eq_true_iff.mp ha
    obtain ⟨n, hn⟩ := hload hl
    rcases outstanding_of_unit hc hwe with ⟨m, hm⟩ | ⟨hmarks, -, hrd⟩
    · -- one register does not wait for both
      rw [beq_iff_eq.mp hwaddr] at hm
      have hlen := h.length_outstanding hr
      rw [outstanding, List.filter_append, List.length_append] at hlen
      have hpos : ∀ {l : List (Nat × RegIdx cfg)} {n}, (n, r) ∈ l →
          0 < (l.filter fun e => e.2 = r).length := fun hn =>
        List.length_pos_of_mem (List.mem_filter.mpr ⟨hn, by simp⟩)
      have h1 := hpos hn
      have h2 := hpos hm
      split at hlen <;> omega
    · have hfree := free_of_marks hmarks
      rw [hrd, beq_iff_eq.mp hwaddr, hbusy hn] at hfree
      cases hfree

/-- The core behaves as if every instruction were completed before the next is issued. -/
structure InOrder (g : Tracked k) : Prop where
  /-- What an instruction reads when it is issued is what the latest of the instructions
  before it that write the register has left there. -/
  reads : ∀ (i : CoreIn cfg) (row : Row), rowOf i.instData = some row →
    (decode cfg i.instData).illegalInst = false → g.core.stall i = false →
    ∀ o ∈ row.operands, g.latest (o.1.reg cfg i.instData) =
      some (g.core.regs.mem (o.1.reg cfg i.instData))
  /-- And that is what it is given, unless it traps. -/
  operands : ∀ (i : CoreIn cfg) (row : Row), rowOf i.instData = some row →
    row.isFusedMultiplyAdd = false → (decode cfg i.instData).illegalInst = false →
    g.core.stall i = false → g.core.exception i = false →
    ∀ o ∈ row.operands, g.latest (o.1.reg cfg i.instData) = some (g.core.handed i o.2)
  /-- No result is lost, and none is overwritten by an older one. -/
  kept : ∀ r, r ≠ 0 → g.newest r = some (g.core.regs.mem r)
  busy : ∀ r, r ≠ 0 →
    (g.outstanding.filter fun e => e.2 = r).length = if g.core.sb r then 1 else 0
  ports : ∀ c, g.Legal c → ∀ r, r ≠ 0 →
    ((g.core.writeBack c.inputs).ports.filter fun p => p.we && p.waddr == r).length ≤ 1

theorem Ok.latest_eq (h : g.Ok) {r : RegIdx cfg} (hfree : g.core.sb r = false) :
    g.latest r = some (g.core.regs.mem r) := by
  rw [latest]
  split
  · next hr =>
    subst hr
    rw [g.core.regs.zero]
  · next hr =>
    have hcoh := h.board r hr
    change Coherent 0 (g.core.sb r) _ _ at hcoh
    rw [hfree] at hcoh
    exact hcoh.latest_eq

theorem Ok.inOrder (h : g.Ok) : g.InOrder where
  reads i row hrow hlegal hstall o ho :=
    h.latest_eq (free_of_named rfl hrow hlegal hstall o (List.mem_of_mem_filter ho))
  operands i row hrow hfused hlegal hstall hex o ho := by
    have hnamed := List.mem_of_mem_filter ho
    have hno : row.isFusedMultiplyAdd = true → rs3Field cfg i.instData = rd cfg i.instData := by
      intro hf
      rw [hfused] at hf
      cases hf
    rw [handed_of_named rfl hrow hlegal hstall hex hno o hnamed]
    exact h.latest_eq (free_of_named rfl hrow hlegal hstall o hnamed)
  kept r hr := (h.board r hr).newest_eq
  busy r hr := h.length_outstanding hr
  ports c hc r hr := ports_apart h hc hr

theorem in_order_registers (k : LsuCells cfg) (cs : List (Cycle cfg))
    (h : (reset k).LegalRun cs) : ((reset k).after cs).InOrder :=
  (ok_reset.after h).inOrder

/-- A cycle that issues `inst` if it can, and brings nothing. -/
def presents (inst : BitVec 32) : Cycle mempoolCore := ⟨.present mempoolCore inst, 0, 0⟩

theorem legal_presents {g : Tracked (LsuCells.plain mempoolCore)} {inst : BitVec 32}
    (h : (decode mempoolCore inst).accQvalid = true →
      (decode mempoolCore inst).accRegisterRd = true) : g.Legal (presents inst) where
  memory hv := by cases hv
  unit hv := by cases hv
  stream := h

/-- `lw x5, 0(x0)`, and `add x6, x5, x5`, which is held back until the memory answers. -/
def loadAndUse : List (Cycle mempoolCore) :=
  [presents 0x00002283,
    ⟨{ CoreIn.present mempoolCore 0x00528333 with dataPvalid := true, dataPdata := 7 }, 0, 0⟩,
    presents 0x00528333]

theorem in_order_registers_loadAndUse :
    ((reset (LsuCells.plain mempoolCore)).after loadAndUse).InOrder :=
  in_order_registers _ loadAndUse
    ⟨legal_presents (by decide +kernel),
      ⟨fun _ => by decide +kernel, fun hv => (by cases hv), by decide +kernel⟩,
      legal_presents (by decide +kernel), trivial⟩

/-- `lw x0, 0(x0)` and `mul x0, x0, x0`, both answered in the third cycle. -/
def twoForZero : List (Cycle mempoolCore) :=
  [presents 0x00002003, presents 0x02000033,
    ⟨{ CoreIn.present mempoolCore 0 with instReady := false, dataPvalid := true
                                         accPvalid := true }, 0, 1⟩]

/-- Both write ports write register zero, where nothing is kept. -/
theorem ports_meet_in_zero :
    (reset (LsuCells.plain mempoolCore)).LegalRun twoForZero ∧
      ∃ c ∈ twoForZero.getLast?,
        ((((reset (LsuCells.plain mempoolCore)).after twoForZero.dropLast).core.writeBack
          c.inputs).ports.filter fun p => p.we && p.waddr == 0).length = 2 := by
  refine ⟨⟨legal_presents (by decide +kernel), legal_presents (by decide +kernel), ⟨?_, ?_, ?_⟩,
    trivial⟩, _, rfl, by decide +kernel⟩
  · intro _
    decide +kernel
  · intro _
    exact ⟨0, by decide +kernel, by decide +kernel⟩
  · decide +kernel

end Tracked

end TeraNoC.Snitch
