import TeraNoC.Proofs.SequentialMemory
import TeraNoC.Proofs.SocDelivery
import TeraNoC.Snitch.Decoder

/-!
# Atomics beyond the L1

The adapter encodes an atomic as an AXI atomic load, on the write address channel. But a core
sends an atomic with `write` low, as the decoder marks only stores, and what is no write goes
to the read address channel. So an atomic beyond the L1 is a plain load: its answer is
the old word, and the memory keeps it.
-/

namespace TeraNoC.Hw

open TeraNoC.Lib TeraNoC.Snitch

/-! ## What the core sends -/

/-- A request whose flags are those of a decoded instruction. -/
def DataReq.Sent (q : DataReq) : Prop :=
  ∃ (cfg : CoreConfig) (inst : BitVec 32),
    q.write = (decode cfg inst).isStore ∧ q.amo = (decode cfg inst).lsAmo

theorem branch_lsAmo_of_isStore (cfg : CoreConfig) (inst : BitVec 32) (b : Branch) :
    (b.decode cfg inst).isStore = true → (b.decode cfg inst).lsAmo = .none := by
  cases b with
  | amo op => exact nofun
  | csrModify op imm =>
      rw [Branch.decode]
      split <;> exact nofun
  | fp fmt divsqrt third =>
      rw [Branch.decode]
      split <;> exact nofun
  | pulpLoad size signed reg post =>
      rw [Branch.decode]
      split <;> exact nofun
  | pulpStore size reg post =>
      rw [Branch.decode]
      split <;> exact fun _ => rfl
  | immBranch op =>
      rw [Branch.decode]
      split <;> exact nofun
  | pulpIpu second third =>
      rw [Branch.decode]
      split <;> exact nofun
  | _ => exact fun _ => rfl

/-- Only loads carry an atomic operation. -/
theorem lsAmo_of_isStore (cfg : CoreConfig) (inst : BitVec 32)
    (h : (decode cfg inst).isStore = true) : (decode cfg inst).lsAmo = .none := by
  rw [decode] at h ⊢
  cases hrow : rowOf inst with
  | none => rfl
  | some r =>
      simp only [hrow] at h
      exact branch_lsAmo_of_isStore cfg inst r.branch h

theorem DataReq.Sent.plain {q : DataReq} (h : q.Sent) (hwrite : q.write = true) :
    q.amo = .none := by
  obtain ⟨cfg, inst, hw, hamo⟩ := h
  rw [hamo]
  exact lsAmo_of_isStore cfg inst (hw ▸ hwrite)

/-- The RV32A operations that read and write. -/
def AmoOp.isAmo : AmoOp → Bool
  | .swap | .add | .and | .or | .xor | .max | .maxu | .min | .minu => true
  | .none | .lr | .sc | .reserved => false

/-! ## A memory on AXI -/

/-- The word that an atomic load leaves (AXI5). -/
def AtopOp.alu (op : AtopOp) (old data : Word) : Word :=
  match op with
  | .swap => data
  | .add => old + data
  | .clr => old &&& ~~~data
  | .set => old ||| data
  | .eor => old ^^^ data
  | .smax => if old.toInt < data.toInt then data else old
  | .smin => if old.toInt < data.toInt then old else data
  | .umax => if old.toNat < data.toNat then data else old
  | .umin => if old.toNat < data.toNat then old else data

/-- The bytes that are enabled. -/
def strobeMask (strb : BitVec 4) : Word :=
  (if strb.getLsbD 3 then (255 : BitVec 8) else 0) ++
    ((if strb.getLsbD 2 then (255 : BitVec 8) else 0) ++
      ((if strb.getLsbD 1 then (255 : BitVec 8) else 0) ++
        (if strb.getLsbD 0 then (255 : BitVec 8) else 0)))

/-- What was done at an address. -/
structure Exec where
  addr : Nat
  before : Word
  after : Word
  deriving DecidableEq, Repr

/-- The word after a transfer on AW and W. -/
def AxiAw.after {laneBits : Nat} (a : AxiAw) (w : AxiW laneBits) (old : Word) : Word :=
  let data := w.data.extractLsb' (32 * slice a.addr 2 laneBits) 32
  let mask := strobeMask (w.strb.extractLsb' (4 * slice a.addr 2 laneBits) 4)
  match a.atop with
  | some op => op.alu old data
  | none => old &&& ~~~mask ||| data &&& mask

/-- The path, a memory with a word at each word address, the number of transfers on AR that
it has done, what goes back on R, and what it has done of AW. -/
structure SocSystem {p : SocTile} (z : SocCells p) where
  path : SocTrace z
  mem : Nat → Word
  arDone : Nat
  rDone : List Exec
  wDone : List Exec

namespace SocSystem

variable {p : SocTile} {z : SocCells p}

def initial (z : SocCells p) (mem : Nat → Word) : SocSystem z where
  path := .initial z
  mem := mem
  arDone := 0
  rDone := []
  wDone := []

/-- A cycle in which the cores send what they have decoded, and the memory answers in order. -/
structure Cycle (s : SocSystem z) (i : SocIn p) : Prop where
  offers : ∀ core < p.numPorts, ∀ q, i.dataQ core = some q →
    p.NonL1 q.addr ∧ q.Sent ∧ s.path.inFlight core < maxOutStandingTrans
  r : i.rValid = true → ∃ e, s.rDone[s.path.r.length]? = some e ∧ i.r.word e.addr = e.before
  b : i.bValid = true → s.path.b.length < s.wDone.length

def exec (s : SocSystem z) (addr : Nat) (after : Word) : Exec where
  addr := addr
  before := s.mem (addr / 4)
  after := after

/-- A cycle of the path, the memory doing what it was asked, each channel in order, or another
tile writing to it. An atomic load is answered on R and on B. -/
inductive Step : SocSystem z → SocSystem z → Prop
  | cycle {s : SocSystem z} {i : SocIn p} (h : s.Cycle i) :
      Step s { s with path := s.path.next i }
  | read {s : SocSystem z} {a : AxiAr} (ha : s.path.ar[s.arDone]? = some a) :
      Step s { s with
        arDone := s.arDone + 1
        rDone := s.rDone ++ [s.exec a.addr (s.mem (a.addr / 4))] }
  | write {s : SocSystem z} {a : AxiAw} {w : AxiW p.laneBits}
      (ha : s.path.aw[s.wDone.length]? = some a) (hw : s.path.w[s.wDone.length]? = some w) :
      Step s { s with
        mem := Function.update s.mem (a.addr / 4) (a.after w (s.mem (a.addr / 4)))
        wDone := s.wDone ++ [s.exec a.addr (a.after w (s.mem (a.addr / 4)))]
        rDone := s.rDone ++
          if a.atop.isSome then [s.exec a.addr (a.after w (s.mem (a.addr / 4)))] else [] }
  | other {s : SocSystem z} (word : Nat) (value : Word) :
      Step s { s with mem := Function.update s.mem word value }

inductive Reachable : SocSystem z → Prop
  | initial (mem : Nat → Word) : Reachable (initial z mem)
  | step {s s' : SocSystem z} (h : Reachable s) (hs : Step s s') : Reachable s'

/-! ## Each request's transaction and answer -/

/-- How many requests of a kind were issued before the request `k`. -/
def rank (s : SocSystem z) (P : Nat × DataReq → Bool) (k : Nat) : Nat :=
  (s.path.issued.take k).countP P

/-- What the memory has done for the request `x`, the `k`-th that was issued. -/
def execOf (s : SocSystem z) (k : Nat) (x : Nat × DataReq) : Option Exec :=
  if x.2.write then s.wDone[s.rank SocTrace.isWrite k]? else s.rDone[s.rank SocTrace.isRead k]?

def answerOf (s : SocSystem z) (k : Nat) (x : Nat × DataReq) : Option SocResp :=
  if x.2.write then (s.path.resps.filter SocResp.write)[s.rank SocTrace.isWrite k]?
  else s.path.readAnswers[s.rank SocTrace.isRead k]?

/-- The atomic `x` is performed: the word becomes the result of its operation, and the core
has an answer under its id with the old word, and no more answers than requests. -/
structure Performed (s : SocSystem z) (k : Nat) (x : Nat × DataReq) (e : Exec) : Prop where
  result : e.after = rv32a x.2.amo e.before x.2.data
  answer : ∃ r, s.answerOf k x = some r ∧ r.core = x.1 ∧ r.id = x.2.id ∧ r.data = e.before
  once : ∀ core, s.path.resps.countP (fun r => r.core == core) ≤
    s.path.issued.countP fun x => x.1 == core

/-! ## The memory only reads for an atomic -/

structure Inv (s : SocSystem z) : Prop where
  path : s.path.Inv
  ar_le : s.arDone ≤ s.path.ar.length
  rDone : s.rDone.length = s.arDone
  wDone_le : s.wDone.length ≤ s.path.aw.length
  same : ∀ (j : Nat) e, s.rDone[j]? = some e →
    e.after = e.before ∧ (s.path.ar[j]?).map AxiAr.addr = some e.addr
  r : ∀ (j : Nat) beat, s.path.r[j]? = some beat →
    ∃ e, s.rDone[j]? = some e ∧ beat.word e.addr = e.before

variable {s s' : SocSystem z} {i : SocIn p}

theorem inv_initial (mem : Nat → Word) : (initial z mem).Inv where
  path := SocTrace.inv_initial z
  ar_le := Nat.le_refl _
  rDone := rfl
  wDone_le := Nat.le_refl _
  same := nofun
  r := nofun

theorem Inv.allowed (h : s.Inv) (hi : s.Cycle i) : s.path.Allowed i where
  offers core hcore q hq :=
    have hoffer := hi.offers core hcore q hq
    ⟨hoffer.1, hoffer.2.1.plain, hoffer.2.2⟩
  r hvld := by
    obtain ⟨e, he, -⟩ := hi.r hvld
    have hlt := (List.getElem?_eq_some_iff.mp he).1
    rw [h.rDone] at hlt
    exact Nat.lt_of_lt_of_le hlt h.ar_le
  b hvld := Nat.lt_of_lt_of_le (hi.b hvld) h.wDone_le

theorem getElem?_append_some {α : Type} {l : List α} {j : Nat} {x : α} (h : l[j]? = some x)
    (new : List α) : (l ++ new)[j]? = some x := by
  rw [List.getElem?_append_left (List.getElem?_eq_some_iff.mp h).1, h]

theorem getElem?_concat {α : Type} {l : List α} {j : Nat} {x y : α} (h : (l ++ [x])[j]? = some y) :
    l[j]? = some y ∨ j = l.length ∧ y = x := by
  rcases Nat.lt_or_ge j l.length with hlt | hge
  · rw [List.getElem?_append_left hlt] at h
    exact .inl h
  · rw [List.getElem?_append_right hge] at h
    obtain ⟨hzero, hy⟩ := List.getElem?_eq_some_iff.mp h
    rw [List.length_singleton] at hzero
    refine .inr ⟨by omega, ?_⟩
    have hj : j - l.length = 0 := by omega
    simpa [hj] using hy.symm

theorem map_addr_append {l : List AxiAr} {j addr : Nat} (h : (l[j]?).map AxiAr.addr = some addr)
    (new : List AxiAr) : ((l ++ new)[j]?).map AxiAr.addr = some addr := by
  obtain ⟨a, ha, haddr⟩ := Option.map_eq_some_iff.mp h
  rw [getElem?_append_some ha, Option.map_some, haddr]

theorem Inv.cycle (h : s.Inv) (hi : s.Cycle i) :
    Inv { s with path := s.path.next i } where
  path := h.path.next (h.allowed hi)
  ar_le := h.ar_le.trans (by rw [SocTrace.next, List.length_append]; omega)
  rDone := h.rDone
  wDone_le := h.wDone_le.trans (by rw [SocTrace.next, List.length_append]; omega)
  same j e he := ⟨(h.same j e he).1, map_addr_append (h.same j e he).2 _⟩
  r j beat hbeat := by
    cases hread : s.path.state.answersRead i
    · have hold : (s.path.r ++ if s.path.state.answersRead i then [i.r] else [])[j]? = some beat :=
        hbeat
      rw [hread, if_neg Bool.false_ne_true, List.append_nil] at hold
      exact h.r j beat hold
    · have hnew : (s.path.r ++ if s.path.state.answersRead i then [i.r] else [])[j]? = some beat :=
        hbeat
      rw [hread, if_pos rfl] at hnew
      rcases getElem?_concat hnew with hold | ⟨rfl, rfl⟩
      · exact h.r j beat hold
      · exact hi.r (SocTrace.answersRead_iff.mp hread).1

theorem Inv.read (h : s.Inv) {a : AxiAr} (ha : s.path.ar[s.arDone]? = some a) :
    Inv { s with
      arDone := s.arDone + 1
      rDone := s.rDone ++ [s.exec a.addr (s.mem (a.addr / 4))] } where
  path := h.path
  ar_le := (List.getElem?_eq_some_iff.mp ha).1
  rDone := by rw [List.length_append, h.rDone]; rfl
  wDone_le := h.wDone_le
  same j e he := by
    rcases getElem?_concat he with hold | ⟨rfl, rfl⟩
    · exact h.same j e hold
    · refine ⟨rfl, ?_⟩
      rw [h.rDone, ha]
      rfl
  r j beat hbeat := by
    obtain ⟨e, he, hword⟩ := h.r j beat hbeat
    exact ⟨e, getElem?_append_some he _, hword⟩

/-- What is on AW is no atomic. -/
theorem Inv.atop (h : s.Inv) {a : AxiAw} (ha : a ∈ s.path.aw) : a.atop = none := by
  rw [h.path.aw] at ha
  obtain ⟨x, hx, rfl⟩ := List.mem_map.mp ha
  simp only [DataReq.axiAw, DataReq.atop, h.path.plain hx]

theorem Inv.step (h : s.Inv) (hs : Step s s') : s'.Inv := by
  cases hs with
  | cycle hi => exact h.cycle hi
  | read ha => exact h.read ha
  | other word value => exact ⟨h.path, h.ar_le, h.rDone, h.wDone_le, h.same, h.r⟩
  | @write a w ha hw =>
      have hatop := h.atop (List.mem_of_getElem? ha)
      rw [hatop, Option.isSome_none, if_neg Bool.false_ne_true, List.append_nil]
      refine ⟨h.path, h.ar_le, h.rDone, ?_, h.same, h.r⟩
      rw [List.length_append]
      exact (List.getElem?_eq_some_iff.mp ha).1

theorem Reachable.inv (h : s.Reachable) : s.Inv := by
  induction h with
  | initial mem => exact inv_initial mem
  | step _ hs ih => exact ih.step hs

/-! ## An atomic's answer -/

theorem getElem?_filter_rank {α : Type} {P : α → Bool} {l : List α} {k : Nat} {x : α}
    (hx : l[k]? = some x) (hP : P x = true) : (l.filter P)[(l.take k).countP P]? = some x := by
  obtain ⟨hk, rfl⟩ := List.getElem?_eq_some_iff.mp hx
  have hsplit : l.filter P = (l.take k).filter P ++ l[k] :: (l.drop (k + 1)).filter P := by
    conv_lhs => rw [← List.take_append_drop k l, List.drop_eq_getElem_cons hk]
    rw [List.filter_append, List.filter_cons_of_pos hP]
  rw [hsplit, List.countP_eq_length_filter, List.getElem?_append_right (Nat.le_refl _),
    Nat.sub_self, List.getElem?_cons_zero]

theorem isAmo_ne_none {op : AmoOp} (h : op.isAmo = true) : op ≠ .none := by
  rintro rfl
  cases h

theorem Inv.read_of_amo (h : s.Inv) {k : Nat} {x : Nat × DataReq}
    (hk : s.path.issued[k]? = some x) (hamo : x.2.amo.isAmo = true) :
    x.2.write = false ∧ s.path.reads[s.rank SocTrace.isRead k]? = some x := by
  have hwrite : x.2.write = false := by
    rw [Bool.eq_false_iff]
    exact fun hw => isAmo_ne_none hamo ((h.path.offered x (List.mem_of_getElem? hk)).2.2 hw)
  refine ⟨hwrite, getElem?_filter_rank hk ?_⟩
  rw [SocTrace.isRead, hwrite]
  rfl

/-- The memory keeps the word of an atomic, and the core gets that word. -/
theorem Inv.amo (h : s.Inv) {k : Nat} {x : Nat × DataReq} (hk : s.path.issued[k]? = some x)
    (hamo : x.2.amo.isAmo = true) {e : Exec} (he : s.execOf k x = some e) {r : SocResp}
    (hr : s.answerOf k x = some r) :
    e.after = e.before ∧ r.core = x.1 ∧ r.id = x.2.id ∧ r.data = e.before := by
  obtain ⟨hwrite, hread⟩ := h.read_of_amo hk hamo
  rw [execOf, hwrite, if_neg Bool.false_ne_true] at he
  rw [answerOf, hwrite, if_neg Bool.false_ne_true, h.path.readAnswers,
    List.getElem?_zipWith, hread] at hr
  obtain ⟨hsame, haddr⟩ := h.same _ e he
  rw [h.path.ar, List.getElem?_map, hread] at haddr
  cases hbeat : s.path.r[s.rank SocTrace.isRead k]? with
  | none => rw [hbeat] at hr; cases hr
  | some beat =>
      rw [hbeat] at hr
      obtain rfl := Option.some.inj hr
      obtain ⟨e', he', hword⟩ := h.r _ beat hbeat
      obtain rfl := Option.some.inj (he.symm.trans he')
      have hsameAddr : x.2.addr = e.addr := Option.some.inj haddr
      exact ⟨hsame, rfl, rfl, (congrArg beat.word hsameAddr).trans hword⟩

/-- An atomic that was answered is performed just when its operation leaves the word as it
was. -/
theorem amo_performed_iff (h : s.Reachable) {k : Nat} {x : Nat × DataReq}
    (hk : s.path.issued[k]? = some x) (hamo : x.2.amo.isAmo = true) {e : Exec}
    (he : s.execOf k x = some e) (hanswer : (s.answerOf k x).isSome = true) :
    s.Performed k x e ↔ rv32a x.2.amo e.before x.2.data = e.before := by
  have hinv := h.inv
  obtain ⟨r, hr⟩ := Option.isSome_iff_exists.mp hanswer
  obtain ⟨hsame, hcore, hid, hdata⟩ := hinv.amo hk hamo he hr
  constructor
  · intro hperformed
    exact hperformed.result.symm.trans hsame
  · intro hresult
    refine ⟨hsame.trans hresult.symm, ⟨r, hr, hcore, hid, hdata⟩, fun core => ?_⟩
    rw [hinv.path.balance core]
    exact Nat.le_add_right _ _

/-! ### One atomic -/

/-- `amoadd.w` of core 1 to the second word of the L2, adding one or nothing. -/
def amoadd (one : Bool) : DataReq where
  addr := 0x80000004
  write := false
  amo := .add
  data := if one then 1 else 0
  strb := 15
  id := 5

theorem amoadd_sent (one : Bool) : (amoadd one).Sent :=
  ⟨mempoolCore, 0x00c5a52f, by cases one <;> decide +kernel, by cases one <;> decide +kernel⟩

def amoaddIn (one : Bool) : SocIn terapoolTile :=
  { SocTrace.idleIn with dataQ := fun core => if core = 1 then some (amoadd one) else none }

/-- The beat has the word 9 in the second lane. -/
def nineIn : SocIn terapoolTile :=
  { SocTrace.idleIn with rValid := true, r := { data := 9 <<< 32, resp := 0 } }

/-- The memory has 9 everywhere. -/
def nines : SocSystem (.plain terapoolTile) := initial (.plain terapoolTile) fun _ => 9

/-- The atomic is taken. -/
def afterOffer (one : Bool) : SocSystem (.plain terapoolTile) :=
  { nines with path := nines.path.next (amoaddIn one) }

def afterRead (one : Bool) : SocSystem (.plain terapoolTile) :=
  { afterOffer one with
    arDone := (afterOffer one).arDone + 1
    rDone := (afterOffer one).rDone ++
      [(afterOffer one).exec 0x80000004 ((afterOffer one).mem (0x80000004 / 4))] }

def afterAnswer (one : Bool) : SocSystem (.plain terapoolTile) :=
  { afterRead one with path := (afterRead one).path.next nineIn }

theorem cycle_amoadd (one : Bool) : nines.Cycle (amoaddIn one) where
  offers core _ q hq := by
    change (if core = 1 then some (amoadd one) else none) = some q at hq
    split at hq
    · obtain rfl := Option.some.inj hq
      exact ⟨SocTrace.load_nonL1, amoadd_sent one, show 0 < 8 by decide⟩
    · cases hq
  r := nofun
  b := nofun

theorem cycle_nine (one : Bool) : (afterRead one).Cycle nineIn where
  offers := nofun
  r _ := by
    refine ⟨{ addr := 0x80000004, before := 9, after := 9 }, ?_, by decide +kernel⟩
    cases one <;> decide +kernel
  b := nofun

theorem reachable_afterAnswer (one : Bool) : (afterAnswer one).Reachable := by
  have hoffer : Step nines (afterOffer one) := Step.cycle (cycle_amoadd one)
  have hread : Step (afterOffer one) (afterRead one) :=
    Step.read (a := { addr := 0x80000004, size := 2, len := 0 }) (by
      cases one <;> decide +kernel)
  have hanswer : Step (afterRead one) (afterAnswer one) := Step.cycle (cycle_nine one)
  exact (((Reachable.initial _).step hoffer).step hread).step hanswer

/-- Adding nothing is performed. -/
theorem amoadd_zero_performed :
    (afterAnswer false).Performed 0 (1, amoadd false)
      { addr := 0x80000004, before := 9, after := 9 } :=
  (amo_performed_iff (reachable_afterAnswer false) (by decide +kernel) (by decide)
    (by decide +kernel) (by decide +kernel)).mpr (by decide)

/-- Adding one to 9 leaves 9. -/
theorem amoadd_one_lost : (afterAnswer true).Reachable ∧
    (afterAnswer true).path.issued = [(1, amoadd true)] ∧
    (afterAnswer true).execOf 0 (1, amoadd true) =
      some { addr := 0x80000004, before := 9, after := 9 } ∧
    (afterAnswer true).path.resps =
      [{ core := 1, id := 5, data := 9, write := false, error := false }] ∧
    ¬ (afterAnswer true).Performed 0 (1, amoadd true)
      { addr := 0x80000004, before := 9, after := 9 } :=
  ⟨reachable_afterAnswer true, by decide +kernel, by decide +kernel, by decide +kernel,
    fun h => absurd h.result (by decide)⟩

end SocSystem

end TeraNoC.Hw
