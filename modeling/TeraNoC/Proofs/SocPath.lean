import TeraNoC.Lib.Views
import TeraNoC.Hw.SocPath
import TeraNoC.Proofs.CorePath

/-!
# What the path to the SoC keeps of a request

The reads that are not answered form a queue, and so do the writes; the FIFOs of the shims,
the demux and the adapter each hold a part of what these queues hold (`Views`). A core's
FIFOs follow the queue with the requests of that core.
-/

namespace TeraNoC.Hw

open TeraNoC.Lib

/-! ## The address rules -/

/-- Addresses beyond the L1. -/
def L1Config.NonL1 (c : L1Config) (addr : Nat) : Prop := c.tcdmSize ≤ addr ∧ addr < 2 ^ 32

namespace SocTile

variable (p : SocTile)

theorem testBit_nonL1 {addr : Nat} (h : p.NonL1 addr) :
    ∃ i, p.addrBits ≤ i ∧ i < 32 ∧ addr.testBit i = true := by
  obtain ⟨hge, hlt⟩ := h
  rw [p.tcdmSize_eq] at hge
  obtain ⟨i, hi, hbit⟩ := Nat.exists_ge_and_testBit_of_ge_two_pow hge
  refine ⟨i, hi, ?_, hbit⟩
  by_contra hle
  rw [testBit_of_lt hlt (Nat.le_of_not_lt hle)] at hbit
  cases hbit

theorem land_tcdmMask_nonL1 {addr : Nat} (h : p.NonL1 addr) (mask value : Nat)
    (hvalue : value < 2 ^ p.addrBits) : addr &&& (p.tcdmMask ||| mask) ≠ value := by
  obtain ⟨i, hi, hi32, hbit⟩ := p.testBit_nonL1 h
  intro heq
  have hmask : p.tcdmMask.testBit i = true := by
    rw [p.tcdmMask_eq, testBit_highMask (Nat.le_of_lt p.tcdmBits_lt)]
    simp only [Bool.and_eq_true, decide_eq_true_eq]
    exact ⟨hi, hi32⟩
  have htest := congrArg (fun x => x.testBit i) heq
  simp only [Nat.testBit_and, Nat.testBit_or, hbit, hmask, Bool.true_or, Bool.and_self] at htest
  rw [testBit_of_lt hvalue hi] at htest
  cases htest

theorem scramble_nonL1 {addr : Nat} (h : p.NonL1 addr) :
    addrScrambler (p.coreScrambler 0) addr = addr := by
  have hseq : ¬addr < (p.coreScrambler 0).numTiles * (p.coreScrambler 0).seqMemSizePerTile := by
    have htotal : (p.coreScrambler 0).numTiles * (p.coreScrambler 0).seqMemSizePerTile =
      2 ^ (2 + p.bBits + p.sBits + (p.gBits + p.tBits)) := p.seqTotal_eq
    have hle := p.sBits_le
    have hpow : 2 ^ (2 + p.bBits + p.sBits + (p.gBits + p.tBits)) ≤ p.tcdmSize := by
      rw [p.tcdmSize_eq]
      exact Nat.pow_le_pow_right (by decide) (by omega)
    have := h.1
    omega
  have hmask : (addr &&& (p.coreScrambler 0).tcdmMask == (p.coreScrambler 0).tcdmBaseAddr)
      = false := by
    have hne := p.land_tcdmMask_nonL1 h 0 0 (Nat.two_pow_pos _)
    rw [Nat.or_zero] at hne
    exact beq_eq_false_iff_ne.mpr hne
  rw [addrScrambler]
  split
  · rfl
  · simp [hseq, hmask]

theorem route_nonL1 {addr : Nat} (h : p.NonL1 addr) :
    snitchAddrDemux (p.maskMap 0 p.tileId) addr = .soc := by
  have htile : 0 ||| (p.tileId <<< (Params.byteOffset + clog2 p.numBanksPerTile)) <
      2 ^ p.addrBits := by
    have hlt := p.tile_lt
    have hbits : p.addrBits = 2 + p.bBits + (p.gBits + p.tBits) + p.rBits := rfl
    rw [p.numTiles_eq] at hlt
    rw [Nat.zero_or, Nat.shiftLeft_eq, L1Config.byteOffset_eq, p.clog2_banks]
    calc p.tileId * 2 ^ (2 + p.bBits) < 2 ^ (p.gBits + p.tBits) * 2 ^ (2 + p.bBits) :=
          Nat.mul_lt_mul_of_pos_right hlt (Nat.two_pow_pos _)
      _ = 2 ^ (p.gBits + p.tBits + (2 + p.bBits)) := (Nat.pow_add _ _ _).symm
      _ ≤ 2 ^ p.addrBits := Nat.pow_le_pow_right (by decide) (by omega)
  have hlocal := p.land_tcdmMask_nonL1 h
    ((2 ^ idxWidth p.numTiles - 1) <<< (Params.byteOffset + clog2 p.numBanksPerTile)) _ htile
  have hexternal := p.land_tcdmMask_nonL1 h 0 0 (Nat.two_pow_pos _)
  rw [Nat.or_zero] at hexternal
  rw [snitchAddrDemux, Params.maskMap, List.find?_cons_of_neg (by simpa using hlocal),
    List.find?_cons_of_neg (by simpa using hexternal), List.find?_cons_of_pos (by simp)]

end SocTile

/-! ## The lanes -/

/-- The word of a beat that an address selects. -/
def AxiR.word {laneBits : Nat} (b : AxiR laneBits) (addr : Nat) : Word :=
  b.data.extractLsb' (32 * slice addr 2 laneBits) 32

theorem setWidth_shiftRight {w : Nat} (x : BitVec w) (n m : Nat) :
    (x >>> n).setWidth m = x.extractLsb' n m := by
  ext j hj
  simp

/-- The request's data and byte enables in the lane that its address selects, and no byte
enabled in any other. -/
structure AxiW.Carries {laneBits : Nat} (b : AxiW laneBits) (addr : Nat) (data : Word)
    (strb : BitVec 4) : Prop where
  data : b.data.extractLsb' (32 * slice addr 2 laneBits) 32 = data
  strb : b.strb.extractLsb' (4 * slice addr 2 laneBits) 4 = strb
  rest : ∀ lane < 2 ^ laneBits, lane ≠ slice addr 2 laneBits → b.strb.extractLsb' (4 * lane) 4 = 0

/-- A value in one lane of many. -/
theorem extract_lane {m n lane other : Nat} (x : BitVec m) (hother : other < n) :
    ((x.setWidth (m * n)) <<< (m * lane)).extractLsb' (m * other) m =
      if other = lane then x else 0 := by
  refine BitVec.eq_of_getLsbD_eq fun j hj => ?_
  have hfit : m * other + j < m * n :=
    calc m * other + j < m * (other + 1) := by rw [Nat.mul_succ]; omega
      _ ≤ m * n := Nat.mul_le_mul_left m hother
  rw [BitVec.getLsbD_extractLsb', BitVec.getLsbD_shiftLeft, BitVec.getLsbD_setWidth,
    decide_eq_true hj, decide_eq_true hfit, Bool.true_and, Bool.true_and]
  rcases Nat.lt_trichotomy other lane with hlt | rfl | hgt
  · -- below the lane nothing is shifted in
    have hbelow : m * other + j < m * lane :=
      calc m * other + j < m * (other + 1) := by rw [Nat.mul_succ]; omega
        _ ≤ m * lane := Nat.mul_le_mul_left m hlt
    rw [decide_eq_true hbelow, if_neg (Nat.ne_of_lt hlt)]
    simp
  · have hsub : m * other + j - m * other = j := Nat.add_sub_cancel_left _ _
    rw [decide_eq_false (by omega), if_pos rfl, hsub, decide_eq_true (by omega)]
    rfl
  · -- above the lane the value has no bits left
    have habove : m * lane + m ≤ m * other := by
      rw [← Nat.mul_succ]
      exact Nat.mul_le_mul_left m hgt
    rw [if_neg (Nat.ne_of_gt hgt), BitVec.getLsbD_of_ge x _ (by omega)]
    simp

theorem carries_beat (laneBits : Nat) (r : DataReq) :
    ((r.writeExt laneBits).beat laneBits).Carries r.addr r.writeData r.strb := by
  have hlane : slice r.addr 2 laneBits < 2 ^ laneBits := slice_lt _ _ _
  refine ⟨?_, ?_, fun lane hlt hne => ?_⟩
  · exact (extract_lane r.writeData hlane).trans (if_pos rfl)
  · exact (extract_lane r.strb hlane).trans (if_pos rfl)
  · exact (extract_lane r.strb hlt).trans (if_neg hne)

/-! ## Runs -/

/-- The path with what was taken on its ports: requests with the core that issued them, the
AXI channels, and the responses. -/
structure SocTrace {p : SocTile} (z : SocCells p) where
  state : SocState z
  issued : List (Nat × DataReq)
  ar : List AxiAr
  aw : List AxiAw
  w : List (AxiW p.laneBits)
  r : List (AxiR p.laneBits)
  b : List (BitVec 2)
  resps : List SocResp

/-- The request that a core hands over in this cycle. -/
def SocState.issue {p : SocTile} {z : SocCells p} (s : SocState z) (i : SocIn p) :
    Option (Nat × DataReq) :=
  if s.slvQready i then (i.dataQ (s.idx i)).map (Prod.mk (s.idx i)) else none

namespace SocTrace

variable {p : SocTile} {z : SocCells p}

def initial (z : SocCells p) : SocTrace z where
  state := .reset z
  issued := []
  ar := []
  aw := []
  w := []
  r := []
  b := []
  resps := []

def next (t : SocTrace z) (i : SocIn p) : SocTrace z where
  state := t.state.next i
  issued := t.issued ++ (t.state.issue i).toList
  ar := t.ar ++ (if i.arReady && t.state.arValid i then (t.state.slvQ i).toList.map DataReq.axiAr
    else [])
  aw := t.aw ++ (if i.awReady && t.state.awValid i then (t.state.slvQ i).toList.map DataReq.axiAw
    else [])
  w := t.w ++ (if t.state.sends i then [t.state.wBeat] else [])
  r := t.r ++ (if t.state.answersRead i then [i.r] else [])
  b := t.b ++ (if t.state.answersWrite i then [i.bResp] else [])
  resps := t.resps ++ (if t.state.answers i then [t.state.response i] else [])

def isRead (x : Nat × DataReq) : Bool := !x.2.write

def isWrite (x : Nat × DataReq) : Bool := x.2.write

variable (t : SocTrace z)

def reads : List (Nat × DataReq) := t.issued.filter isRead

def writes : List (Nat × DataReq) := t.issued.filter isWrite

def openReads : List (Nat × DataReq) := t.reads.drop t.r.length

def openWrites : List (Nat × DataReq) := t.writes.drop t.b.length

/-- The writes whose data are still to be sent. -/
def unsent : List (Nat × DataReq) := t.writes.drop t.w.length

/-- The requests of a core that it has no response for. -/
def inFlight (core : Nat) : Nat :=
  t.issued.countP (fun x => x.1 == core) - t.resps.countP fun x => x.core == core

/-- What may be on the inputs: a core goes beyond the L1 with less than all of its ids in
use, and what is no plain load or store is not marked as a write. AXI answers what it was
asked. -/
structure Allowed (t : SocTrace z) (i : SocIn p) : Prop where
  offers : ∀ core < p.numPorts, ∀ q, i.dataQ core = some q →
    p.NonL1 q.addr ∧ (q.write = true → q.amo = .none) ∧ t.inFlight core < maxOutStandingTrans
  r : i.rValid = true → t.r.length < t.ar.length
  b : i.bValid = true → t.b.length < t.aw.length

end SocTrace

/-! ## What a cycle takes -/

namespace SocState

variable {p : SocTile} {z : SocCells p} {s : SocState z} {i : SocIn p}

/-- The cores stay beyond the L1. -/
def Beyond (i : SocIn p) : Prop :=
  ∀ core < p.numPorts, ∀ q, i.dataQ core = some q → p.NonL1 q.addr

theorem socQ_eq (h : Beyond i) (core : Nat) :
    socQ i core = if core < p.numPorts then i.dataQ core else none := by
  rw [socQ]
  split
  case isFalse => rfl
  case isTrue hcore =>
    cases hq : i.dataQ core with
    | none => rfl
    | some q =>
        have hfar := h core hcore q hq
        have hscramble := p.scramble_nonL1 hfar
        simp only [Option.bind_some, hscramble]
        rw [if_pos (p.route_nonL1 hfar)]

/-- The request `x` is handed over, and its address is taken on AXI. -/
structure Hands (s : SocState z) (i : SocIn p) (x : Nat × DataReq) : Prop where
  port : x.1 < p.numPorts
  idx : s.idx i = x.1
  offered : i.dataQ x.1 = some x.2
  slvQ : s.slvQ i = some x.2
  ready : s.slvQready i = true
  payload : s.slvPayload i = x.2
  full : s.full i = false
  ar : (i.arReady && s.arValid i) = SocTrace.isRead x
  aw : (i.awReady && s.awValid i) = SocTrace.isWrite x
  readRoom : SocTrace.isRead x = true → s.readFull = false
  writeRoom : SocTrace.isWrite x = true → s.writeFull = false

theorem hands_of_ready (h : Beyond i) (hready : s.slvQready i = true) :
    ∃ x, s.issue i = some x ∧ s.Hands i x := by
  cases hslv : s.slvQ i with
  | none => simp [slvQready, arValid, awValid, hslv] at hready
  | some q =>
      have hfull : s.full i = false := by
        rw [slvQ] at hslv
        cases hf : s.full i
        · rfl
        · rw [hf] at hslv
          cases hslv
      have hsoc : socQ i (s.idx i) = some q := by
        rw [slvQ, hfull] at hslv
        exact hslv
      have hoffer := hsoc
      rw [socQ_eq h] at hoffer
      have hport : s.idx i < p.numPorts := by
        by_contra hge
        rw [if_neg hge] at hoffer
        cases hoffer
      rw [if_pos hport] at hoffer
      have har : s.arValid i = (!s.readFull && !q.write) := by rw [arValid, hslv]; rfl
      have haw : s.awValid i = (!s.writeFull && q.write) := by rw [awValid, hslv]; rfl
      have hpayload : s.slvPayload i = q := by rw [slvPayload, hsoc]; rfl
      refine ⟨(s.idx i, q), by rw [SocState.issue, if_pos hready, hoffer]; rfl, ?_⟩
      rw [slvQready, har, haw] at hready
      cases hwrite : q.write
      · rw [hwrite, Bool.and_false, Bool.and_false, Bool.or_false, Bool.not_false,
          Bool.and_true] at hready
        obtain ⟨har', hroom⟩ := (Bool.and_eq_true _ _).mp hready
        exact ⟨hport, rfl, hoffer, hslv, by simp [slvQready, har, hready, hwrite], hpayload, hfull,
          by simp [har, SocTrace.isRead, hwrite, hready], by simp [haw, SocTrace.isWrite, hwrite],
          fun _ => by simpa using hroom, fun h => by simp [SocTrace.isWrite, hwrite] at h⟩
      · rw [hwrite, Bool.not_true, Bool.and_false, Bool.and_false, Bool.false_or,
          Bool.and_true] at hready
        obtain ⟨haw', hroom⟩ := (Bool.and_eq_true _ _).mp hready
        exact ⟨hport, rfl, hoffer, hslv, by simp [slvQready, haw, hready, hwrite], hpayload, hfull,
          by simp [har, SocTrace.isRead, hwrite], by simp [haw, SocTrace.isWrite, hwrite, hready],
          fun h => by simp [SocTrace.isRead, hwrite] at h, fun _ => by simpa using hroom⟩

theorem issue_of_not_ready (hready : s.slvQready i = false) : s.issue i = none := by
  rw [SocState.issue, hready]
  rfl

/-- A cycle hands over one request or none. -/
theorem issue_cases (h : Beyond i) :
    (s.issue i = none ∧ s.slvQready i = false) ∨ ∃ x, s.issue i = some x ∧ s.Hands i x := by
  cases hready : s.slvQready i
  · exact .inl ⟨issue_of_not_ready hready, rfl⟩
  · exact .inr (hands_of_ready h hready)

theorem takenRead_eq (h : Beyond i) : s.takenRead i = (s.issue i).any SocTrace.isRead := by
  rcases issue_cases (s := s) h with ⟨hissue, hready⟩ | ⟨x, hissue, hands⟩
  · rw [hissue, takenRead, taken, hready]
    rfl
  · rw [hissue, takenRead, taken, hands.ready, if_pos rfl, hands.slvQ]
    rfl

theorem takenWrite_eq (h : Beyond i) : s.takenWrite i = (s.issue i).any SocTrace.isWrite := by
  rcases issue_cases (s := s) h with ⟨hissue, hready⟩ | ⟨x, hissue, hands⟩
  · rw [hissue, takenWrite, taken, hready]
    rfl
  · rw [hissue, takenWrite, taken, hands.ready, if_pos rfl, hands.slvQ]
    rfl

/-- What a FIFO is pushed, from what it remembers of a request. -/
theorem push_view {α : Type} (h : Beyond i) (P : Nat × DataReq → Bool)
    {g : Nat × DataReq → Option α} {cond : Bool} {d : α}
    (hg : ∀ x, s.Hands i x → g x = if cond then some d else none) :
    ((s.issue i).filter P).bind g = if (s.issue i).any P && cond then some d else none := by
  rcases issue_cases (s := s) h with ⟨hissue, -⟩ | ⟨x, hissue, hands⟩
  · rw [hissue]
    rfl
  · rw [hissue, Option.any_some]
    cases hP : P x
    · rw [Option.filter_some, if_neg (Bool.eq_false_iff.mp hP)]
      rfl
    · rw [Option.filter_some, if_pos hP, Option.bind_some, hg x hands, Bool.true_and]

theorem Hands.respRoom {x : Nat × DataReq} (hands : s.Hands i x) (hports : p.numPorts ≠ 1) :
    (SocTrace.isRead x = true → z.resp.ready s.rResp = true) ∧
      (SocTrace.isWrite x = true → z.resp.ready s.wResp = true) := by
  have hfull := hands.full
  have hsoc : socQ i (s.idx i) = some x.2 := by
    have hslv := hands.slvQ
    rwa [SocState.slvQ, hfull] at hslv
  rw [SocState.full, if_neg hports, hsoc] at hfull
  rw [SocTrace.isRead, SocTrace.isWrite]
  cases hwrite : x.2.write
  · simpa [hwrite] using hfull
  · simpa [hwrite] using hfull

end SocState

namespace SocTrace

variable {p : SocTile} {z : SocCells p} {t : SocTrace z} {i : SocIn p}

/-! ## The queues behind the FIFOs -/

/-- The id of a request, for the FIFOs of the core it is from. -/
def idOf (core : Nat) (x : Nat × DataReq) : Option Nat := if x.1 = core then some x.2.id else none

def readAnswer (x : Nat × DataReq) (beat : AxiR p.laneBits) : SocResp where
  core := x.1
  id := x.2.id
  data := beat.word x.2.addr
  write := false
  error := respError beat.resp

/-- What a response to a write says; its data say nothing. -/
def writeAnswer (x : Nat × DataReq) (resp : BitVec 2) : Nat × Nat × Bool :=
  (x.1, x.2.id, respError resp)

def readAnswers (t : SocTrace z) : List SocResp := t.resps.filter fun x => !x.write

def writeAnswers (t : SocTrace z) : List (Nat × Nat × Bool) :=
  (t.resps.filter SocResp.write).map fun x => (x.core, x.id, x.error)

structure Inv (t : SocTrace z) : Prop where
  metaRead : ∀ core, z.metaId.Views (idOf core) (t.state.metaRead core) t.openReads
  metaWrite : ∀ core, z.metaId.Views (idOf core) (t.state.metaWrite core) t.openWrites
  rResp : p.numPorts ≠ 1 → z.resp.Views (fun x => some x.1) t.state.rResp t.openReads
  wResp : p.numPorts ≠ 1 → z.resp.Views (fun x => some x.1) t.state.wResp t.openWrites
  wData : z.wData.Views (fun x => some (x.2.writeExt p.laneBits)) t.state.wData t.unsent
  rShift : p.laneBits ≠ 0 →
    z.rShift.Views (fun x => some (x.2.shift p.laneBits)) t.state.rShift t.openReads
  offered : ∀ x ∈ t.issued, x.1 < p.numPorts ∧ p.NonL1 x.2.addr ∧
    (x.2.write = true → x.2.amo = .none)
  ar : t.ar = t.reads.map fun x => x.2.axiAr
  aw : t.aw = t.writes.map fun x => x.2.axiAw
  w_le : t.w.length ≤ t.writes.length
  w : t.w = (t.writes.take t.w.length).map fun x => (x.2.writeExt p.laneBits).beat p.laneBits
  r_le : t.r.length ≤ t.reads.length
  b_le : t.b.length ≤ t.writes.length
  readAnswers : t.readAnswers = List.zipWith readAnswer t.reads t.r
  writeAnswers : t.writeAnswers = List.zipWith writeAnswer t.writes t.b
  balance : ∀ core, t.issued.countP (fun x => x.1 == core) =
    t.resps.countP (fun x => x.core == core) +
      (t.openReads.countP (fun x => x.1 == core) + t.openWrites.countP fun x => x.1 == core)

theorem inv_initial (z : SocCells p) : (initial z).Inv where
  metaRead _ := StreamFifo.Views.reset
  metaWrite _ := StreamFifo.Views.reset
  rResp _ := StreamFifo.Views.reset
  wResp _ := StreamFifo.Views.reset
  wData := StreamFifo.Views.reset
  rShift _ := StreamFifo.Views.reset
  offered _ hx := nomatch hx
  ar := rfl
  aw := rfl
  w_le := Nat.le_refl _
  w := rfl
  r_le := Nat.le_refl _
  b_le := Nat.le_refl _
  readAnswers := rfl
  writeAnswers := rfl
  balance _ := rfl

theorem length_filterMap_idOf (core : Nat) (l : List (Nat × DataReq)) :
    (l.filterMap (idOf core)).length = l.countP fun x => x.1 == core := by
  induction l with
  | nil => rfl
  | cons x l ih =>
    rw [List.countP_cons, List.filterMap_cons, idOf]
    by_cases hx : x.1 = core
    · simp [hx, ih]
    · simp [hx, ih]

theorem Inv.inFlight_eq (h : t.Inv) (core : Nat) :
    t.inFlight core =
      t.openReads.countP (fun x => x.1 == core) + t.openWrites.countP fun x => x.1 == core := by
  rw [inFlight, h.balance core, Nat.add_sub_cancel_left]

theorem Allowed.beyond (h : t.Allowed i) : SocState.Beyond i :=
  fun core hcore q hq => (h.offers core hcore q hq).1

/-! ## A cycle's answers -/

theorem shift_single (r : DataReq) {laneBits : Nat} (h : laneBits = 0) : r.shift laneBits = 0 := by
  rw [DataReq.shift, h, slice_zero_width]

/-- The beat on R belongs to the read `x`, and every FIFO says so. -/
structure AnswersRead (s : SocState z) (i : SocIn p) (x : Nat × DataReq) : Prop where
  idx : s.idxRsp i = x.1
  metaId : z.metaId.data (s.metaRead x.1) = x.2.id
  shift : s.readShift = x.2.shift p.laneBits

theorem Inv.openReads_ne (h : t.Inv) (hlt : t.r.length < t.ar.length) :
    t.r.length < t.reads.length := by
  rwa [h.ar, List.length_map] at hlt

theorem Inv.openWrites_ne (h : t.Inv) (hlt : t.b.length < t.aw.length) :
    t.b.length < t.writes.length := by
  rwa [h.aw, List.length_map] at hlt

theorem idxRsp_single {s : SocState z} {x : Nat × DataReq} (hports : p.numPorts = 1)
    (hx : x.1 < p.numPorts) : s.idxRsp i = x.1 := by
  rw [SocState.idxRsp, if_pos hports]
  omega

theorem Inv.answersRead (h : t.Inv) (hi : t.Allowed i) (hvld : i.rValid = true) :
    ∃ x, t.openReads.head? = some x ∧ x ∈ t.issued ∧ AnswersRead t.state i x := by
  have hlt := h.openReads_ne (hi.r hvld)
  refine ⟨t.reads[t.r.length], ?_, ?_, ?_⟩
  · rw [openReads, List.head?_drop, List.getElem?_eq_getElem hlt]
  · exact (List.mem_filter.mp (List.getElem_mem hlt)).1
  · have hhead : t.openReads.head? = some t.reads[t.r.length] := by
      rw [openReads, List.head?_drop, List.getElem?_eq_getElem hlt]
    have hport := (h.offered _ (List.mem_filter.mp (List.getElem_mem hlt)).1).1
    refine ⟨?_, ?_, ?_⟩
    · by_cases hports : p.numPorts = 1
      · exact idxRsp_single hports hport
      · rw [SocState.idxRsp, if_neg hports, SocState.slvPwrite, hvld, Bool.not_true,
          if_neg Bool.false_ne_true]
        exact ((h.rResp hports).head hhead rfl).2
    · exact ((h.metaRead _).head hhead (if_pos rfl)).2
    · by_cases hlane : p.laneBits = 0
      · rw [SocState.readShift, if_pos hlane, shift_single _ hlane]
      · rw [SocState.readShift, if_neg hlane]
        exact ((h.rShift hlane).head hhead rfl).2

/-- The response on B belongs to the write `x`. -/
structure AnswersWrite (s : SocState z) (i : SocIn p) (x : Nat × DataReq) : Prop where
  idx : s.idxRsp i = x.1
  metaId : z.metaId.data (s.metaWrite x.1) = x.2.id

theorem Inv.answersWrite (h : t.Inv) (hi : t.Allowed i) (hr : i.rValid = false)
    (hvld : i.bValid = true) :
    ∃ x, t.openWrites.head? = some x ∧ x ∈ t.issued ∧ AnswersWrite t.state i x := by
  have hlt := h.openWrites_ne (hi.b hvld)
  have hhead : t.openWrites.head? = some t.writes[t.b.length] := by
    rw [openWrites, List.head?_drop, List.getElem?_eq_getElem hlt]
  have hmem := (List.mem_filter.mp (List.getElem_mem hlt)).1
  refine ⟨_, hhead, hmem, ?_, ?_⟩
  · by_cases hports : p.numPorts = 1
    · exact idxRsp_single hports (h.offered _ hmem).1
    · rw [SocState.idxRsp, if_neg hports, SocState.slvPwrite, hr, Bool.not_false, if_pos rfl]
      exact ((h.wResp hports).head hhead rfl).2
  · exact ((h.metaWrite _).head hhead (if_pos rfl)).2

/-! ## The logs -/

theorem reads_next (t : SocTrace z) (i : SocIn p) :
    (t.next i).reads = t.reads ++ ((t.state.issue i).filter isRead).toList := by
  rw [reads, next, List.filter_append, Option.toList_filter]
  rfl

theorem writes_next (t : SocTrace z) (i : SocIn p) :
    (t.next i).writes = t.writes ++ ((t.state.issue i).filter isWrite).toList := by
  rw [writes, next, List.filter_append, Option.toList_filter]
  rfl

theorem length_toggle {α : Type} (l : List α) (c : Bool) (x : α) :
    (l ++ if c then [x] else []).length = l.length + c.toNat := by
  cases c
  · rw [if_neg Bool.false_ne_true, List.append_nil]
    rfl
  · rw [if_pos rfl, List.length_append]
    rfl

theorem answersRead_iff {s : SocState z} : s.answersRead i = true ↔
    i.rValid = true ∧ SocState.socPready i (s.idxRsp i) = true := by
  rw [SocState.answersRead, SocState.answers, SocState.slvPvalid, SocState.slvPwrite]
  cases i.rValid <;> simp

theorem answersWrite_iff {s : SocState z} : s.answersWrite i = true ↔
    i.rValid = false ∧ i.bValid = true ∧ SocState.socPready i (s.idxRsp i) = true := by
  rw [SocState.answersWrite, SocState.answers, SocState.slvPvalid, SocState.slvPwrite]
  cases i.rValid <;> simp

theorem openReads_next (h : t.Inv) (hi : t.Allowed i) :
    (t.next i).openReads =
      queueNext t.openReads (t.state.answersRead i) ((t.state.issue i).filter isRead) := by
  have hr : (t.next i).r.length = t.r.length + (t.state.answersRead i).toNat := length_toggle _ _ _
  rw [openReads, reads_next, hr]
  exact queueNext_drop h.r_le (fun hpop => h.openReads_ne (hi.r (answersRead_iff.mp hpop).1)) _

theorem openWrites_next (h : t.Inv) (hi : t.Allowed i) :
    (t.next i).openWrites =
      queueNext t.openWrites (t.state.answersWrite i) ((t.state.issue i).filter isWrite) := by
  have hb : (t.next i).b.length = t.b.length + (t.state.answersWrite i).toNat := length_toggle _ _ _
  rw [openWrites, writes_next, hb]
  exact queueNext_drop h.b_le (fun hpop => h.openWrites_ne (hi.b (answersWrite_iff.mp hpop).2.1)) _

theorem Inv.unsent_ne (h : t.Inv) (hvld : z.wData.valid t.state.wData = true) :
    t.w.length < t.writes.length := by
  by_contra hge
  have hnil : t.unsent = [] := List.drop_eq_nil_of_le (Nat.le_of_not_lt hge)
  have hcontents : z.wData.contents t.state.wData = [] := by rw [h.wData, hnil]; rfl
  rw [z.wData.valid_eq, hcontents] at hvld
  cases hvld

theorem unsent_next (h : t.Inv) :
    (t.next i).unsent =
      queueNext t.unsent (t.state.sends i) ((t.state.issue i).filter isWrite) := by
  have hw : (t.next i).w.length = t.w.length + (t.state.sends i).toNat := length_toggle _ _ _
  rw [unsent, writes_next, hw]
  exact queueNext_drop h.w_le (fun hpop => h.unsent_ne ((Bool.and_eq_true _ _).mp hpop).1) _

/-! ## The FIFOs in a cycle -/

theorem countP_open_lt (h : t.Inv) (hi : t.Allowed i) {x : Nat × DataReq}
    (hands : t.state.Hands i x) :
    t.openReads.countP (fun y => y.1 == x.1) + t.openWrites.countP (fun y => y.1 == x.1) <
      maxOutStandingTrans := by
  rw [← h.inFlight_eq]
  exact (hi.offers x.1 hands.port x.2 hands.offered).2.2

theorem idOf_of_hands {s : SocState z} {x : Nat × DataReq} (hands : s.Hands i x) (core : Nat) :
    idOf core x = if decide (s.idx i = core) then some (SocState.dataQid i core) else none := by
  rw [idOf, hands.idx]
  by_cases hx : x.1 = core
  · rw [if_pos hx, decide_eq_true hx, if_pos rfl, SocState.dataQid, ← hx, hands.offered]
    rfl
  · rw [if_neg hx, decide_eq_false hx, if_neg Bool.false_ne_true]

theorem exists_hands {s : SocState z} (hbeyond : SocState.Beyond i) {P : Nat × DataReq → Bool}
    (hany : (s.issue i).any P = true) : ∃ x, s.issue i = some x ∧ s.Hands i x ∧ P x = true := by
  rcases SocState.issue_cases (s := s) hbeyond with ⟨hissue, -⟩ | ⟨x, hissue, hands⟩
  · rw [hissue] at hany
    cases hany
  · rw [hissue] at hany
    exact ⟨x, hissue, hands, hany⟩

theorem isSome_idOf (core : Nat) (x : Nat × DataReq) :
    (idOf core x).isSome = decide (x.1 = core) := by
  rw [idOf]
  by_cases hx : x.1 = core
  · rw [if_pos hx, decide_eq_true hx, Option.isSome_some]
  · rw [if_neg hx, decide_eq_false hx, Option.isSome_none]

/-- What leaves the FIFOs of reads belongs to the first open read. -/
theorem Inv.popRead (h : t.Inv) (hi : t.Allowed i) {α : Type} {g : Nat × DataReq → Option α}
    {cond : Bool} (hg : ∀ x, AnswersRead t.state i x → (g x).isSome = cond) :
    (t.state.answersRead i && cond) =
      (t.state.answersRead i && (t.openReads.head?.bind g).isSome) := by
  cases hans : t.state.answersRead i
  · rfl
  · obtain ⟨x, hhead, -, hanswers⟩ := h.answersRead hi (answersRead_iff.mp hans).1
    rw [hhead, Option.bind_some, hg x hanswers]

theorem Inv.popWrite (h : t.Inv) (hi : t.Allowed i) {α : Type} {g : Nat × DataReq → Option α}
    {cond : Bool} (hg : ∀ x, AnswersWrite t.state i x → (g x).isSome = cond) :
    (t.state.answersWrite i && cond) =
      (t.state.answersWrite i && (t.openWrites.head?.bind g).isSome) := by
  cases hans : t.state.answersWrite i
  · rfl
  · obtain ⟨hr, hb, -⟩ := answersWrite_iff.mp hans
    obtain ⟨x, hhead, -, hanswers⟩ := h.answersWrite hi hr hb
    rw [hhead, Option.bind_some, hg x hanswers]

/-- There is room for an id: the core has less than all of its ids in use. -/
theorem Inv.metaRoom (h : t.Inv) (hi : t.Allowed i) {P : Nat × DataReq → Bool} {core : Nat}
    (hpush : ((t.state.issue i).any P && decide (t.state.idx i = core)) = true) :
    (t.openReads.filterMap (idOf core)).length < maxOutStandingTrans ∧
      (t.openWrites.filterMap (idOf core)).length < maxOutStandingTrans := by
  obtain ⟨hany, hidx⟩ := (Bool.and_eq_true _ _).mp hpush
  obtain ⟨x, -, hands, -⟩ := exists_hands hi.beyond hany
  have hcore : x.1 = core := hands.idx.symm.trans (of_decide_eq_true hidx)
  have hlt := countP_open_lt h hi hands
  rw [length_filterMap_idOf, length_filterMap_idOf, ← hcore]
  omega

theorem Inv.rRespRoom (h : t.Inv) (hi : t.Allowed i) (hports : p.numPorts ≠ 1)
    (hpush : (t.state.issue i).any isRead = true) :
    (t.openReads.filterMap fun x => some x.1).length < respDepth := by
  obtain ⟨x, -, hands, hread⟩ := exists_hands hi.beyond hpush
  have hready := (hands.respRoom hports).1 hread
  rw [(h.rResp hports).ready] at hready
  exact of_decide_eq_true hready

theorem Inv.wRespRoom (h : t.Inv) (hi : t.Allowed i) (hports : p.numPorts ≠ 1)
    (hpush : (t.state.issue i).any isWrite = true) :
    (t.openWrites.filterMap fun x => some x.1).length < respDepth := by
  obtain ⟨x, -, hands, hwrite⟩ := exists_hands hi.beyond hpush
  have hready := (hands.respRoom hports).2 hwrite
  rw [(h.wResp hports).ready] at hready
  exact of_decide_eq_true hready

theorem Inv.wDataRoom (h : t.Inv) (hi : t.Allowed i)
    (hpush : (t.state.issue i).any isWrite = true) :
    (t.unsent.filterMap fun x => some (x.2.writeExt p.laneBits)).length < writeFIFODepth := by
  obtain ⟨x, -, hands, hwrite⟩ := exists_hands hi.beyond hpush
  have hready := hands.writeRoom hwrite
  rw [SocState.writeFull, h.wData.ready] at hready
  simpa using hready

theorem Inv.rShiftRoom (h : t.Inv) (hi : t.Allowed i) (hlane : p.laneBits ≠ 0)
    (hpush : (t.state.issue i).any isRead = true) :
    (t.openReads.filterMap fun x => some (x.2.shift p.laneBits)).length < readFIFODepth := by
  obtain ⟨x, -, hands, hread⟩ := exists_hands hi.beyond hpush
  have hready := hands.readRoom hread
  rw [SocState.readFull, (h.rShift hlane).ready] at hready
  simpa [hlane] using hready

/-- No FIFO on the path is pushed when full or popped when empty. -/
structure InBounds (t : SocTrace z) (i : SocIn p) : Prop where
  metaRead : ∀ core, z.metaId.InBounds (t.state.metaRead core)
    (t.state.takenRead i && t.state.idx i = core) (t.state.answersRead i && t.state.idxRsp i = core)
  metaWrite : ∀ core, z.metaId.InBounds (t.state.metaWrite core)
    (t.state.takenWrite i && t.state.idx i = core)
    (t.state.answersWrite i && t.state.idxRsp i = core)
  rResp : p.numPorts ≠ 1 →
    z.resp.InBounds t.state.rResp (t.state.takenRead i) (t.state.answersRead i)
  wResp : p.numPorts ≠ 1 →
    z.resp.InBounds t.state.wResp (t.state.takenWrite i) (t.state.answersWrite i)
  wData : z.wData.InBounds t.state.wData (t.state.takenWrite i) (t.state.sends i)
  rShift : p.laneBits ≠ 0 →
    z.rShift.InBounds t.state.rShift (t.state.takenRead i) (t.state.answersRead i)

theorem Inv.inBounds (h : t.Inv) (hi : t.Allowed i) : t.InBounds i := by
  have hbeyond := hi.beyond
  have hheadRead : t.state.answersRead i = true → ∀ {α : Type} {g : Nat × DataReq → α},
      (t.openReads.head?.bind fun x => some (g x)).isSome := fun hans α g => by
    obtain ⟨x, hhead, -⟩ := h.answersRead hi (answersRead_iff.mp hans).1
    rw [hhead]
    rfl
  have hheadWrite : t.state.answersWrite i = true → ∀ {α : Type} {g : Nat × DataReq → α},
      (t.openWrites.head?.bind fun x => some (g x)).isSome := fun hans α g => by
    obtain ⟨hr, hb, -⟩ := answersWrite_iff.mp hans
    obtain ⟨x, hhead, -⟩ := h.answersWrite hi hr hb
    rw [hhead]
    rfl
  constructor
  · intro core
    rw [SocState.takenRead_eq hbeyond]
    refine (h.metaRead core).inBounds (fun hpush => (h.metaRoom hi hpush).1) fun hpop => ?_
    rw [h.popRead hi fun x hx => (isSome_idOf core x).trans (by rw [hx.idx])] at hpop
    exact ((Bool.and_eq_true _ _).mp hpop).2
  · intro core
    rw [SocState.takenWrite_eq hbeyond]
    refine (h.metaWrite core).inBounds (fun hpush => (h.metaRoom hi hpush).2) fun hpop => ?_
    rw [h.popWrite hi fun x hx => (isSome_idOf core x).trans (by rw [hx.idx])] at hpop
    exact ((Bool.and_eq_true _ _).mp hpop).2
  · intro hports
    rw [SocState.takenRead_eq hbeyond]
    exact (h.rResp hports).inBounds (h.rRespRoom hi hports) fun hpop => hheadRead hpop
  · intro hports
    rw [SocState.takenWrite_eq hbeyond]
    exact (h.wResp hports).inBounds (h.wRespRoom hi hports) fun hpop => hheadWrite hpop
  · rw [SocState.takenWrite_eq hbeyond]
    refine ⟨fun hpush => ?_, fun hpop => ((Bool.and_eq_true _ _).mp hpop).1⟩
    rw [h.wData.ready]
    exact decide_eq_true (h.wDataRoom hi hpush)
  · intro hlane
    rw [SocState.takenRead_eq hbeyond]
    exact (h.rShift hlane).inBounds (h.rShiftRoom hi hlane) fun hpop => hheadRead hpop

/-! ## One cycle -/

theorem Inv.metaRead_next (h : t.Inv) (hi : t.Allowed i) (core : Nat) :
    z.metaId.Views (idOf core) ((t.next i).state.metaRead core) (t.next i).openReads := by
  have hbeyond := hi.beyond
  rw [openReads_next h hi]
  refine (h.metaRead core).next ?_ ?_ ?_
  · rw [SocState.takenRead_eq hbeyond]
    exact SocState.push_view hbeyond isRead fun x hands => idOf_of_hands hands core
  · exact h.popRead hi fun x hx => (isSome_idOf core x).trans (by rw [hx.idx])
  · rw [SocState.takenRead_eq hbeyond]
    exact fun hpush => (h.metaRoom hi hpush).1

theorem Inv.metaWrite_next (h : t.Inv) (hi : t.Allowed i) (core : Nat) :
    z.metaId.Views (idOf core) ((t.next i).state.metaWrite core) (t.next i).openWrites := by
  have hbeyond := hi.beyond
  rw [openWrites_next h hi]
  refine (h.metaWrite core).next ?_ ?_ ?_
  · rw [SocState.takenWrite_eq hbeyond]
    exact SocState.push_view hbeyond isWrite fun x hands => idOf_of_hands hands core
  · exact h.popWrite hi fun x hx => (isSome_idOf core x).trans (by rw [hx.idx])
  · rw [SocState.takenWrite_eq hbeyond]
    exact fun hpush => (h.metaRoom hi hpush).2

/-- A FIFO that every request of a kind enters. -/
theorem push_all {s : SocState z} (hbeyond : SocState.Beyond i) (P : Nat × DataReq → Bool)
    {α : Type} {g : Nat × DataReq → α} {d : α} (hg : ∀ x, s.Hands i x → g x = d) :
    ((s.issue i).filter P).bind (fun x => some (g x)) =
      if (s.issue i).any P then some d else none := by
  have hview : ((s.issue i).filter P).bind (fun x => some (g x)) =
      if (s.issue i).any P && true then some d else none :=
    SocState.push_view hbeyond P fun x hands => by rw [hg x hands, if_pos rfl]
  rwa [Bool.and_true] at hview

theorem Inv.popAllReads (h : t.Inv) (hi : t.Allowed i) {α : Type} (g : Nat × DataReq → α) :
    t.state.answersRead i =
      (t.state.answersRead i && (t.openReads.head?.bind fun x => some (g x)).isSome) := by
  have hpop : (t.state.answersRead i && true) =
      (t.state.answersRead i && (t.openReads.head?.bind fun x => some (g x)).isSome) :=
    h.popRead hi fun _ _ => rfl
  rwa [Bool.and_true] at hpop

theorem Inv.popAllWrites (h : t.Inv) (hi : t.Allowed i) {α : Type} (g : Nat × DataReq → α) :
    t.state.answersWrite i =
      (t.state.answersWrite i && (t.openWrites.head?.bind fun x => some (g x)).isSome) := by
  have hpop : (t.state.answersWrite i && true) =
      (t.state.answersWrite i && (t.openWrites.head?.bind fun x => some (g x)).isSome) :=
    h.popWrite hi fun _ _ => rfl
  rwa [Bool.and_true] at hpop

theorem Inv.rResp_next (h : t.Inv) (hi : t.Allowed i) (hports : p.numPorts ≠ 1) :
    z.resp.Views (fun x => some x.1) (t.next i).state.rResp (t.next i).openReads := by
  have hbeyond := hi.beyond
  have hstate : (t.next i).state.rResp = z.resp.next t.state.rResp (t.state.takenRead i)
    (t.state.idx i) (t.state.answersRead i) := if_neg hports
  rw [openReads_next h hi, hstate, SocState.takenRead_eq hbeyond]
  exact (h.rResp hports).next (push_all hbeyond isRead fun x hands => hands.idx.symm)
    (h.popAllReads hi _) (h.rRespRoom hi hports)

theorem Inv.wResp_next (h : t.Inv) (hi : t.Allowed i) (hports : p.numPorts ≠ 1) :
    z.resp.Views (fun x => some x.1) (t.next i).state.wResp (t.next i).openWrites := by
  have hbeyond := hi.beyond
  have hstate : (t.next i).state.wResp = z.resp.next t.state.wResp (t.state.takenWrite i)
    (t.state.idx i) (t.state.answersWrite i) := if_neg hports
  rw [openWrites_next h hi, hstate, SocState.takenWrite_eq hbeyond]
  exact (h.wResp hports).next (push_all hbeyond isWrite fun x hands => hands.idx.symm)
    (h.popAllWrites hi _) (h.wRespRoom hi hports)

theorem Inv.rShift_next (h : t.Inv) (hi : t.Allowed i) (hlane : p.laneBits ≠ 0) :
    z.rShift.Views (fun x => some (x.2.shift p.laneBits)) (t.next i).state.rShift
      (t.next i).openReads := by
  have hbeyond := hi.beyond
  have hstate : (t.next i).state.rShift = z.rShift.next t.state.rShift (t.state.takenRead i)
    ((t.state.slvPayload i).shift p.laneBits) (t.state.answersRead i) := if_neg hlane
  rw [openReads_next h hi, hstate, SocState.takenRead_eq hbeyond]
  exact (h.rShift hlane).next (push_all hbeyond isRead fun x hands => by rw [hands.payload])
    (h.popAllReads hi _) (h.rShiftRoom hi hlane)

theorem head_unsent (hlt : t.w.length < t.writes.length) :
    t.unsent.head? = some t.writes[t.w.length] := by
  rw [unsent, List.head?_drop, List.getElem?_eq_getElem hlt]

theorem Inv.wData_next (h : t.Inv) (hi : t.Allowed i) :
    z.wData.Views (fun x => some (x.2.writeExt p.laneBits)) (t.next i).state.wData
      (t.next i).unsent := by
  have hbeyond := hi.beyond
  have hstate : (t.next i).state.wData = z.wData.next t.state.wData (t.state.takenWrite i)
    ((t.state.slvPayload i).writeExt p.laneBits) (t.state.sends i) := rfl
  rw [unsent_next h, hstate, SocState.takenWrite_eq hbeyond]
  refine h.wData.next (push_all hbeyond isWrite fun x hands => by rw [hands.payload]) ?_
    (h.wDataRoom hi)
  cases hsends : t.state.sends i
  · rfl
  · rw [head_unsent (h.unsent_ne ((Bool.and_eq_true _ _).mp hsends).1)]
    rfl

/-! ### The logs -/

theorem Inv.ar_next (h : t.Inv) (hi : t.Allowed i) :
    (t.next i).ar = (t.next i).reads.map fun x => x.2.axiAr := by
  rw [reads_next, List.map_append, ← h.ar, next]
  rcases SocState.issue_cases (s := t.state) hi.beyond with ⟨hissue, hready⟩ | ⟨x, hissue, hands⟩
  · have har : (i.arReady && t.state.arValid i) = false := by
      rw [SocState.slvQready, Bool.or_eq_false_iff] at hready
      exact hready.1
    rw [har, hissue]
    rfl
  · rw [hands.ar, hands.slvQ, hissue, Option.filter_some]
    cases isRead x <;> rfl

theorem Inv.aw_next (h : t.Inv) (hi : t.Allowed i) :
    (t.next i).aw = (t.next i).writes.map fun x => x.2.axiAw := by
  rw [writes_next, List.map_append, ← h.aw, next]
  rcases SocState.issue_cases (s := t.state) hi.beyond with ⟨hissue, hready⟩ | ⟨x, hissue, hands⟩
  · have haw : (i.awReady && t.state.awValid i) = false := by
      rw [SocState.slvQready, Bool.or_eq_false_iff] at hready
      exact hready.2
    rw [haw, hissue]
    rfl
  · rw [hands.aw, hands.slvQ, hissue, Option.filter_some]
    cases isWrite x <;> rfl

theorem Inv.w_next (h : t.Inv) :
    (t.next i).w.length ≤ (t.next i).writes.length ∧
      (t.next i).w = ((t.next i).writes.take (t.next i).w.length).map fun x =>
        (x.2.writeExt p.laneBits).beat p.laneBits := by
  have hw : (t.next i).w.length = t.w.length + (t.state.sends i).toNat := length_toggle _ _ _
  have hle : (t.next i).w.length ≤ t.writes.length := by
    rw [hw]
    cases hsends : t.state.sends i
    · exact h.w_le
    · exact h.unsent_ne ((Bool.and_eq_true _ _).mp hsends).1
  rw [writes_next, List.take_append_of_le_length hle]
  refine ⟨by rw [List.length_append]; omega, ?_⟩
  rw [hw]
  cases hsends : t.state.sends i
  · rw [next, hsends, if_neg Bool.false_ne_true, List.append_nil]
    exact h.w
  · have hlt := h.unsent_ne ((Bool.and_eq_true _ _).mp hsends).1
    have hdata := (h.wData.head (head_unsent hlt) rfl).2
    rw [Bool.toNat_true, List.take_add_one, List.getElem?_eq_getElem hlt, Option.toList_some,
      List.map_append, ← h.w, next, hsends, if_pos rfl, SocState.wBeat, hdata]
    rfl

theorem Inv.offered_next (h : t.Inv) (hi : t.Allowed i) :
    ∀ x ∈ (t.next i).issued,
      x.1 < p.numPorts ∧ p.NonL1 x.2.addr ∧ (x.2.write = true → x.2.amo = .none) := by
  intro x hx
  rcases List.mem_append.mp hx with hold | hnew
  · exact h.offered x hold
  · rcases SocState.issue_cases (s := t.state) hi.beyond with ⟨hissue, -⟩ | ⟨y, hissue, hands⟩
    · rw [hissue] at hnew
      cases hnew
    · rw [hissue, Option.toList_some, List.mem_singleton] at hnew
      obtain ⟨hfar, hplain, -⟩ := hi.offers y.1 hands.port y.2 hands.offered
      exact hnew ▸ ⟨hands.port, hfar, hplain⟩

/-! ### The responses -/

theorem Inv.response_read (h : t.Inv) (hi : t.Allowed i) (hans : t.state.answersRead i = true) :
    ∃ x, t.openReads.head? = some x ∧ t.state.response i = readAnswer x i.r := by
  obtain ⟨hvld, -⟩ := answersRead_iff.mp hans
  obtain ⟨x, hhead, -, hx⟩ := h.answersRead hi hvld
  refine ⟨x, hhead, ?_⟩
  rw [SocState.response, SocState.socMetaId, SocState.slvPwrite, hvld, hx.idx, SocState.slvPdata,
    hx.shift, setWidth_shiftRight]
  exact congrArg (fun id => SocResp.mk x.1 id _ false _) hx.metaId

theorem Inv.response_write (h : t.Inv) (hi : t.Allowed i) (hans : t.state.answersWrite i = true) :
    ∃ x, t.openWrites.head? = some x ∧
      ((t.state.response i).core, (t.state.response i).id, (t.state.response i).error) =
        writeAnswer x i.bResp ∧ (t.state.response i).write = true := by
  obtain ⟨hr, hb, -⟩ := answersWrite_iff.mp hans
  obtain ⟨x, hhead, -, hx⟩ := h.answersWrite hi hr hb
  refine ⟨x, hhead, ?_, by rw [SocState.response, SocState.slvPwrite, hr]; rfl⟩
  rw [SocState.response, SocState.socMetaId, SocState.slvPwrite, hr, hx.idx]
  exact congrArg (fun id => (x.1, id, respError i.bResp)) hx.metaId

/-- A cycle answers a read, or a write, or nothing. -/
theorem answers_cases (s : SocState z) (i : SocIn p) :
    (s.answers i = false ∧ s.answersRead i = false ∧ s.answersWrite i = false) ∨
    (s.answers i = true ∧ s.answersRead i = true ∧ s.answersWrite i = false) ∨
    (s.answers i = true ∧ s.answersRead i = false ∧ s.answersWrite i = true) := by
  rw [SocState.answersRead, SocState.answersWrite]
  cases s.answers i <;> cases SocState.slvPwrite i <;> simp

theorem readAnswers_append (t : SocTrace z) (i : SocIn p) :
    (t.next i).readAnswers = t.readAnswers ++
      (if t.state.answers i then [t.state.response i] else []).filter fun x => !x.write :=
  List.filter_append ..

theorem writeAnswers_append (t : SocTrace z) (i : SocIn p) :
    (t.next i).writeAnswers = t.writeAnswers ++
      ((if t.state.answers i then [t.state.response i] else []).filter SocResp.write).map
        fun x => (x.core, x.id, x.error) := by
  rw [writeAnswers, next, List.filter_append, List.map_append]
  rfl

theorem Inv.r_le_next (h : t.Inv) (hi : t.Allowed i) : (t.next i).r.length ≤ t.reads.length := by
  have hr : (t.next i).r.length = t.r.length + (t.state.answersRead i).toNat := length_toggle _ _ _
  rw [hr]
  cases hans : t.state.answersRead i
  · exact h.r_le
  · exact h.openReads_ne (hi.r (answersRead_iff.mp hans).1)

theorem Inv.b_le_next (h : t.Inv) (hi : t.Allowed i) : (t.next i).b.length ≤ t.writes.length := by
  have hb : (t.next i).b.length = t.b.length + (t.state.answersWrite i).toNat := length_toggle _ _ _
  rw [hb]
  cases hans : t.state.answersWrite i
  · exact h.b_le
  · exact h.openWrites_ne (hi.b (answersWrite_iff.mp hans).2.1)

theorem Inv.readAnswers_next (h : t.Inv) (hi : t.Allowed i) :
    (t.next i).readAnswers = List.zipWith readAnswer (t.next i).reads (t.next i).r := by
  have hr : (t.next i).r = t.r ++ if t.state.answersRead i then [i.r] else [] := rfl
  rw [reads_next, zipWith_append_of_le _ _ (h.r_le_next hi), readAnswers_append, hr, h.readAnswers]
  rcases answers_cases t.state i with ⟨hans, hread, -⟩ | ⟨hans, hread, -⟩ | ⟨hans, hread, hwrite⟩
  · rw [hans, hread]
    simp
  · obtain ⟨x, hhead, hresp⟩ := h.response_read hi hread
    rw [hans, hread, hresp, if_pos rfl, if_pos rfl, zipWith_concat _ hhead]
    rfl
  · obtain ⟨x, -, -, hresp⟩ := h.response_write hi hwrite
    rw [hans, hread, if_pos rfl, if_neg Bool.false_ne_true, List.append_nil,
      List.filter_cons_of_neg (by rw [hresp]; exact Bool.false_ne_true), List.filter_nil,
      List.append_nil]

theorem Inv.writeAnswers_next (h : t.Inv) (hi : t.Allowed i) :
    (t.next i).writeAnswers = List.zipWith writeAnswer (t.next i).writes (t.next i).b := by
  have hb : (t.next i).b = t.b ++ if t.state.answersWrite i then [i.bResp] else [] := rfl
  rw [writes_next, zipWith_append_of_le _ _ (h.b_le_next hi), writeAnswers_append, hb,
    h.writeAnswers]
  rcases answers_cases t.state i with ⟨hans, -, hwrite⟩ | ⟨hans, hread, hwrite⟩ | ⟨hans, -, hwrite⟩
  · rw [hans, hwrite]
    simp
  · obtain ⟨x, -, hresp⟩ := h.response_read hi hread
    rw [hans, hwrite, hresp, if_pos rfl, if_neg Bool.false_ne_true, List.append_nil,
      List.filter_cons_of_neg (by exact Bool.false_ne_true), List.filter_nil, List.map_nil,
      List.append_nil]
  · obtain ⟨x, hhead, heq, hresp⟩ := h.response_write hi hwrite
    rw [hans, hwrite, if_pos rfl, if_pos rfl, zipWith_concat _ hhead,
      List.filter_cons_of_pos hresp, List.filter_nil, List.map_singleton, heq]

theorem countP_issue (f : Nat × DataReq → Bool) (push : Option (Nat × DataReq)) :
    push.toList.countP f =
      (push.filter isRead).toList.countP f + (push.filter isWrite).toList.countP f := by
  cases push with
  | none => rfl
  | some x =>
      rw [Option.filter_some, Option.filter_some, isRead, isWrite]
      cases x.2.write <;> simp

theorem Inv.balance_next (h : t.Inv) (hi : t.Allowed i) (core : Nat) :
    (t.next i).issued.countP (fun x => x.1 == core) =
      (t.next i).resps.countP (fun x => x.core == core) +
        ((t.next i).openReads.countP (fun x => x.1 == core) +
          (t.next i).openWrites.countP fun x => x.1 == core) := by
  have hbalance := h.balance core
  have hissued : (t.next i).issued.countP (fun x => x.1 == core) =
    t.issued.countP (fun x => x.1 == core) +
      (t.state.issue i).toList.countP fun x => x.1 == core := List.countP_append
  have hresps : (t.next i).resps.countP (fun x => x.core == core) =
    t.resps.countP (fun x => x.core == core) +
      (if t.state.answers i then [t.state.response i] else []).countP fun x => x.core == core :=
    List.countP_append
  rw [countP_issue] at hissued
  rw [openReads_next h hi, openWrites_next h hi]
  have hr := countP_queueNext (fun x => x.1 == core) t.openReads (t.state.answersRead i)
    ((t.state.issue i).filter isRead)
  have hw := countP_queueNext (fun x => x.1 == core) t.openWrites (t.state.answersWrite i)
    ((t.state.issue i).filter isWrite)
  rcases answers_cases t.state i with ⟨hans, hread, hwrite⟩ | ⟨hans, hread, hwrite⟩ |
    ⟨hans, hread, hwrite⟩
  · rw [hread] at hr ⊢
    rw [hwrite] at hw ⊢
    rw [hans, if_neg Bool.false_ne_true, List.countP_nil] at hresps
    rw [Bool.false_and, if_neg Bool.false_ne_true] at hr hw
    omega
  · obtain ⟨x, hhead, hresp⟩ := h.response_read hi hread
    have hcore : (readAnswer x i.r).core = x.1 := rfl
    rw [hread] at hr ⊢
    rw [hwrite] at hw ⊢
    rw [hans, if_pos rfl, hresp, List.countP_singleton, hcore] at hresps
    rw [Bool.true_and, hhead, Option.any_some] at hr
    rw [Bool.false_and, if_neg Bool.false_ne_true] at hw
    omega
  · obtain ⟨x, hhead, heq, -⟩ := h.response_write hi hwrite
    have hcore : (t.state.response i).core = x.1 := congrArg Prod.fst heq
    rw [hread] at hr ⊢
    rw [hwrite] at hw ⊢
    rw [hans, if_pos rfl, List.countP_singleton, hcore] at hresps
    rw [Bool.false_and, if_neg Bool.false_ne_true] at hr
    rw [Bool.true_and, hhead, Option.any_some] at hw
    omega

theorem Inv.next (h : t.Inv) (hi : t.Allowed i) : (t.next i).Inv where
  metaRead := h.metaRead_next hi
  metaWrite := h.metaWrite_next hi
  rResp := h.rResp_next hi
  wResp := h.wResp_next hi
  wData := h.wData_next hi
  rShift := h.rShift_next hi
  offered := h.offered_next hi
  ar := h.ar_next hi
  aw := h.aw_next hi
  w_le := h.w_next.1
  w := h.w_next.2
  r_le := by
    rw [reads_next, List.length_append]
    exact Nat.le_add_right_of_le (h.r_le_next hi)
  b_le := by
    rw [writes_next, List.length_append]
    exact Nat.le_add_right_of_le (h.b_le_next hi)
  readAnswers := h.readAnswers_next hi
  writeAnswers := h.writeAnswers_next hi
  balance := h.balance_next hi

end SocTrace

end TeraNoC.Hw
