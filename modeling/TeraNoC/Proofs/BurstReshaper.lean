import TeraNoC.Dma.BurstReshaper
import TeraNoC.Lib.Progress
import TeraNoC.Proofs.SplitMidend

/-!
# The bursts of a backend

With reads and writes decoupled, and that is how the frontend asks for every
transfer, the two channels of the reshaper do not look at each other's
addresses: each cuts its own side of a request at the page borders of that side.
So everything is said about one side at a time.

`Cut` is what a burst is: a piece of the request that starts at the request's
start or on a page border and does not go past the next border, rounded out to
whole beats. The invariant of a run says that everything sent so far is such a
piece, and that every byte of a request taken in has been sent or is still ahead
of the channel; when nothing is left to do, every byte has been sent.
-/

namespace TeraNoC.Dma

open TeraNoC.Lib

/-- A power-of-two data width the backend accepts. -/
structure ReshaperConfig extends ReshaperParams where
  width_pow : dataWidth = 8 * 2 ^ clog2 (dataWidth / 8)
  /-- The `$fatal` of the backend. -/
  width_le : dataWidth ≤ 1024

namespace ReshaperConfig

variable (p : ReshaperConfig)

theorem strbWidth_eq : p.strbWidth = 2 ^ p.offsetWidth := by
  have h : p.dataWidth / 8 = 2 ^ clog2 (p.dataWidth / 8) := by
    have hw := p.width_pow
    omega
  exact h

theorem strbWidth_pos : 0 < p.strbWidth := by
  rw [p.strbWidth_eq]
  exact Nat.two_pow_pos _

theorem strbWidth_le : p.strbWidth ≤ 128 := by
  have h := p.width_le
  rw [ReshaperParams.strbWidth]
  omega

theorem pageSize_eq : p.pageSize = 2 ^ p.pageAddrWidth := by
  have h : ∃ k, p.pageSize = 2 ^ k := by
    rw [ReshaperParams.pageSize]
    split
    · exact ⟨12, rfl⟩
    · exact ⟨8 + p.offsetWidth, by rw [p.strbWidth_eq, Nat.pow_add]⟩
  obtain ⟨k, hk⟩ := h
  rw [ReshaperParams.pageAddrWidth, hk, clog2_pow]

theorem pageSize_pos : 0 < p.pageSize := by
  rw [p.pageSize_eq]
  exact Nat.two_pow_pos _

theorem pageSize_le : p.pageSize ≤ 4096 ∧ p.pageSize ≤ 256 * p.strbWidth := by
  rw [ReshaperParams.pageSize]
  split <;> omega

theorem strbWidth_dvd : p.strbWidth ∣ p.pageSize := by
  have h128 := p.strbWidth_le
  rw [ReshaperParams.pageSize]
  split
  · rw [p.strbWidth_eq] at h128 ⊢
    exact Nat.pow_dvd_pow 2 ((Nat.pow_le_pow_iff_right (by omega)).mp
      (Nat.le_trans h128 (show 128 ≤ 2 ^ 12 by decide)))
  · exact Nat.dvd_mul_left _ _

theorem pageSize_dvd : p.pageSize ∣ 2 ^ 12 := by
  have h := p.pageSize_le.1
  rw [p.pageSize_eq] at h ⊢
  exact Nat.pow_dvd_pow 2 ((Nat.pow_le_pow_iff_right (by omega)).mp h)

theorem slice_offset (x : Nat) : slice x 0 p.offsetWidth = x % p.strbWidth := by
  rw [slice, Nat.pow_zero, Nat.div_one, p.strbWidth_eq]

theorem slice_page (x : Nat) : slice x 0 p.pageAddrWidth = x % p.pageSize := by
  rw [slice, Nat.pow_zero, Nat.div_one, p.pageSize_eq]

end ReshaperConfig

/-! ## One side of a transfer -/

/-- The side of a transfer a channel works on. -/
inductive Side where
  | rd
  | wr

def Side.other : Side → Side
  | .rd => .wr
  | .wr => .rd

namespace DmaReq

variable (req : DmaReq)

def addr : Side → BitVec 32
  | .rd => req.src
  | .wr => req.dst

def cache : Side → BitVec 4
  | .rd => req.cacheSrc
  | .wr => req.cacheDst

def burst : Side → BitVec 2
  | .rd => req.burstSrc
  | .wr => req.burstDst

/-- The channel of a request of which `off` bytes are done. -/
def chan (side : Side) (off : Nat) : BurstChan where
  id := req.id
  addr := req.addr side + BitVec.ofNat 32 off
  numBytes := BitVec.ofNat 32 (req.numBytes.toNat - off)
  cache := req.cache side
  burst := req.burst side
  valid := true

/-- A request as the frontend makes it: decoupled incrementing bursts. -/
structure Decoupled : Prop where
  decouple : req.decoupleRw = true
  burstMode : req.deburst = false
  incr : ∀ side, req.burst side = burstIncr

/-- The bytes of one side lie below the end of the address space. -/
def NoWrap (side : Side) : Prop := (req.addr side).toNat + req.numBytes.toNat ≤ 2 ^ 32

end DmaReq

def BurstState.chan (q : BurstState) : Side → BurstChan
  | .rd => q.src
  | .wr => q.dst

def ReshapeRun.axs (r : ReshapeRun) : Side → List AxDesc
  | .rd => r.reads
  | .wr => r.writes

/-- A data mover that takes every burst. -/
def Mover.eager : Mover where
  valid := true
  rReady := true
  wReady := true

def Mover.ready (m : Mover) : Side → Bool
  | .rd => m.rReady
  | .wr => m.wReady

/-- A burst that moves the bytes `[off, off + len)` of a side of a request: it
starts where the request does or on a page border, stays inside the page, and
is made of the beats that hold these bytes. -/
structure Cut (p : ReshaperParams) (req : DmaReq) (side : Side) (ax : AxDesc)
    (off len : Nat) : Prop where
  nonempty : 1 ≤ len
  inside : off + len ≤ req.numBytes.toNat
  starts : off = 0 ∨ p.pageSize ∣ (req.addr side).toNat + off
  page : ((req.addr side).toNat + off) % p.pageSize + len ≤ p.pageSize
  addr : ax.addr.toNat =
    (req.addr side).toNat + off - ((req.addr side).toNat + off) % p.strbWidth
  beats : ax.len.toNat =
    (((req.addr side).toNat + off) % p.strbWidth + len - 1) / p.strbWidth

/-! ## One transaction -/

/-- The transaction of a channel that looks at its own page only. -/
def ReshaperParams.ownPage (p : ReshaperParams) (ch : BurstChan) : AxDesc × BurstChan :=
  p.transaction ch (p.numBytesToPb false ch.addr)

section Transaction

variable {p : ReshaperConfig} {req : DmaReq} {side : Side}

theorem transaction_idle {ch : BurstChan} (h : ch.numBytes = 0) (k : Nat) :
    (p.transaction ch k).1.last = true ∧ (p.transaction ch k).2 = .zero := by
  have h0 : ¬ch.numBytes.toNat > k := by rw [h]; exact Nat.not_lt_zero _
  rw [ReshaperParams.transaction, if_neg h0]
  exact ⟨rfl, rfl⟩

variable {off : Nat} (hoff : off < req.numBytes.toNat) (hwrap : req.NoWrap side)
include hoff hwrap

theorem toNat_chan_addr :
    (req.chan side off).addr.toNat = (req.addr side).toNat + off := by
  have h : (req.addr side).toNat + req.numBytes.toNat ≤ 2 ^ 32 := hwrap
  rw [DmaReq.chan, BitVec.toNat_add, BitVec.toNat_ofNat, Nat.add_mod_mod,
    Nat.mod_eq_of_lt (by omega)]

omit hwrap in
theorem toNat_chan_numBytes :
    (req.chan side off).numBytes.toNat = req.numBytes.toNat - off := by
  have h := req.numBytes.isLt
  rw [DmaReq.chan, BitVec.toNat_ofNat, Nat.mod_eq_of_lt (by omega)]

/-- The AX beat for a part of the page the channel has reached. -/
theorem cut_axReq {len : Nat} (hlen : 1 ≤ len) (hin : off + len ≤ req.numBytes.toNat)
    (hstart : off = 0 ∨ p.pageSize ∣ (req.addr side).toNat + off)
    (hpage : ((req.addr side).toNat + off) % p.pageSize + len ≤ p.pageSize)
    (finish : Bool) :
    Cut p.toReshaperParams req side (p.axReq (req.chan side off) len finish) off len := by
  have haddr := toNat_chan_addr hoff hwrap
  have hlt : (req.addr side).toNat + req.numBytes.toNat ≤ 2 ^ 32 := hwrap
  have hstrb := p.strbWidth_pos
  have hpl := p.pageSize_le
  have hmod : ((req.addr side).toNat + off) % p.pageSize % p.strbWidth =
      ((req.addr side).toNat + off) % p.strbWidth := Nat.mod_mod_of_dvd _ p.strbWidth_dvd
  refine ⟨hlen, hin, hstart, hpage, ?_, ?_⟩
  · show (BitVec.ofNat 32 _).toNat = _
    rw [haddr, p.slice_offset, BitVec.toNat_ofNat, Nat.mod_eq_of_lt (by omega)]
  · show (BitVec.ofNat 8 _).toNat = _
    rw [haddr, p.slice_offset, BitVec.toNat_ofNat, ← p.strbWidth_eq]
    have hle := Nat.mod_le (((req.addr side).toNat + off) % p.pageSize) p.strbWidth
    rw [hmod] at hle
    have hsub : (len + ((req.addr side).toNat + off) % p.strbWidth + 2 ^ 32 - 1) % 2 ^ 32 =
        ((req.addr side).toNat + off) % p.strbWidth + len - 1 := by
      rw [show len + ((req.addr side).toNat + off) % p.strbWidth + 2 ^ 32 - 1 =
        ((req.addr side).toNat + off) % p.strbWidth + len - 1 + 2 ^ 32 by omega,
        Nat.add_mod_right, Nat.mod_eq_of_lt (by omega)]
    rw [hsub]
    refine Nat.mod_eq_of_lt ?_
    rw [Nat.div_lt_iff_lt_mul hstrb]
    omega

/-- One transaction of a channel that is not done: it sends the rest of the page,
or the rest of the request if that is less. -/
theorem transaction_chan (hdec : req.Decoupled)
    (hstart : off = 0 ∨ p.pageSize ∣ (req.addr side).toNat + off) :
    ∃ len, Cut p.toReshaperParams req side (p.ownPage (req.chan side off)).1 off len ∧
      (((p.ownPage (req.chan side off)).1.last = true ∧ off + len = req.numBytes.toNat ∧
        (p.ownPage (req.chan side off)).2 = .zero) ∨
      ((p.ownPage (req.chan side off)).1.last = false ∧ off + len < req.numBytes.toNat ∧
        p.pageSize ∣ (req.addr side).toNat + (off + len) ∧
        (p.ownPage (req.chan side off)).2 = req.chan side (off + len))) := by
  have hnum := @toNat_chan_numBytes req side off hoff
  have hpos := p.pageSize_pos
  have hmodlt := Nat.mod_lt ((req.addr side).toNat + off) hpos
  have htopb : p.numBytesToPb false (req.chan side off).addr =
      p.pageSize - ((req.addr side).toNat + off) % p.pageSize := by
    rw [ReshaperParams.numBytesToPb, if_neg Bool.false_ne_true,
      toNat_chan_addr hoff hwrap, p.slice_page]
  have h32 := req.numBytes.isLt
  rw [ReshaperParams.ownPage, htopb]
  by_cases hmore : req.numBytes.toNat - off >
      p.pageSize - ((req.addr side).toNat + off) % p.pageSize
  · -- the request goes on past the page
    refine ⟨p.pageSize - ((req.addr side).toNat + off) % p.pageSize, ?_, Or.inr ?_⟩
    · rw [ReshaperParams.transaction, if_pos (by rw [hnum]; exact hmore)]
      exact cut_axReq hoff hwrap (by omega) (by omega) hstart (by omega) _
    · rw [ReshaperParams.transaction, if_pos (by rw [hnum]; exact hmore)]
      refine ⟨rfl, by omega, ?_, ?_⟩
      · refine ⟨((req.addr side).toNat + off) / p.pageSize + 1, ?_⟩
        have hdiv := Nat.div_add_mod ((req.addr side).toNat + off) p.pageSize
        rw [Nat.mul_add, Nat.mul_one]
        omega
      · have hincr : (req.chan side off).burst = burstIncr := hdec.incr side
        simp only [hincr, if_true]
        have hrest : req.numBytes.toNat - off = req.numBytes.toNat -
            (off + (p.pageSize - ((req.addr side).toNat + off) % p.pageSize)) +
            (p.pageSize - ((req.addr side).toNat + off) % p.pageSize) := by omega
        simp only [DmaReq.chan, BurstChan.mk.injEq, and_true, true_and]
        refine ⟨?_, ?_, hincr.symm⟩
        · rw [BitVec.add_assoc, ← BitVec.ofNat_add]
        · rw [hrest, BitVec.ofNat_add, BitVec.add_sub_cancel]
  · -- the last burst
    refine ⟨req.numBytes.toNat - off, ?_, Or.inl ?_⟩
    · rw [ReshaperParams.transaction, if_neg (by rw [hnum]; exact hmore), hnum]
      have hslice : slice (req.numBytes.toNat - off) 0 (p.pageAddrWidth + 1) =
          req.numBytes.toNat - off := by
        refine slice_eq_self ?_
        rw [Nat.pow_succ, ← p.pageSize_eq]
        omega
      rw [hslice]
      exact cut_axReq hoff hwrap (by omega) (by omega) hstart (by omega) _
    · rw [ReshaperParams.transaction, if_neg (by rw [hnum]; exact hmore)]
      exact ⟨rfl, by omega, rfl⟩

end Transaction

/-! ## One cycle -/

/-- A channel with nothing to do. -/
structure BurstChan.Idle (ch : BurstChan) : Prop where
  numBytes : ch.numBytes = 0
  valid : ch.valid = false

theorem BurstChan.idle_zero : BurstChan.zero.Idle := ⟨rfl, rfl⟩

/-- The transaction of a side in a cycle. -/
def BurstState.tx (p : ReshaperParams) (q : BurstState) : Side → AxDesc × BurstChan
  | .rd => p.transaction q.src (if q.decoupleRw then p.numBytesToPb q.deburst q.src.addr
      else if p.numBytesToPb q.deburst q.src.addr > p.numBytesToPb q.deburst q.dst.addr
        then p.numBytesToPb q.deburst q.dst.addr else p.numBytesToPb q.deburst q.src.addr)
  | .wr => p.transaction q.dst (if q.decoupleRw then p.numBytesToPb q.deburst q.dst.addr
      else if p.numBytesToPb q.deburst q.src.addr > p.numBytesToPb q.deburst q.dst.addr
        then p.numBytesToPb q.deburst q.dst.addr else p.numBytesToPb q.deburst q.src.addr)

theorem BurstState.tx_idle {p : ReshaperConfig} {q : BurstState} {side : Side}
    (h : (q.chan side).Idle) :
    (q.tx p.toReshaperParams side).1.last = true ∧ (q.tx p.toReshaperParams side).2 = .zero := by
  cases side
  · exact transaction_idle h.numBytes _
  · exact transaction_idle h.numBytes _

theorem BurstState.tx_decoupled {p : ReshaperParams} {q : BurstState} (side : Side)
    (hdec : q.decoupleRw = true) (hburst : q.deburst = false) :
    q.tx p side = p.ownPage (q.chan side) := by
  cases side
  · rw [tx, hdec, hburst, if_pos rfl]
    rfl
  · rw [tx, hdec, hburst, if_pos rfl]
    rfl

/-- The channel a request is loaded into. -/
def DmaReq.load (req : DmaReq) (side : Side) (valid : Bool) : BurstChan :=
  { req.chan side 0 with
    addr := req.addr side
    numBytes := req.numBytes
    valid := if req.numBytes = 0 then false else valid }

theorem DmaReq.load_of_pos {req : DmaReq} {side : Side} (hn : 0 < req.numBytes.toNat) :
    req.load side true = req.chan side 0 := by
  have h0 : req.numBytes ≠ 0 := by
    intro h
    rw [h] at hn
    exact absurd hn (by decide)
  simp only [load, chan, if_neg h0, Nat.sub_zero, BitVec.ofNat_toNat, BitVec.setWidth_eq]
  rw [BitVec.add_zero]

theorem DmaReq.idle_load {req : DmaReq} {side : Side} (hn : req.numBytes.toNat = 0) :
    (req.load side true).Idle := by
  have h0 : req.numBytes = 0 := BitVec.eq_of_toNat_eq hn
  exact ⟨h0, if_pos h0⟩

namespace ReshapeRun

variable {p : ReshaperParams} {r : ReshapeRun} {m : Mover}

/-- `ready_o`: the next request is taken in. -/
def refill (p : ReshaperParams) (r : ReshapeRun) (m : Mover) : Bool :=
  (r.state.tx p .rd).1.last && (r.state.tx p .wr).1.last &&
    (m.valid && !r.pending.isEmpty) && m.rReady && m.wReady

theorem step_pending (p : ReshaperParams) (r : ReshapeRun) (m : Mover) :
    (r.step p m).pending = if refill p r m then r.pending.tail else r.pending := rfl

theorem step_decoupleRw (p : ReshaperParams) (r : ReshapeRun) (m : Mover) :
    (r.step p m).state.decoupleRw =
      if refill p r m then (r.pending.headD .zero).decoupleRw else r.state.decoupleRw := rfl

theorem step_deburst (p : ReshaperParams) (r : ReshapeRun) (m : Mover) :
    (r.step p m).state.deburst =
      if refill p r m then (r.pending.headD .zero).deburst else r.state.deburst := rfl

theorem step_chan (p : ReshaperParams) (r : ReshapeRun) (m : Mover) (side : Side) :
    (r.step p m).state.chan side =
      if (if (r.step p m).state.decoupleRw then m.ready side
          else m.ready side && m.ready side.other) then
        (if refill p r m then
          (r.pending.headD .zero).load side (m.valid && !r.pending.isEmpty)
        else (r.state.tx p side).2)
      else r.state.chan side := by
  cases side <;> rfl

theorem step_axs (p : ReshaperParams) (r : ReshapeRun) (m : Mover) (side : Side) :
    (r.step p m).axs side =
      if (if r.state.decoupleRw then (r.state.chan side).valid
          else (r.state.chan side).valid && m.ready side.other) && m.ready side then
        r.axs side ++ [(r.state.tx p side).1]
      else r.axs side := by
  cases side <;> rfl

theorem refill_iff : refill p r m = true ↔
    (∀ side, (r.state.tx p side).1.last = true) ∧ m.valid = true ∧ r.pending ≠ [] ∧
      ∀ side, m.ready side = true := by
  have hside : ∀ f : Side → Bool, (∀ side, f side = true) ↔ f .rd = true ∧ f .wr = true := by
    intro f
    constructor
    · exact fun h => ⟨h .rd, h .wr⟩
    · rintro ⟨hr, hw⟩ (_ | _)
      · exact hr
      · exact hw
  rw [hside fun side => (r.state.tx p side).1.last, hside m.ready]
  simp only [refill, Mover.ready, Bool.and_eq_true, Bool.not_eq_true', List.isEmpty_eq_false_iff]
  tauto

/-! ## The invariant -/

/-- What a channel is doing: nothing, or the rest of a request from `off` on. -/
inductive Doing (p : ReshaperParams) (reqs : List DmaReq) (side : Side) (ch : BurstChan) :
    Prop where
  | idle (h : ch.Idle)
  | busy (req : DmaReq) (hmem : req ∈ reqs) (off : Nat) (hoff : off < req.numBytes.toNat)
      (hstart : off = 0 ∨ p.pageSize ∣ (req.addr side).toNat + off)
      (hchan : ch = req.chan side off)

/-- Byte `j` of a request has been sent, or is ahead of the channel. -/
inductive Served (p : ReshaperParams) (req : DmaReq) (side : Side) (j : Nat)
    (axs : List AxDesc) (ch : BurstChan) : Prop where
  | sent (ax : AxDesc) (hmem : ax ∈ axs) (off len : Nat) (hcut : Cut p req side ax off len)
      (hlo : off ≤ j) (hhi : j < off + len)
  | ahead (off : Nat) (hlo : off ≤ j)
      (hstart : off = 0 ∨ p.pageSize ∣ (req.addr side).toNat + off)
      (hchan : ch = req.chan side off)

structure Inv (p : ReshaperParams) (reqs : List DmaReq) (r : ReshapeRun) : Prop where
  pending : ∀ req ∈ r.pending, req ∈ reqs
  mode : r.state.decoupleRw = true ∧ r.state.deburst = false ∨
    ∀ side, (r.state.chan side).Idle
  doing : ∀ side, Doing p reqs side (r.state.chan side)
  sent : ∀ side, ∀ ax ∈ r.axs side, ∃ req ∈ reqs, ∃ off len, Cut p req side ax off len
  served : ∀ req ∈ reqs, req ∈ r.pending ∨ ∀ side, ∀ j < req.numBytes.toNat,
    Served p req side j (r.axs side) (r.state.chan side)

/-- The requests of a backend: decoupled, and inside the address space. -/
structure Accepted (reqs : List DmaReq) : Prop where
  decoupled : ∀ req ∈ reqs, req.Decoupled
  noWrap : ∀ req ∈ reqs, ∀ side, req.NoWrap side

section Step

variable {p : ReshaperConfig} {reqs : List DmaReq} {r : ReshapeRun} {m : Mover}
  (h : Inv p.toReshaperParams reqs r)
include h

/-- Only the decoupled reshaper has a channel that works. -/
theorem Inv.decoupled_of_valid {side : Side} (hv : (r.state.chan side).valid = true) :
    r.state.decoupleRw = true ∧ r.state.deburst = false := by
  rcases h.mode with hmode | hidle
  · exact hmode
  · rw [(hidle side).valid] at hv
    cases hv

theorem Inv.step_axs_eq (side : Side) : (r.step p.toReshaperParams m).axs side =
    if (r.state.chan side).valid && m.ready side then
      r.axs side ++ [(r.state.tx p.toReshaperParams side).1] else r.axs side := by
  rw [step_axs]
  cases hv : (r.state.chan side).valid with
  | false =>
      simp only [Bool.false_and]
      split <;> rfl
  | true =>
      rw [(h.decoupled_of_valid hv).1]
      simp only [if_true]

omit h in
theorem step_of_refill (hacc : Accepted reqs)
    (hpending : ∀ req ∈ r.pending, req ∈ reqs)
    (hrefill : refill p.toReshaperParams r m = true) :
    ∃ req ∈ reqs, r.pending = req :: (r.step p.toReshaperParams m).pending ∧
      (r.step p.toReshaperParams m).state.decoupleRw = true ∧
      (r.step p.toReshaperParams m).state.deburst = false ∧
      ∀ side, (r.step p.toReshaperParams m).state.chan side = req.load side true := by
  obtain ⟨-, hvalid, hne, hready⟩ := refill_iff.mp hrefill
  obtain ⟨req, rest, hpend⟩ := List.exists_cons_of_ne_nil hne
  have hmem : req ∈ reqs := hpending req (by rw [hpend]; exact List.mem_cons_self)
  have hdec : (r.step p.toReshaperParams m).state.decoupleRw = true := by
    rw [step_decoupleRw, hrefill, if_pos rfl, hpend]
    exact (hacc.decoupled req hmem).decouple
  refine ⟨req, hmem, ?_, hdec, ?_, fun side => ?_⟩
  · rw [step_pending, hrefill, if_pos rfl, hpend]
    rfl
  · rw [step_deburst, hrefill, if_pos rfl, hpend]
    exact (hacc.decoupled req hmem).burstMode
  · rw [step_chan, hdec, if_pos rfl, hready side, if_pos rfl, hrefill, if_pos rfl, hvalid, hpend]
    rfl

/-- A channel that works moves when its burst is taken. -/
theorem Inv.step_chan_of_valid {side : Side} (hv : (r.state.chan side).valid = true)
    (hrefill : refill p.toReshaperParams r m = false) :
    (r.step p.toReshaperParams m).state.chan side =
      if m.ready side then (r.state.tx p.toReshaperParams side).2 else r.state.chan side := by
  have hdec : (r.step p.toReshaperParams m).state.decoupleRw = true := by
    rw [step_decoupleRw, hrefill]
    exact (h.decoupled_of_valid hv).1
  rw [step_chan, hdec, if_pos rfl, hrefill, if_neg Bool.false_ne_true]

omit h in
theorem step_chan_of_idle {side : Side} (hidle : (r.state.chan side).Idle)
    (hrefill : refill p.toReshaperParams r m = false) :
    ((r.step p.toReshaperParams m).state.chan side).Idle := by
  rw [step_chan, hrefill, if_neg Bool.false_ne_true, (BurstState.tx_idle hidle).2]
  generalize (if (r.step p.toReshaperParams m).state.decoupleRw = true then m.ready side
    else m.ready side && m.ready side.other) = moves
  cases moves with
  | false => exact hidle
  | true => exact BurstChan.idle_zero

/-- What a working channel does in a cycle that takes its burst. -/
theorem Inv.tx_busy (hacc : Accepted reqs) {side : Side} {req : DmaReq} (hmem : req ∈ reqs)
    {off : Nat} (hoff : off < req.numBytes.toNat)
    (hstart : off = 0 ∨ p.pageSize ∣ (req.addr side).toNat + off)
    (hchan : r.state.chan side = req.chan side off) :
    ∃ len, Cut p.toReshaperParams req side (r.state.tx p.toReshaperParams side).1 off len ∧
      (((r.state.tx p.toReshaperParams side).1.last = true ∧
          off + len = req.numBytes.toNat ∧ (r.state.tx p.toReshaperParams side).2 = .zero) ∨
      ((r.state.tx p.toReshaperParams side).1.last = false ∧
        off + len < req.numBytes.toNat ∧ p.pageSize ∣ (req.addr side).toNat + (off + len) ∧
        (r.state.tx p.toReshaperParams side).2 = req.chan side (off + len))) := by
  have hv : (r.state.chan side).valid = true := by rw [hchan]; rfl
  obtain ⟨hdec, hburst⟩ := h.decoupled_of_valid hv
  rw [BurstState.tx_decoupled side hdec hburst, hchan]
  exact transaction_chan hoff (hacc.noWrap req hmem side) (hacc.decoupled req hmem) hstart

theorem Inv.doing_step (hacc : Accepted reqs) (side : Side) :
    Doing p.toReshaperParams reqs side ((r.step p.toReshaperParams m).state.chan side) := by
  cases hrefill : refill p.toReshaperParams r m with
  | true =>
      obtain ⟨req, hmem, -, -, -, hload⟩ := step_of_refill hacc h.pending hrefill
      rw [hload side]
      rcases Nat.eq_zero_or_pos req.numBytes.toNat with hn | hn
      · exact .idle (DmaReq.idle_load hn)
      · exact .busy req hmem 0 hn (Or.inl rfl) (DmaReq.load_of_pos hn)
  | false =>
      cases h.doing side with
      | idle hidle => exact .idle (step_chan_of_idle hidle hrefill)
      | busy req hmem off hoff hstart hchan =>
          have hv : (r.state.chan side).valid = true := by rw [hchan]; rfl
          rw [h.step_chan_of_valid hv hrefill]
          cases m.ready side with
          | false => exact .busy req hmem off hoff hstart hchan
          | true =>
              obtain ⟨len, -, ⟨-, -, hnext⟩ | ⟨-, hlt, hpage, hnext⟩⟩ :=
                h.tx_busy hacc hmem hoff hstart hchan
              · rw [if_pos rfl, hnext]
                exact .idle BurstChan.idle_zero
              · rw [if_pos rfl, hnext]
                exact .busy req hmem (off + len) hlt (Or.inr hpage) rfl

theorem Inv.sent_step (hacc : Accepted reqs) (side : Side) :
    ∀ ax ∈ (r.step p.toReshaperParams m).axs side,
      ∃ req ∈ reqs, ∃ off len, Cut p.toReshaperParams req side ax off len := by
  intro ax hax
  rw [h.step_axs_eq side] at hax
  split at hax
  next hsend =>
    rcases List.mem_append.mp hax with hold | hnew
    · exact h.sent side ax hold
    · rw [List.mem_singleton.mp hnew]
      rw [Bool.and_eq_true] at hsend
      cases h.doing side with
      | idle hidle =>
          rw [hidle.valid] at hsend
          exact absurd hsend.1 Bool.false_ne_true
      | busy req hmem off hoff hstart hchan =>
          obtain ⟨len, hcut, -⟩ := h.tx_busy hacc hmem hoff hstart hchan
          exact ⟨req, hmem, off, len, hcut⟩
  next => exact h.sent side ax hax

theorem Inv.served_step (hacc : Accepted reqs) {side : Side} {req : DmaReq}
    (hmem : req ∈ reqs) {j : Nat} (hj : j < req.numBytes.toNat)
    (hserved : Served p.toReshaperParams req side j (r.axs side) (r.state.chan side)) :
    Served p.toReshaperParams req side j ((r.step p.toReshaperParams m).axs side)
      ((r.step p.toReshaperParams m).state.chan side) := by
  have haxs := h.step_axs_eq (m := m) side
  cases hserved with
  | sent ax hax off len hcut hlo hhi =>
      refine .sent ax ?_ off len hcut hlo hhi
      rw [haxs]
      split
      · exact List.mem_append_left _ hax
      · exact hax
  | ahead off hlo hstart hchan =>
      have hv : (r.state.chan side).valid = true := by rw [hchan]; rfl
      obtain ⟨len, hcut, hnext⟩ := h.tx_busy hacc hmem (by omega) hstart hchan
      rw [hv, Bool.true_and] at haxs
      cases hready : m.ready side with
      | false =>
          have hrefill : refill p.toReshaperParams r m = false := by
            by_contra hyes
            have := (refill_iff.mp (Bool.not_eq_false _ ▸ hyes)).2.2.2 side
            rw [hready] at this
            cases this
          refine .ahead off hlo hstart ?_
          rw [h.step_chan_of_valid hv hrefill, hready]
          exact hchan
      | true =>
          rw [hready, if_pos rfl] at haxs
          have hsent : j < off + len → Served p.toReshaperParams req side j
              ((r.step p.toReshaperParams m).axs side)
              ((r.step p.toReshaperParams m).state.chan side) := by
            intro hhi
            refine .sent _ ?_ off len hcut hlo hhi
            rw [haxs]
            exact List.mem_append_right _ (List.mem_singleton_self _)
          rcases hnext with ⟨-, hend, -⟩ | ⟨hlast, -, hpage, hnext⟩
          · exact hsent (by omega)
          · rcases Nat.lt_or_ge j (off + len) with hhi | hhi
            · exact hsent hhi
            · -- the page is done and the request is not: the channel goes on
              have hrefill : refill p.toReshaperParams r m = false := by
                by_contra hyes
                have := (refill_iff.mp (Bool.not_eq_false _ ▸ hyes)).1 side
                rw [hlast] at this
                cases this
              refine .ahead (off + len) hhi (Or.inr hpage) ?_
              rw [h.step_chan_of_valid hv hrefill, hready, if_pos rfl, hnext]

theorem Inv.step (hacc : Accepted reqs) :
    Inv p.toReshaperParams reqs (r.step p.toReshaperParams m) := by
  refine ⟨?_, ?_, fun side => h.doing_step hacc side, fun side => h.sent_step hacc side, ?_⟩
  · intro req hreq
    rw [step_pending] at hreq
    split at hreq
    · exact h.pending req (List.mem_of_mem_tail hreq)
    · exact h.pending req hreq
  · cases hrefill : refill p.toReshaperParams r m with
    | true =>
        obtain ⟨req, hmem, -, hdec, hburst, -⟩ := step_of_refill hacc h.pending hrefill
        exact Or.inl ⟨hdec, hburst⟩
    | false =>
        rcases h.mode with ⟨hdec, hburst⟩ | hidle
        · refine Or.inl ⟨?_, ?_⟩
          · rw [step_decoupleRw, hrefill]
            exact hdec
          · rw [step_deburst, hrefill]
            exact hburst
        · exact Or.inr fun side => step_chan_of_idle (hidle side) hrefill
  · intro req hmem
    rcases h.served req hmem with hpend | hserved
    · cases hrefill : refill p.toReshaperParams r m with
      | true =>
          obtain ⟨req', hmem', hcons, -, -, hload⟩ := step_of_refill hacc h.pending hrefill
          rw [hcons] at hpend
          rcases List.mem_cons.mp hpend with rfl | htail
          · refine Or.inr fun side j hj => .ahead 0 (Nat.zero_le j) (Or.inl rfl) ?_
            rw [hload side, DmaReq.load_of_pos (by omega)]
          · exact Or.inl htail
      | false =>
          left
          rw [step_pending, hrefill]
          exact hpend
    · exact Or.inr fun side j hj => h.served_step hacc hmem hj (hserved side j hj)

end Step

theorem inv_after {p : ReshaperConfig} {reqs : List DmaReq} (hacc : Accepted reqs)
    (mover : Nat → Mover) (t : Nat) :
    Inv p.toReshaperParams reqs (after p.toReshaperParams reqs mover t) := by
  induction t with
  | zero =>
      have hidle : ∀ side, (BurstState.reset.chan side).Idle := by
        intro side
        cases side <;> exact BurstChan.idle_zero
      refine ⟨fun _ h => h, Or.inr hidle, fun side => .idle (hidle side), ?_,
        fun req h => Or.inl h⟩
      intro side ax hax
      cases side <;> cases hax
  | succ t ih => exact ih.step hacc

/-! ## Everything is sent

Nothing holds the backend up, so that every cycle has fewer bytes ahead of it.
-/

/-- The bytes ahead: one more for each request that still has to be taken in. -/
def ahead (r : ReshapeRun) : Nat :=
  (r.pending.map fun req => req.numBytes.toNat + 1).sum +
    max (r.state.chan .rd).numBytes.toNat (r.state.chan .wr).numBytes.toNat

section Drain

variable {p : ReshaperConfig} {reqs : List DmaReq} {r : ReshapeRun}

/-- A channel with bytes ahead has fewer after the cycle. -/
theorem Inv.chan_lt (h : Inv p.toReshaperParams reqs r) (hacc : Accepted reqs)
    (hrefill : refill p.toReshaperParams r .eager = false) (side : Side) :
    ((r.step p.toReshaperParams .eager).state.chan side).numBytes.toNat = 0 ∨
      ((r.step p.toReshaperParams .eager).state.chan side).numBytes.toNat <
        (r.state.chan side).numBytes.toNat := by
  cases h.doing side with
  | idle hidle =>
      left
      rw [(step_chan_of_idle hidle hrefill).numBytes]
      rfl
  | busy req hmem off hoff hstart hchan =>
      have hv : (r.state.chan side).valid = true := by rw [hchan]; rfl
      have hready : Mover.eager.ready side = true := by cases side <;> rfl
      rw [h.step_chan_of_valid hv hrefill, hready, if_pos rfl]
      obtain ⟨len, hcut, ⟨-, -, hnext⟩ | ⟨-, hlt, -, hnext⟩⟩ :=
        h.tx_busy hacc hmem hoff hstart hchan
      · left
        rw [hnext]
        rfl
      · right
        have hlen := hcut.nonempty
        rw [hnext, hchan, @toNat_chan_numBytes req side _ hlt,
          @toNat_chan_numBytes req side _ hoff]
        omega

theorem Inv.ahead_lt (h : Inv p.toReshaperParams reqs r) (hacc : Accepted reqs)
    (hpos : 0 < r.ahead) : (r.step p.toReshaperParams .eager).ahead < r.ahead := by
  cases hrefill : refill p.toReshaperParams r .eager with
  | true =>
      obtain ⟨req, -, hcons, -, -, hload⟩ := step_of_refill hacc h.pending hrefill
      have hnum : ∀ side, ((r.step p.toReshaperParams .eager).state.chan side).numBytes =
          req.numBytes := by
        intro side
        rw [hload side]
        rfl
      rw [ahead, ahead, hnum, hnum, hcons, List.map_cons, List.sum_cons]
      omega
  | false =>
      have hrd := h.chan_lt hacc hrefill .rd
      have hwr := h.chan_lt hacc hrefill .wr
      have hpend : (r.step p.toReshaperParams .eager).pending = r.pending := by
        rw [step_pending, hrefill]
        rfl
      rw [ahead] at hpos
      rw [ahead, ahead, hpend]
      rcases Nat.eq_zero_or_pos (max (r.state.chan .rd).numBytes.toNat
        (r.state.chan .wr).numBytes.toNat) with h0 | hmax
      · -- both channels are idle, so a pending request would be taken in
        exfalso
        have hidle : ∀ side, (r.state.chan side).Idle := by
          intro side
          cases h.doing side with
          | idle hidle => exact hidle
          | busy req hmem off hoff hstart hchan =>
              have hnum := @toNat_chan_numBytes req side _ hoff
              rw [← hchan] at hnum
              cases side <;> omega
        have hnil : r.pending = [] := by
          by_contra hne
          have hyes : refill p.toReshaperParams r .eager = true :=
            refill_iff.mpr ⟨fun side => (BurstState.tx_idle (hidle side)).1, rfl, hne,
              fun side => by cases side <;> rfl⟩
          rw [hyes] at hrefill
          cases hrefill
        rw [hnil, h0] at hpos
        exact absurd hpos (by decide)
      · omega

theorem Inv.ahead_le (h : Inv p.toReshaperParams reqs r) (hacc : Accepted reqs) :
    (r.step p.toReshaperParams .eager).ahead ≤ r.ahead := by
  rcases Nat.eq_zero_or_pos r.ahead with h0 | hpos
  · rw [ahead] at h0
    have hnil : r.pending = [] := by
      cases hp : r.pending with
      | nil => rfl
      | cons req rest =>
          rw [hp, List.map_cons, List.sum_cons] at h0
          omega
    have hrefill : refill p.toReshaperParams r .eager = false := by
      by_contra hyes
      exact (refill_iff.mp (Bool.not_eq_false _ ▸ hyes)).2.2.1 hnil
    have hrd := h.chan_lt hacc hrefill .rd
    have hwr := h.chan_lt hacc hrefill .wr
    have hpend : (r.step p.toReshaperParams .eager).pending = r.pending := by
      rw [step_pending, hrefill]
      rfl
    rw [ahead, ahead, hpend]
    omega
  · exact Nat.le_of_lt (h.ahead_lt hacc hpos)

/-- An eager data mover gets every byte of every request, in a burst that is a
cut of that request. -/
theorem all_sent (hacc : Accepted reqs) : ∃ t, ∀ req ∈ reqs, ∀ side,
    ∀ j < req.numBytes.toNat,
      ∃ ax ∈ (after p.toReshaperParams reqs (fun _ => .eager) t).axs side, ∃ off len,
        Cut p.toReshaperParams req side ax off len ∧ off ≤ j ∧ j < off + len := by
  have hinv := fun t => inv_after (p := p) hacc (fun _ => Mover.eager) t
  have hfair : ∀ t : Nat, ∃ u, t ≤ u ∧ (fun _ => True) u := fun t => ⟨t, Nat.le_refl t, trivial⟩
  obtain ⟨t, ht⟩ := eventually_zero
    (fun t => (hinv t).ahead_le hacc) (fun t _ hpos => (hinv t).ahead_lt hacc hpos) hfair
  refine ⟨t, fun req hmem side j hj => ?_⟩
  have ht' : (after p.toReshaperParams reqs (fun _ => Mover.eager) t).ahead = 0 := ht
  rw [ahead] at ht'
  rcases (hinv t).served req hmem with hpend | hserved
  · cases hp : (after p.toReshaperParams reqs (fun _ => Mover.eager) t).pending with
    | nil =>
        rw [hp] at hpend
        cases hpend
    | cons req' rest =>
        rw [hp, List.map_cons, List.sum_cons] at ht'
        omega
  · cases hserved side j hj with
    | sent ax hax off len hcut hlo hhi => exact ⟨ax, hax, off, len, hcut, hlo, hhi⟩
    | ahead off hlo hstart hchan =>
        have hnum := @toNat_chan_numBytes req side off (by omega)
        rw [← hchan] at hnum
        cases side <;> omega

end Drain

end ReshapeRun

end TeraNoC.Dma
