import TeraNoC.Dma.Backend
import TeraNoC.Proofs.DataPath

/-!
# A backend copies what it is asked to copy

The bytes the requests ask for are one stream, in the order of the requests and of their addresses.
The read side cuts it into bursts, the write side cuts it into others, and a byte is in one of four
places: written, in the data path, in a read burst under way, or still ahead of the reshaper. The
invariant says that these follow each other in the stream, and that what is not written is also
what the write bursts under way and the reshaper have still to write (`Inv.reading`,
`Inv.writing`).

The data path looks at the write descriptor even while there is none. That does no harm as long as
it has no bytes then, and it has none because the reshaper is never behind with the descriptors:
with two places in the queues the last but one cannot leave before the next is there (`Inv.ahead`).
-/

namespace TeraNoC.Dma

open TeraNoC.Lib

/-- The parameters a backend is elaborated with. -/
structure BackendParams.Valid (p : BackendParams) : Prop where
  width_pow : p.dataWidth = 8 * 2 ^ clog2 (p.dataWidth / 8)
  width_le : p.dataWidth ≤ 1024
  two_le_depth : 2 ≤ p.axReqFifoDepth

namespace BackendParams

variable {p : BackendParams} (hp : p.Valid)

def Valid.config : ReshaperConfig where
  toReshaperParams := p.toReshaperParams
  width_pow := hp.width_pow
  width_le := hp.width_le

include hp

theorem Valid.strbWidth_pos : 0 < p.strbWidth := hp.config.strbWidth_pos

theorem Valid.slice_offset (x : Nat) : slice x 0 p.offsetWidth = x % p.strbWidth :=
  hp.config.slice_offset x

end BackendParams

/-! ## Bursts under way -/

/-- The byte with index `k` of the `q`-th request: where it goes and its value. -/
def askedByte (mem : Nat → Nat → DataByte) (q : Nat) (req : DmaReq) (k : Nat) : Nat × DataByte :=
  byteOf req.dst.toNat (fun k => mem q (req.src.toNat + k)) k

/-- A burst of a side of a request, and the beats of it that are done. -/
structure Burst where
  q : Nat
  req : DmaReq
  off : Nat
  len : Nat
  ax : AxDesc
  beats : Nat

namespace Burst

variable (p : ReshaperParams) (mem : Nat → Nat → DataByte) (side : Side) (pc : Burst)

def rows : Nat := rowsAfter p.strbWidth (pc.req.addr side).toNat pc.off pc.len

/-- The bytes of its next beat. -/
def beat : List (Nat × DataByte) :=
  (rowBeat p.strbWidth (pc.req.addr side).toNat pc.off pc.len pc.beats).map
    (askedByte mem pc.q pc.req)

/-- The bytes it has still to move. -/
def rest : List (Nat × DataByte) :=
  (rowRest p.strbWidth (pc.req.addr side).toNat pc.off pc.len pc.beats).map
    (askedByte mem pc.q pc.req)

def owed : Owed := ⟨pc.ax, pc.beats⟩

def offset : Nat := ((pc.req.addr side).toNat + pc.off) % p.strbWidth

def tailer : Nat := (pc.len + pc.offset p side) % p.strbWidth

def rDesc : RDesc := ⟨pc.offset p .rd, pc.tailer p .rd, p.shift pc.req⟩

def wDesc : WDesc := ⟨pc.offset p .wr, pc.tailer p .wr, pc.ax.len, pc.ax.len == 0⟩

/-- It is a burst of one of the requests. -/
structure Ok (p : ReshaperParams) (reqs : List DmaReq) (side : Side) (pc : Burst) : Prop where
  mem : pc.req ∈ reqs
  cut : Cut p pc.req side pc.ax pc.off pc.len
  beats_le : pc.beats ≤ pc.rows p side

variable {p mem side pc} {reqs : List DmaReq}

theorem Ok.len_eq (h : pc.Ok p reqs side) : pc.ax.len.toNat = pc.rows p side := h.cut.beats

theorem Ok.addr_eq (h : pc.Ok p reqs side) : pc.ax.addr.toNat + p.strbWidth * pc.beats =
    rowAt p.strbWidth (pc.req.addr side).toNat pc.off pc.beats := by
  rw [h.cut.addr, rowAt_eq]

/-- A list of bursts of which the first has made another beat. -/
def advance (last : Bool) : List Burst → List Burst
  | pc :: rest => if last then rest else { pc with beats := pc.beats + 1 } :: rest
  | [] => []

theorem rest_eq (mem : Nat → Nat → DataByte) (h : pc.Ok p reqs side) (hS : 0 < p.strbWidth)
    (tl : List Burst) :
    (pc :: tl).flatMap (rest p mem side) = pc.beat p mem side ++
      (advance (decide (pc.beats = pc.rows p side)) (pc :: tl)).flatMap (rest p mem side) := by
  have hrow := @rowRest_eq p.strbWidth (pc.req.addr side).toNat pc.off pc.len pc.beats
  have hsplit : pc.rest p mem side = pc.beat p mem side ++
      (rowRest p.strbWidth (pc.req.addr side).toNat pc.off pc.len (pc.beats + 1)).map
        (askedByte mem pc.q pc.req) := by
    rw [rest, hrow, List.map_append]
    rfl
  rw [List.flatMap_cons, hsplit, List.append_assoc]
  congr 1
  by_cases hlast : pc.beats = pc.rows p side
  · rw [decide_eq_true hlast, advance, if_pos rfl, rowRest_end hS h.cut.nonempty
      (by have : pc.rows p side = rowsAfter _ _ _ _ := rfl; omega)]
    rfl
  · rw [decide_eq_false hlast, advance, if_neg Bool.false_ne_true]
    rfl

theorem advance_ok {pcs : List Burst} {last : Bool} (h : ∀ pc ∈ pcs, pc.Ok p reqs side)
    (hlast : ∀ pc ∈ pcs.head?, last = decide (pc.beats = pc.rows p side)) :
    ∀ pc ∈ advance last pcs, pc.Ok p reqs side := by
  cases pcs with
  | nil => exact h
  | cons pc tl =>
      rw [hlast pc rfl, advance]
      split_ifs with hend
      · exact fun pc' hpc' => h pc' (List.mem_cons_of_mem _ hpc')
      · intro pc' hpc'
        rcases List.mem_cons.1 hpc' with rfl | hpc'
        · have hok := h pc List.mem_cons_self
          have hle := hok.beats_le
          have hne : ¬pc.beats = pc.rows p side := fun heq => hend (decide_eq_true heq)
          exact ⟨hok.mem, hok.cut, by change pc.beats + 1 ≤ pc.rows p side; omega⟩
        · exact h pc' (List.mem_cons_of_mem _ hpc')

theorem advance_fresh {pcs : List Burst} {last : Bool} (h : ∀ pc ∈ pcs.tail, pc.beats = 0) :
    ∀ pc ∈ (advance last pcs).tail, pc.beats = 0 := by
  cases pcs with
  | nil => exact h
  | cons pc tl =>
      rw [advance]
      split_ifs
      · exact fun pc' hpc' => h pc' (List.mem_of_mem_tail hpc')
      · exact h

end Burst

/-! ## The reshaper -/

section Reshaper

variable {p : ReshaperConfig} {req : DmaReq} {side : Side} {off len : Nat}

/-- The bytes of the burst a channel sends. -/
theorem numBytes_eq (hoff : off < req.numBytes.toNat)
    (h : ((p.ownPage (req.chan side off)).1.last = true ∧ off + len = req.numBytes.toNat) ∨
      ((p.ownPage (req.chan side off)).1.last = false ∧ off + len < req.numBytes.toNat ∧
        (p.ownPage (req.chan side off)).2 = req.chan side (off + len))) :
    p.numBytes (req.chan side off) (p.numBytesToPb false (req.chan side off).addr) = len := by
  have hnum := @toNat_chan_numBytes req side off hoff
  rw [ReshaperParams.numBytes]
  rw [ReshaperParams.ownPage, ReshaperParams.transaction] at h
  by_cases hmore : (req.chan side off).numBytes.toNat >
      p.numBytesToPb false (req.chan side off).addr
  · rw [if_pos hmore] at h ⊢
    rcases h with ⟨hlast, -⟩ | ⟨-, hlt, hnext⟩
    · cases hlast
    · have hn := congrArg (fun ch => ch.numBytes.toNat) hnext
      simp only at hn
      have hbound := (req.chan side off).numBytes.isLt
      rw [toNat_chan_numBytes hlt, BitVec.toNat_sub_of_le, hnum, BitVec.toNat_ofNat,
        Nat.mod_eq_of_lt (by omega)] at hn
      · omega
      · rw [BitVec.le_def, BitVec.toNat_ofNat]
        exact Nat.le_trans (Nat.mod_le _ _) (Nat.le_of_lt hmore)
  · rw [if_neg hmore] at h ⊢
    rcases h with ⟨-, hend⟩ | ⟨hlast, -, -⟩
    · have hpage := p.pageSize_eq
      have hle : p.numBytesToPb false (req.chan side off).addr ≤ p.pageSize := by
        rw [ReshaperParams.numBytesToPb, if_neg Bool.false_ne_true]
        omega
      have hslice : slice (req.numBytes.toNat - off) 0 (p.pageAddrWidth + 1) =
          req.numBytes.toNat - off := by
        refine slice_eq_self ?_
        rw [Nat.pow_succ, ← hpage]
        omega
      rw [hnum, hslice]
      omega
    · cases hlast

end Reshaper

/-- The bytes a channel has still to cut into bursts, for the `q`-th request. -/
inductive Ahead (p : ReshaperParams) (mem : Nat → Nat → DataByte) (reqs : List DmaReq)
    (q shift : Nat) (side : Side) (ch : BurstChan) : List (Nat × DataByte) → Prop
  | idle (h : ch.Idle) : Ahead p mem reqs q shift side ch []
  | busy {req : DmaReq} {off : Nat} (hmem : req ∈ reqs) (hoff : off < req.numBytes.toNat)
      (hstart : off = 0 ∨ p.pageSize ∣ (req.addr side).toNat + off)
      (hchan : ch = req.chan side off) (hshift : p.shift req = shift) :
      Ahead p mem reqs q shift side ch
        ((List.range' off (req.numBytes.toNat - off)).map (askedByte mem q req))

section Ahead

variable {p : ReshaperParams} {mem : Nat → Nat → DataByte} {reqs : List DmaReq} {q shift : Nat}
  {side : Side} {ch : BurstChan} {rest : List (Nat × DataByte)}

theorem Ahead.valid (h : Ahead p mem reqs q shift side ch rest) (hne : rest ≠ []) :
    ch.valid = true := by
  cases h with
  | idle => exact absurd rfl hne
  | busy _ _ _ hchan _ =>
      rw [hchan]
      rfl

theorem Ahead.idle_of_nil (h : Ahead p mem reqs q shift side ch []) : ch.Idle := by
  generalize hnil : ([] : List (Nat × DataByte)) = rest at h
  cases h with
  | idle h => exact h
  | busy _ hoff _ _ _ =>
      have hlen := congrArg List.length hnil
      rw [List.length_map, List.length_range', List.length_nil] at hlen
      omega

end Ahead

/-- The bytes of the next request. -/
def loaded (mem : Nat → Nat → DataByte) (q : Nat) : List DmaReq → List (Nat × DataByte)
  | req :: _ => (List.range req.numBytes.toNat).map (askedByte mem q req)
  | [] => []

section Channel

open BackendRun (asked)

variable {p : ReshaperConfig} {mem : Nat → Nat → DataByte} {reqs : List DmaReq} {r : ReshapeRun}
  {m : Mover} {side : Side} {taken shift : Nat} {rest rest' : List (Nat × DataByte)}

/-- The data mover takes a burst. -/
def sends (r : ReshapeRun) (m : Mover) (side : Side) : Bool :=
  (r.state.chan side).valid && m.ready side

/-- The burst a working channel hands on. -/
structure Sent (p : ReshaperParams) (reqs : List DmaReq) (r : ReshapeRun) (taken shift : Nat)
    (side : Side) (pc : Burst) : Prop where
  ok : pc.Ok p reqs side
  q : pc.q = taken - 1
  beats : pc.beats = 0
  ax : pc.ax = (r.state.tx p side).1
  shift : p.shift pc.req = shift
  addr : (r.state.chan side).addr.toNat = (pc.req.addr side).toNat + pc.off
  len : p.numBytes (r.state.chan side) (p.numBytesToPb false (r.state.chan side).addr) = pc.len

/-- What a channel does in a cycle: it hands on a burst, or not, and has the rest ahead. -/
structure ChanStep (p : ReshaperParams) (mem : Nat → Nat → DataByte) (reqs : List DmaReq)
    (r : ReshapeRun) (m : Mover) (taken shift : Nat) (side : Side)
    (rest : List (Nat × DataByte)) (pushed : List Burst) (rest' : List (Nat × DataByte)) :
    Prop where
  none : sends r m side = false → pushed = []
  some : sends r m side = true → ∃ pc, pushed = [pc] ∧ Sent p reqs r taken shift side pc
  stream : rest ++ asked mem taken r.pending = pushed.flatMap (Burst.rest p mem side) ++
    (rest' ++ asked mem (if r.refill p m then taken + 1 else taken) (r.step p m).pending)
  ahead : Ahead p mem reqs ((if r.refill p m then taken + 1 else taken) - 1)
    (if r.refill p m then p.shift (r.pending.headD .zero) else shift) side
    ((r.step p m).state.chan side) rest'
  load : r.refill p m = true → rest' = loaded mem taken r.pending
  keep : r.refill p m = false → rest = [] → rest' = []

theorem ChanStep.sent {p : ReshaperParams} {pushed : List Burst} {pc : Burst}
    (hc : ChanStep p mem reqs r m taken shift side rest pushed rest')
    (hpc : pc ∈ pushed) : sends r m side = true ∧
      Sent p reqs r taken shift side pc := by
  cases hs : sends r m side with
  | false =>
      rw [hc.none hs] at hpc
      cases hpc
  | true =>
      obtain ⟨pc', rfl, hsent⟩ := hc.some hs
      rw [List.mem_singleton.1 hpc]
      exact ⟨rfl, hsent⟩

theorem ChanStep.map_eq {p : ReshaperParams} {pushed : List Burst} {α : Type} {f : Burst → α}
    {a : α}
    (hc : ChanStep p mem reqs r m taken shift side rest pushed rest')
    (hf : ∀ pc, sends r m side = true → Sent p reqs r taken shift side pc → f pc = a) :
    pushed.map f = if sends r m side then [a] else [] := by
  cases hs : sends r m side with
  | false =>
      rw [hc.none hs]
      rfl
  | true =>
      obtain ⟨pc, rfl, hsent⟩ := hc.some hs
      rw [List.map_cons, hf pc hs hsent]
      rfl

variable (hacc : ReshapeRun.Accepted reqs) (h : ReshapeRun.Inv p.toReshaperParams reqs r)
include hacc h

/-- A channel a request is loaded into has all its bytes ahead. -/
theorem ahead_load (mem : Nat → Nat → DataByte) (taken : Nat) (side : Side)
    (hrefill : r.refill p.toReshaperParams m = true) :
    ∃ req, r.pending = req :: (r.step p.toReshaperParams m).pending ∧
      Ahead p.toReshaperParams mem reqs taken (p.shift (r.pending.headD .zero)) side
        ((r.step p.toReshaperParams m).state.chan side) (loaded mem taken r.pending) := by
  obtain ⟨req, hmem, hpend, -, -, hload⟩ := ReshapeRun.step_of_refill hacc h.pending hrefill
  refine ⟨req, hpend, ?_⟩
  rw [hpend, hload side]
  rcases Nat.eq_zero_or_pos req.numBytes.toNat with hn | hn
  · rw [loaded, hn]
    exact .idle (DmaReq.idle_load hn)
  · rw [loaded, List.range_eq_range']
    exact .busy hmem hn (.inl rfl) (DmaReq.load_of_pos hn) rfl

theorem chanStep_of_idle (hidle : (r.state.chan side).Idle) :
    ∃ rest', ChanStep p.toReshaperParams mem reqs r m taken shift side [] [] rest' := by
  have hsends : sends r m side = false := by
    rw [sends, hidle.valid]
    rfl
  cases hrefill : r.refill p.toReshaperParams m with
  | true =>
      obtain ⟨req, hpend, hahead⟩ := ahead_load hacc h mem taken side hrefill
      refine ⟨_, fun _ => rfl, fun hs => ?_, ?_, ?_, fun _ => rfl, fun hno => ?_⟩
      · rw [hsends] at hs
        cases hs
      · rw [hrefill, if_pos rfl]
        conv_lhs => rw [hpend]
        conv_rhs => rw [hpend]
        rfl
      · rw [hrefill, if_pos rfl, if_pos rfl]
        exact hahead
      · rw [hrefill] at hno
        cases hno
  | false =>
      refine ⟨[], fun _ => rfl, fun hs => ?_, ?_, ?_, fun hyes => ?_, fun _ _ => rfl⟩
      · rw [hsends] at hs
        cases hs
      · rw [hrefill, ReshapeRun.step_pending, hrefill]
        rfl
      · rw [hrefill]
        exact .idle (ReshapeRun.step_chan_of_idle hidle hrefill)
      · rw [hrefill] at hyes
        cases hyes

section Busy

variable {req : DmaReq} {off : Nat} (hmem : req ∈ reqs) (hoff : off < req.numBytes.toNat)
  (hstart : off = 0 ∨ p.pageSize ∣ (req.addr side).toNat + off)
  (hchan : r.state.chan side = req.chan side off) (hshift : p.shift req = shift)
include hmem hoff hstart hchan hshift

/-- It is the first part of what is ahead, and what comes after it is what is ahead then. -/
theorem exists_sent (mem : Nat → Nat → DataByte) (taken : Nat) :
    ∃ pc : Burst, Sent p.toReshaperParams reqs r taken shift side pc ∧
    (List.range' off (req.numBytes.toNat - off)).map (askedByte mem (taken - 1) req) =
      pc.rest p.toReshaperParams mem side ++
        (List.range' (off + pc.len) (req.numBytes.toNat - (off + pc.len))).map
          (askedByte mem (taken - 1) req) ∧
    (((r.state.tx p.toReshaperParams side).2 = .zero ∧ off + pc.len = req.numBytes.toNat) ∨
      ((r.state.tx p.toReshaperParams side).1.last = false ∧
        off + pc.len < req.numBytes.toNat ∧ p.pageSize ∣ (req.addr side).toNat + (off + pc.len) ∧
        (r.state.tx p.toReshaperParams side).2 = req.chan side (off + pc.len))) := by
  have hv : (r.state.chan side).valid = true := by rw [hchan]; rfl
  obtain ⟨len, hcut, hout⟩ := h.tx_busy hacc hmem hoff hstart hchan
  obtain ⟨hdec, hburst⟩ := h.decoupled_of_valid hv
  refine ⟨⟨taken - 1, req, off, len, (r.state.tx p.toReshaperParams side).1, 0⟩,
    ⟨⟨hmem, hcut, Nat.zero_le _⟩, rfl, rfl, rfl, hshift, ?_, ?_⟩, ?_, ?_⟩
  · rw [hchan, toNat_chan_addr hoff (hacc.noWrap req hmem side)]
  · rw [hchan]
    refine numBytes_eq hoff ?_
    rw [← hchan, ← BurstState.tx_decoupled side hdec hburst]
    rcases hout with ⟨h₁, h₂, -⟩ | ⟨h₁, h₂, -, h₃⟩
    · exact .inl ⟨h₁, h₂⟩
    · exact .inr ⟨h₁, h₂, h₃⟩
  · have hlen := hcut.inside
    rw [Burst.rest, rowRest_zero, ← List.map_append, show List.range' (off + len)
      (req.numBytes.toNat - (off + len)) = List.range' (off + 1 * len)
      (req.numBytes.toNat - (off + len)) by rw [Nat.one_mul], List.range'_append]
    congr 2
    change req.numBytes.toNat - off = len + (req.numBytes.toNat - (off + len))
    omega
  · rcases hout with ⟨-, h₂, h₃⟩ | hmore
    · exact .inl ⟨h₃, h₂⟩
    · exact .inr hmore

omit hacc in
theorem chanStep_of_waits (hready : m.ready side = false) :
    ChanStep p.toReshaperParams mem reqs r m taken shift side
      ((List.range' off (req.numBytes.toNat - off)).map (askedByte mem (taken - 1) req)) []
      ((List.range' off (req.numBytes.toNat - off)).map (askedByte mem (taken - 1) req)) := by
  have hv : (r.state.chan side).valid = true := by rw [hchan]; rfl
  have hrefill : r.refill p.toReshaperParams m = false := by
    by_contra hyes
    have := (ReshapeRun.refill_iff.mp (Bool.not_eq_false _ ▸ hyes)).2.2.2 side
    rw [hready] at this
    cases this
  refine ⟨fun _ => rfl, fun hs => ?_, ?_, ?_, fun hyes => ?_, fun _ hnil => hnil⟩
  · rw [sends, hready, Bool.and_false] at hs
    cases hs
  · rw [hrefill, ReshapeRun.step_pending, hrefill]
    rfl
  · rw [hrefill, h.step_chan_of_valid hv hrefill, hready]
    exact .busy hmem hoff hstart hchan hshift
  · rw [hrefill] at hyes
    cases hyes

theorem chanStep_of_sends (hready : m.ready side = true) :
    ∃ pushed rest', ChanStep p.toReshaperParams mem reqs r m taken shift side
      ((List.range' off (req.numBytes.toNat - off)).map (askedByte mem (taken - 1) req))
      pushed rest' := by
  have hv : (r.state.chan side).valid = true := by rw [hchan]; rfl
  have hsends : sends r m side = false → ∀ {P : Prop}, P := by
    intro hno
    rw [sends, hready, hv] at hno
    cases hno
  obtain ⟨pc, hsent, hsplit, ⟨hnext, hend⟩ | ⟨hlast, hlt, hpage, hnext⟩⟩ :=
    exists_sent hacc h hmem hoff hstart hchan hshift mem taken
  · -- the last burst of the request
    rw [hend, Nat.sub_self, List.range'_zero, List.map_nil, List.append_nil] at hsplit
    rw [hsplit]
    cases hrefill : r.refill p.toReshaperParams m with
    | true =>
        obtain ⟨req', hpend, hahead⟩ := ahead_load hacc h mem taken side hrefill
        refine ⟨[pc], loaded mem taken r.pending, fun hs => hsends hs, fun _ => ⟨pc, rfl, hsent⟩,
          ?_, ?_, fun _ => rfl, fun hno => ?_⟩
        · rw [hrefill, if_pos rfl, List.flatMap_cons, List.flatMap_nil, List.append_nil]
          congr 1
          conv_lhs => rw [hpend]
          conv_rhs => rw [hpend]
          rfl
        · rw [hrefill, if_pos rfl, if_pos rfl]
          exact hahead
        · rw [hrefill] at hno
          cases hno
    | false =>
        refine ⟨[pc], [], fun hs => hsends hs, fun _ => ⟨pc, rfl, hsent⟩, ?_, ?_, fun hyes => ?_,
          fun _ _ => rfl⟩
        · rw [hrefill, ReshapeRun.step_pending, hrefill, List.flatMap_cons, List.flatMap_nil,
            List.append_nil]
          rfl
        · rw [hrefill, h.step_chan_of_valid hv hrefill, hready, if_pos rfl, hnext]
          exact .idle BurstChan.idle_zero
        · rw [hrefill] at hyes
          cases hyes
  · -- the request goes on past the page
    have hrefill : r.refill p.toReshaperParams m = false := by
      by_contra hyes
      have := (ReshapeRun.refill_iff.mp (Bool.not_eq_false _ ▸ hyes)).1 side
      rw [hlast] at this
      cases this
    rw [hsplit]
    refine ⟨[pc], (List.range' (off + pc.len) (req.numBytes.toNat - (off + pc.len))).map
      (askedByte mem (taken - 1) req), fun hs => hsends hs, fun _ => ⟨pc, rfl, hsent⟩, ?_, ?_,
      fun hyes => ?_, fun _ hnil => (List.append_eq_nil_iff.1 hnil).2⟩
    · rw [hrefill, ReshapeRun.step_pending, hrefill, List.flatMap_cons, List.flatMap_nil,
        List.append_nil, List.append_assoc]
      rfl
    · rw [hrefill, h.step_chan_of_valid hv hrefill, hready, if_pos rfl, hnext]
      exact .busy hmem hlt (.inr hpage) rfl hshift
    · rw [hrefill] at hyes
      cases hyes

end Busy

theorem exists_chanStep (hahead : Ahead p.toReshaperParams mem reqs (taken - 1) shift side
    (r.state.chan side) rest) : ∃ pushed rest',
      ChanStep p.toReshaperParams mem reqs r m taken shift side rest pushed rest' := by
  cases hahead with
  | idle hidle => exact ⟨[], chanStep_of_idle hacc h hidle⟩
  | busy hmem hoff hstart hchan hshift =>
      cases hready : m.ready side with
      | false => exact ⟨_, _, chanStep_of_waits h hmem hoff hstart hchan hshift hready⟩
      | true => exact chanStep_of_sends hacc h hmem hoff hstart hchan hshift hready

end Channel

end TeraNoC.Dma
