import TeraNoC.Hw.TileInterco
import TeraNoC.Proofs.BankPlacement
import Mathlib.Data.List.Forall2

/-!
# What the interconnect keeps

A wide request is taken by the banks of its superbank one by one, each in its own
cycle, and its words come back through a join that waits for all of them. That the
words of one request meet there, and meet the rotation that belongs to them, is
the invariant `SbInv`: every bank of a superbank has taken the accepted wide
requests of that superbank in order, and perhaps its word of the one being
presented; every bank has answered as many as the superbank has delivered; and
the rotation FIFO holds the rotations of the rest.

The join can only fire for a request that was accepted, because the one being
presented still lacks a bank (`SbInv.open_`).
-/

namespace TeraNoC.Hw

open TeraNoC.Lib

section Logs

variable {w : Nat} {M : Type}

/-- A wide access of a log: the request, its number, and the word. -/
def Access.wideId : Access w M → Option (WideReq w M × Nat × Nat)
  | narrow _ => none
  | wide n r j => some (r, n, j)

def wideIds (log : List (Access w M × Word)) : List (WideReq w M × Nat × Nat) :=
  log.filterMap fun e => e.1.wideId

theorem wideIds_append (l l' : List (Access w M × Word)) :
    wideIds (l ++ l') = wideIds l ++ wideIds l' :=
  List.filterMap_append

/-- The wide access at position `k` comes after those before it. -/
theorem wideIds_getElem? {log : List (Access w M × Word)} {k : Nat} {e : Access w M × Word}
    (h : log[k]? = some e) {id : WideReq w M × Nat × Nat} (hid : e.1.wideId = some id) :
    (wideIds log)[(wideIds (log.take k)).length]? = some id := by
  have hk : k < log.length := (List.getElem?_eq_some_iff.mp h).1
  have hsplit : log = log.take k ++ e :: log.drop (k + 1) := by
    have hget : log[k] = e := (List.getElem?_eq_some_iff.mp h).2
    rw [← hget, ← List.drop_eq_getElem_cons hk, List.take_append_drop]
  have hids : wideIds log = wideIds (log.take k) ++ id :: wideIds (log.drop (k + 1)) := by
    conv_lhs => rw [hsplit]
    rw [wideIds_append]
    congr 1
    rw [wideIds, List.filterMap_cons, hid]
    rfl
  rw [hids, List.getElem?_append_right (Nat.le_refl _), Nat.sub_self]
  rfl

theorem wideIds_take_succ {log : List (Access w M × Word)} {k : Nat} {e : Access w M × Word}
    (h : log[k]? = some e) :
    (wideIds (log.take (k + 1))).length
      = (wideIds (log.take k)).length + e.1.isWide.toNat := by
  rw [List.take_add_one, h, wideIds_append, List.length_append]
  congr 1
  cases he : e.1 with
  | narrow r => simp [wideIds, Access.wideId, Access.isWide, he]
  | wide n r j => simp [wideIds, Access.wideId, Access.isWide, he]

end Logs

namespace IntercoConfig

variable {q : IntercoConfig} {F : TileCells q.numBanksPerSB} {rowBits : Nat} {M : Type}
variable {s : TileState F (q.bankOffsetBits + rowBits) M}
variable {i : TileIn (q.bankOffsetBits + rowBits) M}

variable (q) in
/-- The wide requests accepted for superbank `d`, with their numbers. -/
def acceptedOf (s : TileState F (q.bankOffsetBits + rowBits) M) (d : Nat) :
    List (WideReq (q.bankOffsetBits + rowBits) M × Nat) :=
  s.accepted.zipIdx.filter fun e => q.wideSel e.1.tgtAddr.toNat == d

/-- The wide responses delivered from superbank `d`. -/
def deliveredOf (s : TileState F (q.bankOffsetBits + rowBits) M) (d : Nat) : List (WideResp M) :=
  (s.delivered.filter (·.1 == d)).map (·.2)

/-- The wide access of port `p` for a request. -/
def portId (q : IntercoConfig) (p : Nat) (e : WideReq (q.bankOffsetBits + rowBits) M × Nat) :
    WideReq (q.bankOffsetBits + rowBits) M × Nat × Nat :=
  (e.1, e.2, q.wideWord (q.reqRot e.1.tgtAddr.toNat) p)

variable (q) in
/-- `resp` answers request `e`: its words are what the banks of the words answered,
its metadata that of the request. -/
def Answers (s : TileState F (q.bankOffsetBits + rowBits) M)
    (e : WideReq (q.bankOffsetBits + rowBits) M × Nat) (resp : WideResp M) : Prop :=
  (∀ j < q.numBanksPerSB, (Access.wide e.2 e.1 j, resp.rdata j)
    ∈ (s.bank (q.wideBank e.1.tgtAddr.toNat j)).log) ∧
  resp.metadata = e.1.metadata

variable (q) in
structure SbInv (s : TileState F (q.bankOffsetBits + rowBits) M) (d : Nat) :
    Prop where
  rot : F.rot.contents (s.rot d)
    = ((q.acceptedOf s d).drop (deliveredOf s d).length).map fun e => q.reqRot e.1.tgtAddr.toNat
  taken : ∀ p < q.numBanksPerSB, wideIds (s.bank (q.globalBank d p)).log
    = (q.acceptedOf s d ++
        (if F.fork.done (s.fork d) p then s.wide.toList.map (·, s.accepted.length)
          else [])).map (q.portId p)
  bound : ∀ p < q.numBanksPerSB,
    (s.bank (q.globalBank d p)).answered ≤ (s.bank (q.globalBank d p)).log.length
  answered : ∀ p < q.numBanksPerSB,
    (wideIds ((s.bank (q.globalBank d p)).log.take (s.bank (q.globalBank d p)).answered)).length
      = (deliveredOf s d).length
  open_ : ∃ p < q.numBanksPerSB, F.fork.done (s.fork d) p = false
  forked : ∀ p < q.numBanksPerSB, F.fork.done (s.fork d) p = true →
    ∃ r, s.wide = some r ∧ q.wideSel r.tgtAddr.toNat = d
  answers : List.Forall₂ (q.Answers s) ((q.acceptedOf s d).take (deliveredOf s d).length)
    (deliveredOf s d)

theorem numBanksPerSB_pos (q : IntercoConfig) : 0 < q.numBanksPerSB := by
  have := q.banksPerSB_two
  omega

theorem sbOf_globalBank {d p : Nat} (hp : p < q.numBanksPerSB) :
    q.sbOf (q.globalBank d p) = d := by
  rw [IntercoParams.sbOf, IntercoParams.globalBank, Nat.mul_comm,
    Nat.mul_add_div q.numBanksPerSB_pos, Nat.div_eq_of_lt hp, Nat.add_zero]

theorem portOf_globalBank {d p : Nat} (hp : p < q.numBanksPerSB) :
    q.portOf (q.globalBank d p) = p := by
  rw [IntercoParams.portOf, IntercoParams.globalBank, Nat.mul_comm, Nat.mul_add_mod,
    Nat.mod_eq_of_lt hp]

theorem reqRot_lt (q : IntercoConfig) (tgtAddr : Nat) : q.reqRot tgtAddr < q.numBanksPerSB := by
  have hrot : q.rotBits = q.loBits := by
    rw [IntercoParams.rotBits, if_pos (show q.numBanksPerSB > 1 from q.banksPerSB_two)]
    rfl
  rw [IntercoParams.reqRot, if_pos (show q.numBanksPerSB > 1 from q.banksPerSB_two), hrot]
  have hpos := Nat.two_pow_pos q.loBits
  rw [q.numBanksPerSB_eq]
  exact Nat.mod_lt _ hpos

/-! ## The join -/

theorem foldl_update_apply {n : Nat} (key : Nat → Nat) (val : Nat → Word) (f : Nat → Word)
    (hinj : ∀ p < n, ∀ p' < n, key p = key p' → p = p') :
    ∀ p < n, (List.range n).foldl (fun f p => Function.update f (key p) (val p)) f (key p)
      = val p := by
  induction n with
  | zero => exact fun p hp => absurd hp (Nat.not_lt_zero _)
  | succ n ih =>
      intro p hp
      rw [List.range_succ, List.foldl_append, List.foldl_cons, List.foldl_nil]
      by_cases hpn : p = n
      · rw [hpn, Function.update_self]
      · have hne : key p ≠ key n := fun h => hpn (hinj p hp n (by omega) h)
        rw [Function.update_of_ne hne]
        exact ih (fun a ha b hb => hinj a (by omega) b (by omega)) p (by omega)

theorem wideWord_inj {rot p p' : Nat} (hrot : rot < q.numBanksPerSB) (hp : p < q.numBanksPerSB)
    (hp' : p' < q.numBanksPerSB) (h : q.wideWord rot p = q.wideWord rot p') : p = p' := by
  have hj : q.wideWord rot p' < q.numBanksPerSB := Nat.mod_lt _ q.numBanksPerSB_pos
  rw [(wideWord_eq_iff hrot hp hj).mp h, ← (wideWord_eq_iff hrot hp' hj).mp rfl]

theorem mstResp_eq_some {b : Nat} {e : Access (q.bankOffsetBits + rowBits) M × Word}
    (h : q.mstResp s i b = some e) : (s.bank b).log[(s.bank b).answered]? = some e := by
  rw [IntercoParams.mstResp] at h
  split at h
  · exact h
  · cases h

/-- What a bank at the join shows. -/
theorem wideJoin_id {b : Nat} (h : q.wideJoinValid s i b = true) :
    ∃ n r j x, q.mstResp s i b = some (.wide n r j, x) := by
  rw [IntercoParams.wideJoinValid] at h
  cases hm : q.mstResp s i b with
  | none =>
      rw [hm] at h
      cases h
  | some e =>
      rw [hm] at h
      obtain ⟨a, x⟩ := e
      cases a with
      | narrow r => cases h
      | wide n r j => exact ⟨n, r, j, x, rfl⟩

/-- When the join fires, all banks show their words of one accepted request: the
first that has not been delivered. -/
theorem SbInv.join {d : Nat} (h : SbInv q s d) (hv : q.sbWideRespValid s i d = true) :
    ∃ e, (q.acceptedOf s d)[(deliveredOf s d).length]? = some e ∧
      ∀ p < q.numBanksPerSB, ∃ x, q.mstResp s i (q.globalBank d p)
        = some (.wide e.2 e.1 (q.wideWord (q.reqRot e.1.tgtAddr.toNat) p), x) := by
  have hshow : ∀ p < q.numBanksPerSB, ∃ n r j x,
      q.mstResp s i (q.globalBank d p) = some (.wide n r j, x) ∧
      (wideIds (s.bank (q.globalBank d p)).log)[(deliveredOf s d).length]? = some (r, n, j) := by
    intro p hp
    rw [IntercoParams.sbWideRespValid, List.all_eq_true] at hv
    obtain ⟨n, r, j, x, hm⟩ := wideJoin_id (hv p (List.mem_range.mpr hp))
    have hid := wideIds_getElem? (mstResp_eq_some hm)
      (show (Access.wide n r j).wideId = some (r, n, j) from rfl)
    rw [h.answered p hp] at hid
    exact ⟨n, r, j, x, hm, hid⟩
  -- the bank that has not taken the presented request shows an accepted one
  obtain ⟨p₀, hp₀, hopen⟩ := h.open_
  obtain ⟨n₀, r₀, j₀, -, -, hid₀⟩ := hshow p₀ hp₀
  rw [h.taken p₀ hp₀, hopen, if_neg (by simp), List.append_nil, List.getElem?_map] at hid₀
  obtain ⟨e, he, -⟩ := Option.map_eq_some_iff.mp hid₀
  refine ⟨e, he, ?_⟩
  intro p hp
  obtain ⟨n, r, j, x, hm, hid⟩ := hshow p hp
  have hlt := (List.getElem?_eq_some_iff.mp he).1
  rw [h.taken p hp, List.map_append, List.getElem?_append_left (by rw [List.length_map]; exact hlt),
    List.getElem?_map, he] at hid
  cases hid
  exact ⟨x, hm⟩

/-- The head of the rotation FIFO belongs to that request. -/
theorem SbInv.respRot {d : Nat} (h : SbInv q s d)
    {e : WideReq (q.bankOffsetBits + rowBits) M × Nat}
    (he : (q.acceptedOf s d)[(deliveredOf s d).length]? = some e) :
    F.rot.data (s.rot d) = q.reqRot e.1.tgtAddr.toNat := by
  refine F.rot.data_eq _ _ ?_
  rw [h.rot, List.head?_map, List.head?_drop, he]
  rfl

theorem SbInv.resp {d : Nat} (h : SbInv q s d) (hv : q.sbWideRespValid s i d = true) :
    ∃ e resp, (q.acceptedOf s d)[(deliveredOf s d).length]? = some e ∧
      q.sbWideResp s i d = some resp ∧ q.Answers s e resp := by
  obtain ⟨e, he, hshow⟩ := h.join hv
  have hrot := h.respRot he
  have hsel : q.wideSel e.1.tgtAddr.toNat = d := by
    have := List.mem_of_getElem? he
    rw [acceptedOf, List.mem_filter] at this
    exact beq_iff_eq.mp this.2
  obtain ⟨x₀, hm₀⟩ := hshow 0 q.numBanksPerSB_pos
  refine ⟨e, _, he, by rw [IntercoParams.sbWideResp, hm₀]; rfl, ?_, rfl⟩
  intro j hj
  have hlt := q.reqRot_lt e.1.tgtAddr.toNat
  have hp : (j + q.reqRot e.1.tgtAddr.toNat) % q.numBanksPerSB < q.numBanksPerSB :=
    Nat.mod_lt _ q.numBanksPerSB_pos
  have hj' := (wideWord_eq_iff hlt hp hj).mpr rfl
  obtain ⟨x, hm⟩ := hshow _ hp
  have hbank : q.wideBank e.1.tgtAddr.toNat j
      = q.globalBank d ((j + q.reqRot e.1.tgtAddr.toNat) % q.numBanksPerSB) := by
    rw [wideBank_eq _ hlt hj, hsel]
  have hword : ((List.range q.numBanksPerSB).foldl
      (fun rdata p => Function.update rdata (q.wideWord (F.rot.data (s.rot d)) p)
        (q.bankRdata s i (q.globalBank d p))) fun _ => (0 : Word)) j = x := by
    rw [hrot]
    have := foldl_update_apply (q.wideWord (q.reqRot e.1.tgtAddr.toNat))
      (fun p => q.bankRdata s i (q.globalBank d p)) (fun _ => 0)
      (fun p hp p' hp' => wideWord_inj hlt hp hp') _ hp
    rw [hj'] at this
    rw [this, IntercoParams.bankRdata, hm]
    rfl
  rw [hj'] at hm
  have hmem : (Access.wide e.2 e.1 j, x) ∈ (s.bank (q.wideBank e.1.tgtAddr.toNat j)).log := by
    rw [hbank]
    exact List.mem_of_getElem? (mstResp_eq_some hm)
  rw [← hword] at hmem
  exact hmem

/-! ## One cycle -/

theorem wideToSbValid_iff {d : Nat} : q.wideToSbValid s i d = true ↔
    ∃ r, q.slvWideReq s i = some r ∧ q.wideSel r.tgtAddr.toNat = d := by
  rw [IntercoParams.wideToSbValid]
  cases q.slvWideReq s i with
  | none => simp
  | some r => simp

theorem wideAccReady_req {d : Nat} (h : q.wideAccReady s i d = true) :
    (∃ r, q.slvWideReq s i = some r ∧ q.wideSel r.tgtAddr.toNat = d) ∧
    F.rot.ready (s.rot d) = true ∧ q.slvWideReqReady s i = true := by
  have hacc := (StreamFork.ready_iff.mp h).1
  rw [IntercoParams.forkValid, Bool.and_eq_true] at hacc
  obtain ⟨hv, hrot⟩ := hacc
  obtain ⟨r, hr, hsel⟩ := wideToSbValid_iff.mp hv
  refine ⟨⟨r, hr, hsel⟩, hrot, ?_⟩
  rw [IntercoParams.slvWideReqReady, hr]
  show q.wideToSbReady s i (q.wideSel r.tgtAddr.toNat) = true
  rw [hsel, IntercoParams.wideToSbReady, h, hrot]
  rfl

theorem wideAccReady_of_not_ready (h : q.slvWideReqReady s i = false) (d : Nat) :
    q.wideAccReady s i d = false := by
  rw [← Bool.not_eq_true]
  intro hacc
  rw [(wideAccReady_req hacc).2.2] at h
  cases h

/-- Only the superbank of the request presented takes it. -/
theorem wideAccReady_of_ne {r : WideReq (q.bankOffsetBits + rowBits) M} {d : Nat}
    (hr : q.slvWideReq s i = some r) (hne : q.wideSel r.tgtAddr.toNat ≠ d) :
    q.wideAccReady s i d = false := by
  rw [← Bool.not_eq_true]
  intro hacc
  obtain ⟨⟨r', hr', hsel⟩, -⟩ := wideAccReady_req hacc
  rw [hr] at hr'
  cases hr'
  exact hne hsel

variable (q) in
/-- What a bank adds to its log. -/
def logged (s : TileState F (q.bankOffsetBits + rowBits) M)
    (i : TileIn (q.bankOffsetBits + rowBits) M) (b : Nat) :
    List (Access (q.bankOffsetBits + rowBits) M × Word) :=
  if i.bankReady b then
    (q.mstReq s i b).toList.map fun a =>
      (a, if a.wen then i.junk b else (s.bank b).mem (q.bankRow a.tgtAddr))
  else []

theorem log_next (b : Nat) :
    ((q.tileNext s i).bank b).log = (s.bank b).log ++ q.logged s i b := by
  show (q.bankNext s i b).log = _
  rw [IntercoParams.bankNext, logged]
  cases q.mstReq s i b with
  | none => simp
  | some a =>
      cases i.bankReady b with
      | false => simp
      | true => rfl

theorem answered_next (b : Nat) :
    ((q.tileNext s i).bank b).answered = (s.bank b).answered + (q.mstRespFire s i b).toNat := by
  show (q.bankNext s i b).answered = _
  rw [IntercoParams.bankNext]
  cases q.mstReq s i b with
  | none => rfl
  | some a =>
      cases i.bankReady b with
      | false => rfl
      | true => rfl

theorem wideIds_logged (b : Nat) :
    wideIds (q.logged s i b)
      = if q.wideForkReady s i b then
          ((q.slvWideReq s i).toList.map (·, s.accepted.length)).map (q.portId (q.portOf b))
        else [] := by
  rw [logged, IntercoParams.wideForkReady, IntercoParams.mstReq]
  cases hr : i.bankReady b with
  | false => simp [wideIds]
  | true =>
      cases hv : q.wideForkValid s i b with
      | false =>
          cases q.narrowToBank i b with
          | none => rfl
          | some r => rfl
      | true =>
          cases q.slvWideReq s i with
          | none => rfl
          | some r => rfl

theorem acceptedOf_next (d : Nat) :
    q.acceptedOf (q.tileNext s i) d
      = q.acceptedOf s d ++
        if q.wideAccReady s i d then (q.slvWideReq s i).toList.map (·, s.accepted.length)
        else [] := by
  have hacc : (q.tileNext s i).accepted
      = if q.slvWideReqReady s i then s.accepted ++ (q.slvWideReq s i).toList
        else s.accepted := rfl
  cases hready : q.slvWideReqReady s i with
  | false =>
      rw [acceptedOf, hacc, hready, wideAccReady_of_not_ready hready]
      simp [acceptedOf]
  | true =>
      cases hr : q.slvWideReq s i with
      | none =>
          rw [IntercoParams.slvWideReqReady, hr] at hready
          cases hready
      | some r =>
          rw [acceptedOf, hacc, hready, if_pos rfl, hr, List.zipIdx_append, List.filter_append]
          refine congrArg (q.acceptedOf s d ++ ·) ?_
          by_cases hsel : q.wideSel r.tgtAddr.toNat = d
          · rw [IntercoParams.slvWideReqReady, hr] at hready
            have hsb : q.wideToSbReady s i (q.wideSel r.tgtAddr.toNat) = true := hready
            rw [hsel, IntercoParams.wideToSbReady, Bool.and_eq_true] at hsb
            rw [hsb.1]
            simp [hsel]
          · rw [wideAccReady_of_ne hr hsel]
            simp [hsel]

theorem SbInv.length_le {d : Nat} (h : SbInv q s d) :
    (deliveredOf s d).length ≤ (q.acceptedOf s d).length := by
  have := h.answers.length_eq
  rw [List.length_take] at this
  omega

theorem sbWideRespFire_valid {d : Nat} (h : q.sbWideRespFire s i d = true) :
    q.sbWideRespValid s i d = true := by
  rw [IntercoParams.sbWideRespFire, Bool.and_eq_true] at h
  exact h.1

theorem SbInv.fire_lt {d : Nat} (h : SbInv q s d) (hf : q.sbWideRespFire s i d = true) :
    (deliveredOf s d).length < (q.acceptedOf s d).length := by
  obtain ⟨e, he, -⟩ := h.join (sbWideRespFire_valid hf)
  exact (List.getElem?_eq_some_iff.mp he).1

/-- The response port carries the superbank that fires. -/
theorem SbInv.wideRespSb_eq {d : Nat} (h : SbInv q s d) (hf : q.sbWideRespFire s i d = true) :
    q.wideRespSb i = d := by
  obtain ⟨e, he, -⟩ := h.join (sbWideRespFire_valid hf)
  rw [IntercoParams.sbWideRespFire, Bool.and_eq_true, IntercoParams.sbWideRespReady] at hf
  rw [IntercoParams.wideRespSb]
  split
  · rename_i hmany
    rw [if_pos hmany, Bool.and_eq_true] at hf
    exact beq_iff_eq.mp hf.2.2
  · rename_i hone
    have hmem := List.mem_of_getElem? he
    rw [acceptedOf, List.mem_filter, beq_iff_eq, IntercoParams.wideSel, if_neg hone] at hmem
    exact hmem.2

theorem deliveredOf_next {d : Nat} (h : SbInv q s d) :
    deliveredOf (q.tileNext s i) d
      = deliveredOf s d ++
        if q.sbWideRespFire s i d then (q.sbWideResp s i d).toList else [] := by
  have hdel : (q.tileNext s i).delivered
      = if q.sbWideRespFire s i (q.wideRespSb i) then
          s.delivered ++ ((q.sbWideResp s i (q.wideRespSb i)).map (q.wideRespSb i, ·)).toList
        else s.delivered := rfl
  cases hf : q.sbWideRespFire s i d with
  | true =>
      have hsb := h.wideRespSb_eq hf
      rw [deliveredOf, hdel, hsb, hf, if_pos rfl, if_pos rfl, List.filter_append, List.map_append]
      refine congrArg (deliveredOf s d ++ ·) ?_
      cases q.sbWideResp s i d <;> simp
  | false =>
      rw [deliveredOf, hdel, if_neg (by simp : ¬ false = true), List.append_nil]
      split
      · rename_i hf'
        have hne : q.wideRespSb i ≠ d := by
          intro hsb
          rw [hsb, hf] at hf'
          cases hf'
        rw [List.filter_append, List.map_append]
        cases q.sbWideResp s i (q.wideRespSb i) <;> simp [hne, deliveredOf]
      · rfl

theorem Answers.next {e : WideReq (q.bankOffsetBits + rowBits) M × Nat} {resp : WideResp M}
    (h : q.Answers s e resp) : q.Answers (q.tileNext s i) e resp := by
  refine ⟨fun j hj => ?_, h.2⟩
  rw [log_next]
  exact List.mem_append_left _ (h.1 j hj)

theorem wideForkReady_eq {d p : Nat} (hp : p < q.numBanksPerSB) :
    q.wideForkReady s i (q.globalBank d p) = F.fork.takes (s.fork d) (q.forkValid s i d)
      (fun p => i.bankReady (q.globalBank d p)) p := by
  rw [IntercoParams.wideForkReady, IntercoParams.wideForkValid, sbOf_globalBank hp,
    portOf_globalBank hp, StreamFork.takes]

theorem forkDone_next {d p : Nat} (hp : p < q.numBanksPerSB)
    (hacc : q.wideAccReady s i d = false) : F.fork.done ((q.tileNext s i).fork d) p
      = (F.fork.done (s.fork d) p || q.wideForkReady s i (q.globalBank d p)) := by
  rw [wideForkReady_eq hp]
  exact StreamFork.done_next_of_not hacc

theorem forkDone_next_of_ready {d : Nat} (hacc : q.wideAccReady s i d = true) (p : Nat) :
    F.fork.done ((q.tileNext s i).fork d) p = false := StreamFork.done_next_of_ready hacc

theorem wideForkReady_req {b : Nat} (h : q.wideForkReady s i b = true) :
    ∃ r, q.slvWideReq s i = some r ∧ q.wideSel r.tgtAddr.toNat = q.sbOf b := by
  rw [IntercoParams.wideForkReady, IntercoParams.wideForkValid, F.fork.valid_eq,
    IntercoParams.forkValid, Bool.and_eq_true, Bool.and_eq_true, Bool.and_eq_true] at h
  exact wideToSbValid_iff.mp h.1.1.1

/-- A request that its superbank does not accept stays. -/
theorem wide_next {r : WideReq (q.bankOffsetBits + rowBits) M}
    (hr : q.slvWideReq s i = some r)
    (hacc : q.wideAccReady s i (q.wideSel r.tgtAddr.toNat) = false) :
    (q.tileNext s i).wide = some r ∧ (q.tileNext s i).accepted = s.accepted := by
  have hready : q.slvWideReqReady s i = false := by
    rw [IntercoParams.slvWideReqReady, hr]
    show q.wideToSbReady s i (q.wideSel r.tgtAddr.toNat) = false
    rw [IntercoParams.wideToSbReady, hacc]
    rfl
  constructor
  · show (if q.slvWideReqReady s i then none else q.slvWideReq s i) = some r
    rw [hready, hr]
    rfl
  · show (if q.slvWideReqReady s i then _ else s.accepted) = s.accepted
    rw [hready]
    rfl

theorem SbInv.taken_next {d : Nat} (h : SbInv q s d) {p : Nat} (hp : p < q.numBanksPerSB) :
    wideIds ((q.tileNext s i).bank (q.globalBank d p)).log
      = (q.acceptedOf (q.tileNext s i) d ++
          (if F.fork.done ((q.tileNext s i).fork d) p then
            (q.tileNext s i).wide.toList.map (·, (q.tileNext s i).accepted.length)
          else [])).map (q.portId p) := by
  have hsb := sbOf_globalBank (q := q) (d := d) hp
  rw [log_next, wideIds_append, h.taken p hp, wideIds_logged, portOf_globalBank hp,
    acceptedOf_next]
  -- the request being taken is the one presented, also where a bank took it earlier
  have hheld : F.fork.done (s.fork d) p = true →
      (∃ r, q.slvWideReq s i = some r ∧ q.wideSel r.tgtAddr.toNat = d) ∧
        s.wide = q.slvWideReq s i := by
    intro hdone
    obtain ⟨r, hr, hsel⟩ := h.forked p hp hdone
    have hslv : q.slvWideReq s i = some r := by rw [IntercoParams.slvWideReq, hr]; rfl
    exact ⟨⟨r, hslv, hsel⟩, by rw [hr, hslv]⟩
  -- a bank takes its word once
  have honce : F.fork.done (s.fork d) p = true →
      q.wideForkReady s i (q.globalBank d p) = false := by
    intro hdone
    rw [wideForkReady_eq hp]
    exact StreamFork.takes_of_done hdone
  cases hacc : q.wideAccReady s i d with
  | true =>
      have hone := StreamFork.has (List.mem_range.mpr hp) hacc
      rw [← wideForkReady_eq hp] at hone
      rw [forkDone_next_of_ready hacc]
      cases hdone : F.fork.done (s.fork d) p with
      | true => simp [honce hdone, (hheld hdone).2]
      | false =>
          rw [hdone, Bool.false_or] at hone
          simp [hone]
  | false =>
      rw [forkDone_next hp hacc]
      cases hdone : F.fork.done (s.fork d) p with
      | true =>
          obtain ⟨⟨r, hr, hsel⟩, hsame⟩ := hheld hdone
          obtain ⟨hwide, hlen⟩ := wide_next hr (by rw [hsel]; exact hacc)
          simp [honce hdone, hwide, hlen, hsame, hr]
      | false =>
          cases hf : q.wideForkReady s i (q.globalBank d p) with
          | true =>
              obtain ⟨r, hr, hsel⟩ := wideForkReady_req hf
              rw [hsb] at hsel
              obtain ⟨hwide, hlen⟩ := wide_next hr (by rw [hsel]; exact hacc)
              simp [hwide, hlen, hr]
          | false => simp

/-- A superbank fires exactly when the wide answer of any one of its banks does. -/
theorem sbWideRespFire_eq {d p : Nat} (hp : p < q.numBanksPerSB) :
    q.sbWideRespFire s i d = (q.mstRespFire s i (q.globalBank d p) &&
      q.wideJoinValid s i (q.globalBank d p)) := by
  cases hw : q.wideJoinValid s i (q.globalBank d p) with
  | false =>
      have hno : q.sbWideRespValid s i d = false := by
        rw [IntercoParams.sbWideRespValid, List.all_eq_false]
        exact ⟨p, List.mem_range.mpr hp, by rw [hw]; exact Bool.false_ne_true⟩
      rw [IntercoParams.sbWideRespFire, hno, Bool.false_and, Bool.and_false]
  | true =>
      obtain ⟨n, r, j, x, hm⟩ := wideJoin_id hw
      simp only [IntercoParams.mstRespFire, hm, Access.isWide, if_true, Bool.and_true,
        sbOf_globalBank hp]

theorem mstRespFire_some {b : Nat} (h : q.mstRespFire s i b = true) :
    ∃ e, q.mstResp s i b = some e := by
  cases hm : q.mstResp s i b with
  | none =>
      rw [IntercoParams.mstRespFire, hm] at h
      cases h
  | some e => exact ⟨e, rfl⟩

/-- What a bank answers in a cycle: one more access, wide or not. -/
theorem wideIds_answered_next {b : Nat} (hb : (s.bank b).answered ≤ (s.bank b).log.length) :
    (wideIds (((q.tileNext s i).bank b).log.take ((q.tileNext s i).bank b).answered)).length
      = (wideIds ((s.bank b).log.take (s.bank b).answered)).length
        + (q.mstRespFire s i b && q.wideJoinValid s i b).toNat := by
  rw [log_next, IntercoConfig.answered_next]
  cases hf : q.mstRespFire s i b with
  | false => rw [Bool.toNat_false, Nat.add_zero, List.take_append_of_le_length hb]; rfl
  | true =>
      obtain ⟨e, hm⟩ := mstRespFire_some hf
      have hget := mstResp_eq_some hm
      have hlt := (List.getElem?_eq_some_iff.mp hget).1
      have hwide : q.wideJoinValid s i b = e.1.isWide := by
        rw [IntercoParams.wideJoinValid, hm]
        rfl
      rw [Bool.toNat_true, List.take_append_of_le_length hlt, wideIds_take_succ hget, hwide,
        Bool.true_and]

theorem SbInv.answered_next {d : Nat} (h : SbInv q s d) {p : Nat} (hp : p < q.numBanksPerSB) :
    (wideIds (((q.tileNext s i).bank (q.globalBank d p)).log.take
        ((q.tileNext s i).bank (q.globalBank d p)).answered)).length
      = (deliveredOf s d).length + (q.sbWideRespFire s i d).toNat := by
  rw [wideIds_answered_next (h.bound p hp), h.answered p hp, sbWideRespFire_eq hp]

theorem SbInv.bound_next {d : Nat} (h : SbInv q s d) {p : Nat} (hp : p < q.numBanksPerSB) :
    ((q.tileNext s i).bank (q.globalBank d p)).answered
      ≤ ((q.tileNext s i).bank (q.globalBank d p)).log.length := by
  rw [log_next, IntercoConfig.answered_next, List.length_append]
  cases hf : q.mstRespFire s i (q.globalBank d p) with
  | false =>
      have := h.bound p hp
      rw [Bool.toNat_false]
      omega
  | true =>
      obtain ⟨e, hm⟩ := mstRespFire_some hf
      have hlt := (List.getElem?_eq_some_iff.mp (mstResp_eq_some hm)).1
      rw [Bool.toNat_true]
      omega

theorem SbInv.open_next {d : Nat} (h : SbInv q s d) :
    ∃ p < q.numBanksPerSB, F.fork.done ((q.tileNext s i).fork d) p = false := by
  obtain ⟨p, hp, hopen⟩ := h.open_
  obtain ⟨p', hp', hopen'⟩ := StreamFork.exists_open ⟨p, List.mem_range.mpr hp, hopen⟩
  exact ⟨p', List.mem_range.mp hp', hopen'⟩

theorem SbInv.forked_next {d : Nat} (h : SbInv q s d) {p : Nat} (hp : p < q.numBanksPerSB)
    (hdone : F.fork.done ((q.tileNext s i).fork d) p = true) :
    ∃ r, (q.tileNext s i).wide = some r ∧ q.wideSel r.tgtAddr.toNat = d := by
  have hsb := sbOf_globalBank (q := q) (d := d) hp
  cases hacc : q.wideAccReady s i d with
  | true =>
      rw [forkDone_next_of_ready hacc] at hdone
      cases hdone
  | false =>
      rw [forkDone_next hp hacc, Bool.or_eq_true] at hdone
      have hpresent : ∃ r, q.slvWideReq s i = some r ∧ q.wideSel r.tgtAddr.toNat = d := by
        rcases hdone with hdone | hf
        · obtain ⟨r, hr, hsel⟩ := h.forked p hp hdone
          exact ⟨r, by rw [IntercoParams.slvWideReq, hr]; rfl, hsel⟩
        · have := wideForkReady_req hf
          rw [hsb] at this
          exact this
      obtain ⟨r, hr, hsel⟩ := hpresent
      exact ⟨r, (wide_next hr (by rw [hsel]; exact hacc)).1, hsel⟩

/-- The FIFO is not popped while empty. -/
theorem SbInv.rot_valid {d : Nat} (h : SbInv q s d) (hf : q.sbWideRespFire s i d = true) :
    F.rot.valid (s.rot d) = true := by
  have hlt := h.fire_lt hf
  rw [F.rot.valid_eq, h.rot]
  simp
  omega

theorem SbInv.rot_next {d : Nat} (h : SbInv q s d) :
    F.rot.contents ((q.tileNext s i).rot d)
      = ((q.acceptedOf (q.tileNext s i) d).drop (deliveredOf (q.tileNext s i) d).length).map
        fun e => q.reqRot e.1.tgtAddr.toNat := by
  have hle := h.length_le
  have hcontents : F.rot.contents ((q.tileNext s i).rot d)
      = (if F.rot.valid (s.rot d) && q.sbWideRespFire s i d then (F.rot.contents (s.rot d)).tail
          else F.rot.contents (s.rot d)) ++
        (if (q.wideToSbValid s i d && q.wideAccReady s i d) && F.rot.ready (s.rot d) then
          [((q.slvWideReq s i).map fun r => q.reqRot r.tgtAddr.toNat).getD 0] else []) :=
    F.rot.contents_next _ _ _ _
  have hpush : (if (q.wideToSbValid s i d && q.wideAccReady s i d) && F.rot.ready (s.rot d) then
        [((q.slvWideReq s i).map fun r => q.reqRot r.tgtAddr.toNat).getD 0] else [])
      = (if q.wideAccReady s i d then (q.slvWideReq s i).toList.map (·, s.accepted.length)
          else []).map fun e => q.reqRot e.1.tgtAddr.toNat := by
    cases hacc : q.wideAccReady s i d with
    | false => simp
    | true =>
        obtain ⟨⟨r, hr, hsel⟩, hready, -⟩ := wideAccReady_req hacc
        have hv := wideToSbValid_iff.mpr ⟨r, hr, hsel⟩
        simp [hv, hready, hr]
  rw [hcontents, hpush, acceptedOf_next, deliveredOf_next h, h.rot]
  cases hf : q.sbWideRespFire s i d with
  | false =>
      simp only [Bool.and_false, Bool.false_eq_true, if_false, List.append_nil]
      rw [List.drop_append_of_le_length hle, List.map_append]
  | true =>
      have hlt := h.fire_lt hf
      obtain ⟨e, resp, -, hresp, -⟩ := h.resp (sbWideRespFire_valid hf)
      simp only [h.rot_valid hf, Bool.and_self, if_true, hresp, List.length_append,
        Option.toList_some,
        List.length_singleton]
      rw [List.drop_append_of_le_length hlt, List.map_append, ← List.map_tail, List.tail_drop]

theorem SbInv.answers_next {d : Nat} (h : SbInv q s d) :
    List.Forall₂ (q.Answers (q.tileNext s i))
      ((q.acceptedOf (q.tileNext s i) d).take (deliveredOf (q.tileNext s i) d).length)
      (deliveredOf (q.tileNext s i) d) := by
  have hle := h.length_le
  have hold := h.answers.imp fun _ _ ha => Answers.next (i := i) ha
  rw [acceptedOf_next, deliveredOf_next h]
  cases hf : q.sbWideRespFire s i d with
  | false =>
      simp only [Bool.false_eq_true, if_false, List.append_nil]
      rw [List.take_append_of_le_length hle]
      exact hold
  | true =>
      have hlt := h.fire_lt hf
      obtain ⟨e, resp, he, hresp, hans⟩ := h.resp (sbWideRespFire_valid hf)
      simp only [if_true, hresp, List.length_append, Option.toList_some, List.length_singleton]
      rw [List.take_append_of_le_length hlt, List.take_add_one, he]
      exact List.rel_append hold (.cons hans.next .nil)

theorem SbInv.next {d : Nat} (h : SbInv q s d) : SbInv q (q.tileNext s i) d where
  rot := h.rot_next
  taken _ hp := h.taken_next hp
  bound _ hp := h.bound_next hp
  answered p hp := by
    rw [h.answered_next hp, deliveredOf_next h]
    cases hf : q.sbWideRespFire s i d with
    | false => simp
    | true =>
        obtain ⟨e, resp, -, hresp, -⟩ := h.resp (sbWideRespFire_valid hf)
        simp [hresp]
  open_ := h.open_next
  forked _ hp hdone := h.forked_next hp hdone
  answers := h.answers_next

theorem sbInv_reset (mem : Nat → Nat → Word) (d : Nat) :
    SbInv q (TileState.reset mem : TileState F (q.bankOffsetBits + rowBits) M) d where
  rot := F.rot.contents_reset
  taken p _ := by
    rw [TileState.reset, F.fork.done_reset]
    rfl
  bound _ _ := Nat.le_refl _
  answered _ _ := rfl
  open_ := ⟨0, q.numBanksPerSB_pos, F.fork.done_reset 0⟩
  forked p _ hdone := by
    rw [TileState.reset, F.fork.done_reset] at hdone
    cases hdone
  answers := .nil

theorem sbInv_after (mem : Nat → Nat → Word)
    (inp : Nat → TileIn (q.bankOffsetBits + rowBits) M) (d t : Nat) :
    SbInv q (q.tileAfter (.reset mem : TileState F _ M) inp t) d := by
  induction t with
  | zero => exact sbInv_reset mem d
  | succ t ih => exact ih.next

variable (q) in
/-- In every cycle of a superbank: its rotation FIFO holds the rotations of the wide
requests accepted and not yet delivered, in order; it is not popped while empty;
the fork does not complete while it is full; and the rotation a joined response is
put back with is that of the request whose words the banks show. -/
theorem rotation_aligned (mem : Nat → Nat → Word)
    (inp : Nat → TileIn (q.bankOffsetBits + rowBits) M) (d t : Nat) :
    let s := q.tileAfter (.reset mem : TileState F _ M) inp t
    F.rot.contents (s.rot d) = ((q.acceptedOf s d).drop (deliveredOf s d).length).map
      (fun e => q.reqRot e.1.tgtAddr.toNat) ∧
    (q.sbWideRespFire s (inp t) d = true → F.rot.valid (s.rot d) = true) ∧
    (q.wideAccReady s (inp t) d = true → F.rot.ready (s.rot d) = true ∧
      q.acceptedOf (q.tileNext s (inp t)) d
        = q.acceptedOf s d ++ (q.slvWideReq s (inp t)).toList.map (·, s.accepted.length)) ∧
    (q.sbWideRespValid s (inp t) d = true →
      ∃ e, (q.acceptedOf s d)[(deliveredOf s d).length]? = some e ∧
        (∀ p < q.numBanksPerSB, ∃ x, q.mstResp s (inp t) (q.globalBank d p)
          = some (.wide e.2 e.1 (q.wideWord (q.reqRot e.1.tgtAddr.toNat) p), x)) ∧
        F.rot.data (s.rot d) = q.reqRot e.1.tgtAddr.toNat) := by
  intro s
  have h : SbInv q s d := sbInv_after mem inp d t
  refine ⟨h.rot, h.rot_valid, fun hacc => ⟨(wideAccReady_req hacc).2.1, ?_⟩, fun hv => ?_⟩
  · rw [acceptedOf_next, if_pos hacc]
  · obtain ⟨e, he, hshow⟩ := h.join hv
    exact ⟨e, he, hshow, h.respRot he⟩

end IntercoConfig

/-! ## A small tile -/

/-- Four banks in two superbanks. -/
def fourBanks : IntercoConfig where
  numBanksPerTile := 4
  numSuperbanks := 2
  spmBankIdRemap := true
  banks_pow := four_pow
  superbanks_pow := by decide
  banksPerSB_two := by decide

abbrev FourBanksIn := TileIn (fourBanks.bankOffsetBits + 2) Nat

/-- A cycle without requests in which everybody is ready. -/
def quietCycle : FourBanksIn where
  narrow _ := none
  grant _ := 0
  wideNew := none
  bankReady _ := true
  junk _ := 0
  respValid _ := true
  narrowRespReady _ := true
  wideRespSel := 0
  wideRespReady := true

/-- The first cycles of a run as a list. -/
def tileCycles (cycles : List FourBanksIn) (t : Nat) : FourBanksIn := cycles.getD t quietCycle

end TeraNoC.Hw
