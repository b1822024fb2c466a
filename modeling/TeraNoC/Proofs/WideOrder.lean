import TeraNoC.Proofs.TileInterco

/-!
# The order of wide responses

A superbank answers its wide requests in order, but nothing orders the superbanks:
the response mux takes whichever joins first, and a narrow response that is not
taken holds up the join of its superbank alone. So the responses come back in
request order as long as the requests outstanding are all in one superbank
(`wide_order`), and out of order otherwise (`wide_order_broken`).

With the requests outstanding in one superbank, the superbanks of the delivered
responses are the first superbanks of the accepted requests (`InOrder`); the
responses of each superbank being in order, all are (`forall₂_of_filters`).
-/

namespace TeraNoC.Hw

open TeraNoC.Lib

/-- Two lists with the same keys that are related key by key are related. -/
theorem forall₂_of_filters {α β : Type} {R : α → β → Prop} {key : α → Nat} {key' : β → Nat} :
    ∀ {l : List α} {l' : List β}, l.map key = l'.map key' →
      (∀ d, List.Forall₂ R (l.filter (key · == d)) (l'.filter (key' · == d))) →
      List.Forall₂ R l l' := by
  intro l
  induction l with
  | nil =>
      intro l' hkeys _
      cases l' with
      | nil => exact .nil
      | cons y l' => cases hkeys
  | cons x l ih =>
      intro l' hkeys hall
      cases l' with
      | nil => cases hkeys
      | cons y l' =>
          rw [List.map_cons, List.map_cons, List.cons.injEq] at hkeys
          obtain ⟨hkey, hrest⟩ := hkeys
          refine .cons ?_ (ih hrest fun d => ?_)
          · have h := hall (key x)
            rw [List.filter_cons_of_pos (by simp), List.filter_cons_of_pos (by simp [hkey])] at h
            exact (List.forall₂_cons.mp h).1
          · have h := hall d
            by_cases hd : key x = d
            · rw [List.filter_cons_of_pos (by simp [hd]),
                List.filter_cons_of_pos (by simp [← hkey, hd])] at h
              exact (List.forall₂_cons.mp h).2
            · rw [List.filter_cons_of_neg (by simp [hd]),
                List.filter_cons_of_neg (by simp [← hkey, hd])] at h
              exact h

namespace IntercoConfig

variable {q : IntercoConfig} {F : TileCells q.numBanksPerSB} {rowBits : Nat} {M : Type}
variable {s : TileState F (q.bankOffsetBits + rowBits) M}
variable {i : TileIn (q.bankOffsetBits + rowBits) M}

variable (q) in
/-- The superbanks of the accepted requests and of the delivered responses. -/
def acceptedSbs (s : TileState F (q.bankOffsetBits + rowBits) M) : List Nat :=
  s.accepted.map fun r => q.wideSel r.tgtAddr.toNat

def deliveredSbs (s : TileState F (q.bankOffsetBits + rowBits) M) : List Nat :=
  s.delivered.map (·.1)

variable (q) in
/-- No wide request is outstanding outside superbank `d`. -/
def OnlyIn (s : TileState F (q.bankOffsetBits + rowBits) M) (d : Nat) : Prop :=
  ∀ d', d' ≠ d → (deliveredOf s d').length = (q.acceptedOf s d').length

variable (q) in
/-- A wide request is accepted only when no other superbank has one outstanding. -/
def OneAtATime (s : TileState F (q.bankOffsetBits + rowBits) M)
    (i : TileIn (q.bankOffsetBits + rowBits) M) : Prop :=
  ∀ r, q.slvWideReq s i = some r → q.slvWideReqReady s i = true →
    q.OnlyIn s (q.wideSel r.tgtAddr.toNat)

theorem count_acceptedSbs (d : Nat) : (q.acceptedSbs s).count d = (q.acceptedOf s d).length := by
  have hzip : s.accepted = s.accepted.zipIdx.map (·.1) := by simp
  rw [acceptedSbs, acceptedOf, List.count, List.countP_map, ← List.countP_eq_length_filter]
  conv_lhs => rw [hzip]
  rw [List.countP_map]
  rfl

theorem count_deliveredSbs (d : Nat) : (deliveredSbs s).count d = (deliveredOf s d).length := by
  rw [deliveredSbs, deliveredOf, List.count, List.countP_map, List.length_map,
    ← List.countP_eq_length_filter]
  rfl

variable (q) in
structure InOrder (s : TileState F (q.bankOffsetBits + rowBits) M) : Prop where
  order : ∃ rest, q.acceptedSbs s = deliveredSbs s ++ rest
  single : ∃ d, q.OnlyIn s d

/-- What is outstanding is in one superbank, so the next response is for the next
request. -/
theorem InOrder.next_sb (h : InOrder q s) {d : Nat}
    (hlt : (deliveredOf s d).length < (q.acceptedOf s d).length) :
    ∃ rest, q.acceptedSbs s = deliveredSbs s ++ d :: rest := by
  obtain ⟨rest, hrest⟩ := h.order
  obtain ⟨d₀, hd₀⟩ := h.single
  have hd : d = d₀ := by
    by_contra hne
    have := hd₀ d hne
    omega
  have hcount : ∀ d', rest.count d' = (q.acceptedOf s d').length - (deliveredOf s d').length := by
    intro d'
    have := congrArg (List.count d') hrest
    rw [List.count_append, count_acceptedSbs, count_deliveredSbs] at this
    omega
  cases rest with
  | nil =>
      have := hcount d
      rw [List.count_nil] at this
      omega
  | cons d' rest =>
      refine ⟨rest, ?_⟩
      have hd' : d' = d₀ := by
        by_contra hne
        have hzero := hcount d'
        rw [hd₀ d' hne, Nat.sub_self, List.count_cons_self] at hzero
        omega
      rw [hrest, hd', hd]

theorem acceptedSbs_next : q.acceptedSbs (q.tileNext s i)
    = q.acceptedSbs s ++ if q.slvWideReqReady s i then
        (q.slvWideReq s i).toList.map fun r => q.wideSel r.tgtAddr.toNat else [] := by
  show List.map _ (if q.slvWideReqReady s i then s.accepted ++ (q.slvWideReq s i).toList
    else s.accepted) = _
  split
  · rw [List.map_append]
    rfl
  · rw [List.append_nil]
    rfl

/-- A superbank with nothing outstanding that takes nothing new has still nothing. -/
theorem answered_all_next {d : Nat} (hinv : SbInv q s d)
    (heq : (deliveredOf s d).length = (q.acceptedOf s d).length)
    (hacc : q.wideAccReady s i d = false) :
    (deliveredOf (q.tileNext s i) d).length = (q.acceptedOf (q.tileNext s i) d).length := by
  have hf : q.sbWideRespFire s i d = false := by
    rw [← Bool.not_eq_true]
    intro hf
    have := hinv.fire_lt hf
    omega
  rw [deliveredOf_next hinv, acceptedOf_next, hf, hacc]
  simpa using heq

theorem InOrder.single_next (h : InOrder q s) (hinv : ∀ d, SbInv q s d)
    (hone : q.OneAtATime s i) : ∃ d, q.OnlyIn (q.tileNext s i) d := by
  cases hready : q.slvWideReqReady s i with
  | false =>
      obtain ⟨d, hd⟩ := h.single
      exact ⟨d, fun d' hne =>
        answered_all_next (hinv d') (hd d' hne) (wideAccReady_of_not_ready hready d')⟩
  | true =>
      cases hr : q.slvWideReq s i with
      | none =>
          rw [IntercoParams.slvWideReqReady, hr] at hready
          cases hready
      | some r =>
          exact ⟨q.wideSel r.tgtAddr.toNat, fun d' hne =>
            answered_all_next (hinv d') (hone r hr hready d' hne)
              (wideAccReady_of_ne hr (Ne.symm hne))⟩

theorem InOrder.order_next (h : InOrder q s) (hinv : ∀ d, SbInv q s d) :
    ∃ rest, q.acceptedSbs (q.tileNext s i) = deliveredSbs (q.tileNext s i) ++ rest := by
  rw [acceptedSbs_next]
  generalize (if q.slvWideReqReady s i then _ else _) = new
  have hdel : deliveredSbs (q.tileNext s i)
      = List.map (·.1) (if q.sbWideRespFire s i (q.wideRespSb i) then
          s.delivered ++ ((q.sbWideResp s i (q.wideRespSb i)).map (q.wideRespSb i, ·)).toList
        else s.delivered) := rfl
  rw [hdel]
  split
  · rename_i hf
    obtain ⟨rest, hrest⟩ := h.next_sb ((hinv _).fire_lt hf)
    obtain ⟨-, resp, -, hresp, -⟩ := (hinv _).resp (sbWideRespFire_valid hf)
    refine ⟨rest ++ new, ?_⟩
    rw [hrest, hresp]
    simp [deliveredSbs]
  · obtain ⟨rest, hrest⟩ := h.order
    exact ⟨rest ++ new, by rw [hrest, List.append_assoc]; rfl⟩

theorem InOrder.next (h : InOrder q s) (hinv : ∀ d, SbInv q s d) (hone : q.OneAtATime s i) :
    InOrder q (q.tileNext s i) where
  order := h.order_next hinv
  single := h.single_next hinv hone

/-- In order and each superbank in order: every response answers its request. -/
theorem InOrder.answers (h : InOrder q s) (hinv : ∀ d, SbInv q s d) :
    List.Forall₂ (fun e resp => q.Answers s e resp.2) (s.accepted.zipIdx.take s.delivered.length)
      s.delivered := by
  obtain ⟨rest, hrest⟩ := h.order
  have hkeys : (s.accepted.zipIdx.take s.delivered.length).map
      (fun e => q.wideSel e.1.tgtAddr.toNat) = s.delivered.map (·.1) := by
    have hmap : s.accepted.zipIdx.map (fun e => q.wideSel e.1.tgtAddr.toNat) = q.acceptedSbs s := by
      have hzip : s.accepted = s.accepted.zipIdx.map (·.1) := by simp
      rw [acceptedSbs]
      conv_rhs => rw [hzip, List.map_map]
      rfl
    rw [List.map_take, hmap, hrest, List.take_left' (by rw [deliveredSbs, List.length_map])]
    rfl
  refine forall₂_of_filters hkeys fun d => ?_
  -- the requests of a superbank among the first are its first requests
  have hsplit : q.acceptedOf s d
      = (s.accepted.zipIdx.take s.delivered.length).filter
          (fun e => q.wideSel e.1.tgtAddr.toNat == d) ++
        (s.accepted.zipIdx.drop s.delivered.length).filter
          (fun e => q.wideSel e.1.tgtAddr.toNat == d) := by
    rw [← List.filter_append, List.take_append_drop, acceptedOf]
  have hlen : ((s.accepted.zipIdx.take s.delivered.length).filter
      (fun e => q.wideSel e.1.tgtAddr.toNat == d)).length = (deliveredOf s d).length := by
    have := congrArg (List.count d) hkeys
    simp only [List.count, List.countP_map] at this
    rw [deliveredOf, List.length_map, ← List.countP_eq_length_filter,
      ← List.countP_eq_length_filter]
    exact this
  have hans := (hinv d).answers
  rw [hsplit, List.take_left' hlen, deliveredOf] at hans
  exact List.forall₂_map_right_iff.mp hans

theorem inOrder_after (mem : Nat → Nat → Word)
    {inp : Nat → TileIn (q.bankOffsetBits + rowBits) M}
    (hone : ∀ t, q.OneAtATime (q.tileAfter (.reset mem : TileState F _ M) inp t) (inp t))
    (t : Nat) : InOrder q (q.tileAfter (.reset mem : TileState F _ M) inp t) := by
  induction t with
  | zero => exact ⟨⟨[], rfl⟩, 0, fun _ _ => rfl⟩
  | succ t ih => exact ih.next (fun d => sbInv_after mem inp d t) (hone t)

/-- With a single superbank there is nothing to wait for. -/
theorem oneAtATime_of_single (hsingle : q.numSuperbanks = 1) (hinv : ∀ d, SbInv q s d) :
    q.OneAtATime s i := by
  intro r _ _ d hne
  have hsel : ∀ a, q.wideSel a = 0 := fun a => by
    rw [IntercoParams.wideSel, if_neg (by omega)]
  rw [hsel] at hne
  have hnone : q.acceptedOf s d = [] := by
    rw [acceptedOf, List.filter_eq_nil_iff]
    intro e _
    rw [hsel]
    simpa using Ne.symm hne
  have := (hinv d).length_le
  rw [hnone] at this ⊢
  exact Nat.le_zero.mp this

end IntercoConfig

/-- In every run that accepts a wide request only while no other superbank has one
outstanding, the `k`-th wide response answers the `k`-th accepted wide request. -/
theorem wide_order (q : IntercoConfig) (F : TileCells q.numBanksPerSB) {rowBits : Nat} {M : Type}
    (mem : Nat → Nat → Word) (inp : Nat → TileIn (q.bankOffsetBits + rowBits) M)
    (hone : ∀ t, q.OneAtATime (q.tileAfter (.reset mem : TileState F _ M) inp t) (inp t))
    (t k d : Nat) (resp : WideResp M)
    (hk : (q.tileAfter (.reset mem : TileState F _ M) inp t).delivered[k]? = some (d, resp)) :
    ∃ r, (q.tileAfter (.reset mem : TileState F _ M) inp t).accepted[k]? = some r ∧
      q.Answers (q.tileAfter (.reset mem : TileState F _ M) inp t) (r, k) resp := by
  have hall := (IntercoConfig.inOrder_after mem hone t).answers
    fun d => IntercoConfig.sbInv_after mem inp d t
  generalize q.tileAfter (.reset mem : TileState F _ M) inp t = s at *
  obtain ⟨hlen, hget⟩ := List.forall₂_iff_get.mp hall
  obtain ⟨hk', hresp⟩ := List.getElem?_eq_some_iff.mp hk
  have hk'' : k < (s.accepted.zipIdx.take s.delivered.length).length := by rw [hlen]; exact hk'
  have hans := hget k hk'' hk'
  have hacc : k < s.accepted.length := by
    rw [List.length_take, List.length_zipIdx] at hk''
    omega
  refine ⟨s.accepted[k], List.getElem?_eq_getElem hacc, ?_⟩
  simpa [hresp] using hans

/-- A wide read of the superbank of logical word `2 * d`. -/
def wideRead (d : Nat) : WideReq (fourBanks.bankOffsetBits + 2) Nat where
  tgtAddr := BitVec.ofNat _ (2 * d)
  wen := false
  be _ := 0
  wdata _ := 0
  metadata := 10 + d

/-- A read of superbank 0, and one of superbank 1 after its response. -/
def twoReads : Nat → FourBanksIn := tileCycles
  [ { quietCycle with wideNew := some (wideRead 0) },
    quietCycle,
    { quietCycle with wideNew := some (wideRead 1) },
    { quietCycle with wideRespSel := 1 } ]

def twoReadsState (t : Nat) :
    TileState (TileCells.list fourBanks.numBanksPerSB) (fourBanks.bankOffsetBits + 2) Nat :=
  fourBanks.tileAfter (.reset fun _ _ => 0) twoReads t

theorem twoReads_wide (t : Nat) : (twoReadsState (t + 3)).wide = none := by
  induction t with
  | zero => rfl
  | succ t ih =>
      show (if _ then none else (twoReadsState (t + 3)).wide.or (twoReads (t + 3)).wideNew) = none
      have hnew : (twoReads (t + 3)).wideNew = none := by
        cases t with
        | zero => rfl
        | succ t => rfl
      rw [ih, hnew, Option.or_none, ite_self]

theorem twoReads_oneAtATime (t : Nat) :
    fourBanks.OneAtATime (twoReadsState t) (twoReads t) := by
  match t with
  | 0 => exact fun _ _ _ _ _ => rfl
  | 1 => intro r hr; cases hr
  | 2 =>
      intro r hr _ d hne
      cases hr
      match d with
      | 0 => rfl
      | 1 => exact absurd rfl hne
      | d + 2 => rfl
  | t + 3 =>
      intro r hr
      have hnone : (twoReadsState (t + 3)).wide.or (twoReads (t + 3)).wideNew = none := by
        rw [twoReads_wide]
        cases t with
        | zero => rfl
        | succ t => rfl
      rw [IntercoParams.slvWideReq, hnone] at hr
      cases hr

theorem wide_order_twoReads :
    ∃ resp, (twoReadsState 4).delivered[1]? = some (1, resp) ∧ resp.metadata = 11 ∧
      ∃ r, (twoReadsState 4).accepted[1]? = some r ∧
        fourBanks.Answers (twoReadsState 4) (r, 1) resp :=
  ⟨_, rfl, rfl, wide_order fourBanks (.list _) (fun _ _ => 0) twoReads
    twoReads_oneAtATime 4 1 1 _ rfl⟩

/-- A narrow load of logical word 0, whose response is not taken, and then the
reads of the two superbanks one after the other. -/
def overtaking : Nat → FourBanksIn := tileCycles
  [ { quietCycle with narrow := fun _ => some { tgtAddr := 0, wen := false, be := 0, wdata := 0,
                                                metadata := 1 } },
    { quietCycle with wideNew := some (wideRead 0), narrowRespReady := fun _ => false },
    { quietCycle with wideNew := some (wideRead 1), narrowRespReady := fun _ => false },
    { quietCycle with wideRespSel := 1, narrowRespReady := fun _ => false } ]

def overtakingState :
    TileState (TileCells.list fourBanks.numBanksPerSB) (fourBanks.bankOffsetBits + 2) Nat :=
  fourBanks.tileAfter (.reset fun _ _ => 0) overtaking 4

/-- The first response is the one to the second request. -/
theorem wide_order_broken :
    ∃ d resp r, overtakingState.delivered[0]? = some (d, resp) ∧
      overtakingState.accepted[0]? = some r ∧
      ¬ fourBanks.Answers overtakingState (r, 0) resp := by
  refine ⟨1, _, wideRead 0, rfl, rfl, ?_⟩
  intro hans
  have hmeta : 11 = 10 := hans.2
  omega

end TeraNoC.Hw
