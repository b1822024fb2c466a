import Mathlib.Data.List.Induction
import TeraNoC.Hw.BankMetadata
import TeraNoC.Proofs.TcdmAdapter

/-!
# LR/SC between harts

The adapter keeps one reservation and knows its holder only by
`unique_core_id`. Over that identity it does the right thing; the question is
whether the identity tells harts apart. It does not: the DMA has the identity
of local core 0 in every configuration, and with a power-of-two number of cores
per tile a remote core shares its identity with cores of other groups and other
indices. `sc_atomic` therefore holds of the runs in which no hart writes the
reserved word under the identity of the hart that reserved it (`Honest`).

The invariant `Linked` carries a reservation back to the LR that placed it and
says that nobody else has written the word since.
-/

namespace TeraNoC.Hw

open TeraNoC.Lib

variable {Addr : Type} [DecidableEq Addr]

/-! ## What a step does to the reservation -/

section Lrsc

variable {Meta : Type} {p : AdapterParams Meta} {q : Reservation Addr} {r : BankReq Addr Meta}

theorem lrsc_success :
    (lrsc p q r).2 = true ↔
      q.valid = true ∧ r.amo = .sc ∧ q.core = p.uniqueCoreId r.metadata ∧
        q.addr = r.address := by
  simp only [lrsc]
  split
  · rename_i h
    simp [h.1, h.2.1, h.2.2]
  · rename_i h
    simp only [Bool.false_eq_true, false_iff]
    exact fun hcon => h ⟨hcon.1, hcon.2.1, hcon.2.2.1⟩

/-- A reservation that is valid after a request was placed by it, or was there before
and nobody else has attempted to write its word. -/
theorem lrsc_valid (h : (lrsc p q r).1.valid = true) :
    ((r.amo = .lr ∧ (q.valid = false ∨ q.core = p.uniqueCoreId r.metadata)) ∧
      (lrsc p q r).1.addr = r.address) ∨
    (q.valid = true ∧ (lrsc p q r).1.addr = q.addr ∧ (lrsc p q r).1.core = q.core ∧
      ¬ (r.amo = .lr ∧ (q.valid = false ∨ q.core = p.uniqueCoreId r.metadata)) ∧
      (r.address = q.addr → (r.amo.modifies = true ∨ r.write = true) →
        p.uniqueCoreId r.metadata = q.core) ∧
      (lrsc p q r).2 = false) := by
  simp only [lrsc] at h ⊢
  split at h
  · simp at h
  · rename_i hsc
    rw [if_neg hsc]
    split at h
    · simp at h
    · rename_i hw
      rw [if_neg hw]
      split at h
      · rename_i hlr
        rw [if_pos hlr]
        exact .inl ⟨hlr, rfl⟩
      · rename_i hlr
        rw [if_neg hlr]
        refine .inr ⟨h, rfl, rfl, hlr, fun ha hm => ?_, rfl⟩
        by_contra hne
        exact hw ⟨hne, ha, by simpa using hm⟩

end Lrsc

/-! ## Histories -/

/-- The requests a bank has accepted, with their origins. -/
abbrev History (Addr : Type) := List (BankReq Addr Origin)

variable (p : AdapterParams Origin) (s0 : SpecState Addr)

/-- One request on the memory, and on a note of who placed the reservation. -/
def placeStep (x : SpecState Addr × Option Hart) (r : BankReq Addr Origin) :
    SpecState Addr × Option Hart :=
  ((specExec p x.1 r).1,
    if r.amo = .lr ∧ (x.1.resv.valid = false ∨ x.1.resv.core = p.uniqueCoreId r.metadata)
    then some r.metadata.hart else x.2)

/-- The hart that placed the reservation now in the register. -/
def placer (rs : History Addr) : Option Hart := (rs.foldl (placeStep p) (s0, none)).2

/-- Request `r` has the identity under which the word it attempts to write is
reserved only if it comes from the hart that reserved it. -/
def Honest (rs : History Addr) (r : BankReq Addr Origin) : Prop :=
  (specState p s0 rs).resv.valid = true →
  (specState p s0 rs).resv.core = p.uniqueCoreId r.metadata →
  (specState p s0 rs).resv.addr = r.address →
  (r.write = true ∨ r.amo.modifies = true ∨ r.amo = .sc) →
  placer p s0 rs = some r.metadata.hart

instance (rs : History Addr) (r : BankReq Addr Origin) : Decidable (Honest p s0 rs r) :=
  inferInstanceAs (Decidable (_ → _ → _ → _ → _ = _))

/-- Request `j` of the history is a successful SC. -/
def ScSucceeds (rs : History Addr) (j : Nat) : Prop :=
  ∃ r, rs[j]? = some r ∧ r.amo = .sc ∧ (lrsc p (specState p s0 (rs.take j)).resv r).2 = true

/-- Request `j` of the history writes word `a` for another hart than `h`. -/
def WrittenByOther (rs : History Addr) (h : Hart) (a : Addr) (j : Nat) : Prop :=
  ∃ r, rs[j]? = some r ∧ r.address = a ∧ r.metadata.hart ≠ h ∧
    (r.write = true ∨ r.amo.modifies = true ∨ ScSucceeds p s0 rs j)

/-- Hart `h` has executed an LR of word `a` before request `n`, and no other hart has
written the word in between. -/
def LinkedAt (rs : History Addr) (h : Hart) (a : Addr) (n : Nat) : Prop :=
  ∃ m < n, (∃ l, rs[m]? = some l ∧ l.amo = .lr ∧ l.address = a ∧ l.metadata.hart = h) ∧
    ∀ j, m < j → j < n → ¬ WrittenByOther p s0 rs h a j

/-- A valid reservation goes back to an LR of the hart that placed it. -/
def Linked (rs : History Addr) : Prop :=
  (specState p s0 rs).resv.valid = true →
    ∃ h, placer p s0 rs = some h ∧
      LinkedAt p s0 rs h (specState p s0 rs).resv.addr rs.length

section Linked

variable {p s0} {rs : History Addr} {r : BankReq Addr Origin}

theorem placeStep_fst (rs : History Addr) :
    (rs.foldl (placeStep p) (s0, none)).1 = specState p s0 rs := by
  induction rs using List.reverseRecOn with
  | nil => rfl
  | append_singleton rs r ih =>
      rw [List.foldl_append, specState_append, ← ih]
      rfl

theorem placer_append :
    placer p s0 (rs ++ [r]) =
      if r.amo = .lr ∧ ((specState p s0 rs).resv.valid = false ∨
          (specState p s0 rs).resv.core = p.uniqueCoreId r.metadata)
      then some r.metadata.hart else placer p s0 rs := by
  rw [placer, List.foldl_append, List.foldl_cons, List.foldl_nil, placeStep, placeStep_fst]
  rfl

theorem resv_append (hp : p.lrScEnable = true) :
    (specState p s0 (rs ++ [r])).resv = (lrsc p (specState p s0 rs).resv r).1 := by
  rw [specState_append, specExec, hp]
  rfl

/-- The past does not change. -/
theorem writtenByOther_append {h : Hart} {a : Addr} {j : Nat} (hj : j < rs.length) :
    WrittenByOther p s0 (rs ++ [r]) h a j ↔ WrittenByOther p s0 rs h a j := by
  have hget : (rs ++ [r])[j]? = rs[j]? := List.getElem?_append_left hj
  have htake : (rs ++ [r]).take j = rs.take j :=
    List.take_append_of_le_length (Nat.le_of_lt hj)
  simp only [WrittenByOther, ScSucceeds, hget, htake]

theorem Linked.append (hp : p.lrScEnable = true) (hl : Linked p s0 rs)
    (hr : Honest p s0 rs r) : Linked p s0 (rs ++ [r]) := by
  intro hvalid
  have hlast : (rs ++ [r])[rs.length]? = some r := by simp
  rw [resv_append hp] at hvalid ⊢
  rw [placer_append, List.length_append, List.length_singleton]
  rcases lrsc_valid hvalid with ⟨hlr, haddr⟩ | ⟨hq, haddr, hcore, hlr, hwrite, hfail⟩
  · -- placed by this request
    rw [if_pos hlr, haddr]
    refine ⟨_, rfl, rs.length, Nat.lt_succ_self _, ⟨r, hlast, hlr.1, rfl, rfl⟩, ?_⟩
    intro j h1 h2
    omega
  · -- kept from before
    rw [if_neg hlr, haddr]
    obtain ⟨h, hplace, m, hm, ⟨l, hget, hl'⟩, hbetween⟩ := hl hq
    refine ⟨h, hplace, m, by omega, ⟨l, ?_, hl'⟩, ?_⟩
    · rw [List.getElem?_append_left hm]
      exact hget
    · intro j h1 h2
      rcases Nat.lt_or_ge j rs.length with hj | hj
      · rw [writtenByOther_append hj]
        exact hbetween j h1 hj
      · have hjn : j = rs.length := by omega
        subst hjn
        rintro ⟨q, hq', ha, hne, hw⟩
        obtain rfl := Option.some.inj (hlast.symm.trans hq')
        have hstore : ¬ (r.write = true ∨ r.amo.modifies = true) := by
          intro hw
          have hid := hwrite ha (by tauto)
          have howner := hr hq hid.symm ha.symm (by tauto)
          rw [hplace] at howner
          exact hne (Option.some.inj howner).symm
        rcases hw with hw | hw | ⟨q', hq'', -, hsucc⟩
        · exact hstore (.inl hw)
        · exact hstore (.inr hw)
        · obtain rfl := Option.some.inj (hlast.symm.trans hq'')
          rw [List.take_left, hfail] at hsucc
          cases hsucc

theorem linked_history (hp : p.lrScEnable = true) (hs0 : s0.resv.valid = false)
    (hrs : ∀ n r, rs[n]? = some r → Honest p s0 (rs.take n) r) :
    Linked p s0 rs := by
  induction rs using List.reverseRecOn with
  | nil =>
      intro h
      rw [specState, List.foldl_nil, hs0] at h
      cases h
  | append_singleton rs r ih =>
      refine (ih fun n q hq => ?_).append hp ?_
      · have hn : n < rs.length := (List.getElem?_eq_some_iff.mp hq).1
        have := hrs n q (by rw [List.getElem?_append_left hn]; exact hq)
        rwa [List.take_append_of_le_length (Nat.le_of_lt hn)] at this
      · have := hrs rs.length r (by simp)
        rwa [List.take_left] at this

/-- An SC that succeeds is linked. -/
theorem linkedAt_of_success (hp : p.lrScEnable = true) (hs0 : s0.resv.valid = false)
    (hrs : ∀ n r, rs[n]? = some r → Honest p s0 (rs.take n) r) {n : Nat}
    (hn : rs[n]? = some r) (hsc : r.amo = .sc)
    (hsucc : (lrsc p (specState p s0 (rs.take n)).resv r).2 = true) :
    LinkedAt p s0 rs r.metadata.hart r.address n := by
  obtain ⟨hvalid, -, hcore, haddr⟩ := lrsc_success.mp hsucc
  have hnlt : n < rs.length := (List.getElem?_eq_some_iff.mp hn).1
  have howner := hrs n r hn hvalid hcore haddr (.inr (.inr hsc))
  have hlinked : Linked p s0 (rs.take n) := by
    refine linked_history hp hs0 fun k q hq => ?_
    rw [List.getElem?_take] at hq
    split at hq
    · rename_i hk
      have := hrs k q hq
      rwa [List.take_take, Nat.min_eq_left (Nat.le_of_lt hk)]
    · cases hq
  obtain ⟨h, hplace, m, hm, ⟨l, hget, hl⟩, hbetween⟩ := hlinked hvalid
  rw [howner] at hplace
  obtain rfl := Option.some.inj hplace
  rw [haddr] at hl hbetween
  rw [List.length_take, Nat.min_eq_left (Nat.le_of_lt hnlt)] at hm hbetween
  refine ⟨m, hm, ⟨l, ?_, hl⟩, fun j h1 h2 hw => hbetween j h1 h2 ?_⟩
  · rw [List.getElem?_take, if_pos hm] at hget
    exact hget
  · obtain ⟨q, hq, ha, hne, hw⟩ := hw
    refine ⟨q, by rw [List.getElem?_take, if_pos h2]; exact hq, ha, hne, ?_⟩
    rcases hw with hw | hw | ⟨q', hq', hsc', hs⟩
    · exact .inl hw
    · exact .inr (.inl hw)
    · refine .inr (.inr ⟨q', by rw [List.getElem?_take, if_pos h2]; exact hq', hsc', ?_⟩)
      rwa [List.take_take, Nat.min_eq_left (Nat.le_of_lt h2)]

end Linked

/-! ## At the bank -/

/-- The answer to an SC that the bank has delivered. -/
theorem delivered_sc {k : AdapterCells Origin} {b : BankState Addr k}
    {done pend : List (Origin × Option Word)} (h : Refines p s0 b done pend)
    (hp : p.lrScEnable = true) {n : Nat} {r : BankReq Addr Origin} {o : Origin} {w : Word}
    (hn : b.accepted[n]? = some r) (hsc : r.amo = .sc) (hd : b.delivered[n]? = some (o, w)) :
    w = if (lrsc p (specState p s0 (b.accepted.take n)).resv r).2 then 0 else 1 := by
  obtain ⟨hlt, hget⟩ := List.getElem?_eq_some_iff.mp hd
  have hlen := h.delivered.length_eq
  have hres := specResps_getElem? p s0 hn
  rw [h.split, List.getElem?_append_left (by omega),
    List.getElem?_eq_getElem (by omega)] at hres
  have hans := List.forall₂_iff_get.mp h.delivered |>.2 n hlt (by omega)
  have hdata := hans.2
  simp only [List.get_eq_getElem, hget, Option.some.inj hres] at hdata
  refine hdata _ ?_
  simp [specExec, hp, hsc]

/-- An SC that was answered with success was preceded by an LR of the same hart to
the same word, and no other hart wrote the word in between. -/
def ScAtomic (accepted : History Addr) (delivered : List (Origin × Word)) : Prop :=
  ∀ (n : Nat) (r : BankReq Addr Origin) (o : Origin), accepted[n]? = some r → r.amo = .sc →
    delivered[n]? = some (o, 0) →
    ∃ m < n,
      (∃ l : BankReq Addr Origin, accepted[m]? = some l ∧ l.amo = .lr ∧
        l.address = r.address ∧ l.metadata.hart = r.metadata.hart) ∧
      ∀ (j : Nat) (q : BankReq Addr Origin), m < j → j < n → accepted[j]? = some q →
        q.address = r.address → q.metadata.hart ≠ r.metadata.hart →
        ¬ (q.write = true ∨ q.amo.modifies = true ∨
          (q.amo = .sc ∧ ∃ o', delivered[j]? = some (o', 0)))

/-- The specification's state of a bank out of reset. -/
def resetSpec [Inhabited Addr] (sram : SramState Addr) : SpecState Addr where
  mem := sram.mem
  resv := { valid := false, addr := default, core := 0 }

/-- LR/SC is atomic between harts, in every run in which a write attempt under the
identity of the reservation's holder comes from that holder. -/
theorem sc_atomic [Inhabited Addr] (c : Params) (group : Nat) (k : AdapterCells Origin)
    (sram : SramState Addr) (cycles : List (AdapterIn Addr Origin × Word))
    (hwf : ∀ x ∈ cycles, x.1.valid = true → x.1.req.write = true → x.1.req.amo = .none)
    (hhonest : ∀ n r,
      ((BankState.reset k sram).run (c.bankAdapter group) cycles).accepted[n]? = some r →
      Honest (c.bankAdapter group) (resetSpec sram)
        (((BankState.reset k sram).run (c.bankAdapter group) cycles).accepted.take n) r) :
    ScAtomic ((BankState.reset k sram).run (c.bankAdapter group) cycles).accepted
      ((BankState.reset k sram).run (c.bankAdapter group) cycles).delivered := by
  intro n r o hn hsc hd
  obtain ⟨done, pend, h⟩ := (Refines.reset (p := c.bankAdapter group) (k := k) sram).run hwf
  -- the answers, read back as the reservation logic's verdicts
  have hzero : ∀ {j : Nat} {q : BankReq Addr Origin} {o' : Origin},
      ((BankState.reset k sram).run (c.bankAdapter group) cycles).accepted[j]? = some q →
      q.amo = .sc →
      ((BankState.reset k sram).run (c.bankAdapter group) cycles).delivered[j]?
        = some (o', 0) →
      (lrsc (c.bankAdapter group) (specState (c.bankAdapter group) (resetSpec sram)
        (((BankState.reset k sram).run (c.bankAdapter group) cycles).accepted.take j)).resv
          q).2 = true := by
    intro j q o' hq hqsc hqd
    have hw := delivered_sc _ (resetSpec sram) h rfl hq hqsc hqd
    by_contra hno
    rw [if_neg hno] at hw
    exact absurd hw (by decide)
  obtain ⟨m, hm, hl, hbetween⟩ :=
    linkedAt_of_success rfl rfl hhonest hn hsc (hzero hn hsc hd)
  refine ⟨m, hm, hl, fun j q h1 h2 hq ha hne hw => hbetween j h1 h2 ⟨q, hq, ha, hne, ?_⟩⟩
  rcases hw with hw | hw | ⟨hqsc, o', hd'⟩
  · exact .inl hw
  · exact .inr (.inl hw)
  · exact .inr (.inr ⟨q, hq, hqsc, hzero hq hqsc hd'⟩)

/-! ## Two runs on minpool -/

def originCells : AdapterCells Origin where
  metaReg := @StreamFifo.list Origin ⟨⟨.dma, 0, 0⟩⟩ 2
  rdataFifo := .list Word 2

/-- One request of a hart, with the response port open. -/
def ask (h : Hart) (amo : AmoOp) (write : Bool) : AdapterIn (BitVec 4) Origin × Word :=
  ({ valid := true, respReady := true
     req := { address := 3, amo := amo, write := write, wdata := 5, be := 0b1111
              metadata := { hart := h, port := 0, metaId := 0 } } }, 0)

/-- LR by local core 0, store by `other`, SC by local core 0, and a load that lets the
last answer out. -/
def raceCycles (other : Hart) : List (AdapterIn (BitVec 4) Origin × Word) :=
  [ask (.localCore 0) .lr false, ask other .none true, ask (.localCore 0) .sc false,
    ask (.localCore 0) .none false]

def raceRun (other : Hart) : BankState (BitVec 4) originCells :=
  (BankState.reset originCells { mem := fun _ => 0, rdata := 0 }).run
    ((minpool false false).bankAdapter 0) (raceCycles other)

/-- The DMA overwrites the word local core 0 has reserved, and the SC succeeds. -/
theorem sc_over_dma_store :
    ¬ ScAtomic (raceRun .dma).accepted (raceRun .dma).delivered := by
  intro h
  obtain ⟨m, hm, ⟨l, hl, hlr, -, -⟩, hbetween⟩ :=
    h 2 (ask (.localCore 0) .sc false).1.req ⟨.localCore 0, 0, 0⟩ rfl rfl (by decide)
  have hstore : (raceRun .dma).accepted[1]? = some (ask .dma .none true).1.req := rfl
  rcases Nat.lt_or_ge m 1 with h0 | h1
  · exact hbetween 1 _ h0 (by decide) hstore rfl (by decide) (.inl rfl)
  · have hm1 : m = 1 := by omega
    subst hm1
    obtain rfl := Option.some.inj (hstore.symm.trans hl)
    cases hlr

/-- A store of another local core is seen, since local cores are told apart. -/
theorem sc_atomic_localCores :
    ScAtomic (raceRun (.localCore 1)).accepted (raceRun (.localCore 1)).delivered := by
  refine sc_atomic _ 0 originCells _ (raceCycles (.localCore 1)) ?_ ?_
  · intro x hx _ hw
    simp only [raceCycles, List.mem_cons, List.not_mem_nil, or_false] at hx
    rcases hx with rfl | rfl | rfl | rfl
    · cases hw
    · rfl
    · cases hw
    · cases hw
  · intro n r hn
    match n, hn with
    | 0, hn => obtain rfl := Option.some.inj hn; decide
    | 1, hn => obtain rfl := Option.some.inj hn; decide
    | 2, hn => obtain rfl := Option.some.inj hn; decide
    | 3, hn => obtain rfl := Option.some.inj hn; decide
    | _ + 4, hn => cases hn

end TeraNoC.Hw
