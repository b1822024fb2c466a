import TeraNoC.Proofs.BankResponses
import TeraNoC.Proofs.LrSc

/-!
# The reservation of one bank

LR/SC over the identity the adapter has, `unique_core_id`. `Reserved` says from
the history of accepted requests who holds the reservation and where, without
the register: an LR is granted unless another identity holds a reservation, and
a granted one lasts until its holder issues an SC or is granted another LR, or
somebody else stores to the word. `reserved_iff` is that the register is exactly
this, and the rest follows from what one SC does.

An LR or an SC does not have the write bit set; the core derives that bit from
the instruction being a plain store.
-/

namespace TeraNoC.Hw

open TeraNoC.Lib

variable {Addr Meta : Type} [DecidableEq Addr] (p : AdapterParams Meta)

/-- After `rs`, identity `i` holds the reservation, on word `a`. -/
def Reserved (rs : List (BankReq Addr Meta)) (i : Nat) (a : Addr) : Prop :=
  ∃ n, ∃ _ : n < rs.length,
    (∃ l, rs[n]? = some l ∧ l.amo = .lr ∧ p.uniqueCoreId l.metadata = i ∧ l.address = a) ∧
    -- granted
    (∀ j b, j ≠ i → ¬ Reserved (rs.take n) j b) ∧
    ∀ m, n < m → ∀ _ : m < rs.length, ∀ r, rs[m]? = some r →
      -- and neither replaced nor given up since
      (p.uniqueCoreId r.metadata = i → r.amo ≠ .sc ∧
        ¬ (r.amo = .lr ∧ ∀ j b, j ≠ i → ¬ Reserved (rs.take m) j b)) ∧
      -- nor taken away
      (p.uniqueCoreId r.metadata ≠ i → r.address = a →
        ¬ (r.write = true ∨ r.amo.modifies = true))
termination_by rs.length

section History

variable {p} {rs : List (BankReq Addr Meta)} {r : BankReq Addr Meta} {i : Nat} {a : Addr}

omit [DecidableEq Addr] in
/-- One more request. -/
theorem reserved_append :
    Reserved p (rs ++ [r]) i a ↔
      (r.amo = .lr ∧ p.uniqueCoreId r.metadata = i ∧ r.address = a ∧
        ∀ j b, j ≠ i → ¬ Reserved p rs j b) ∨
      (Reserved p rs i a ∧
        (p.uniqueCoreId r.metadata = i → r.amo ≠ .sc ∧
          ¬ (r.amo = .lr ∧ ∀ j b, j ≠ i → ¬ Reserved p rs j b)) ∧
        (p.uniqueCoreId r.metadata ≠ i → r.address = a →
          ¬ (r.write = true ∨ r.amo.modifies = true))) := by
  have hlast : (rs ++ [r])[rs.length]? = some r := by simp
  have hget : ∀ {m}, m < rs.length → (rs ++ [r])[m]? = rs[m]? := fun hm =>
    List.getElem?_append_left hm
  have htake : ∀ {m}, m < rs.length → (rs ++ [r]).take m = rs.take m := fun hm =>
    List.take_append_of_le_length (Nat.le_of_lt hm)
  have hlen : (rs ++ [r]).length = rs.length + 1 := by simp
  constructor
  · intro h
    rw [Reserved] at h
    obtain ⟨n, hn, ⟨l, hl, hlr⟩, hgrant, hlater⟩ := h
    rcases Nat.lt_or_ge n rs.length with hlt | hge
    · refine .inr ⟨?_, ?_⟩
      · rw [Reserved]
        refine ⟨n, hlt, ⟨l, (hget hlt) ▸ hl, hlr⟩, by rwa [htake hlt] at hgrant, ?_⟩
        intro m hnm hm q hq
        have := hlater m hnm (by omega) q (by rw [hget hm]; exact hq)
        rwa [htake hm] at this
      · have := hlater rs.length hlt (by omega) r hlast
        rwa [List.take_left] at this
    · -- the grant is the last request
      have hnl : n = rs.length := by omega
      subst hnl
      obtain rfl := Option.some.inj (hlast.symm.trans hl)
      rw [List.take_left] at hgrant
      exact .inl ⟨hlr.1, hlr.2.1, hlr.2.2, hgrant⟩
  · rintro (⟨hlr, hid, ha, hgrant⟩ | ⟨h, hr⟩)
    · rw [Reserved]
      refine ⟨rs.length, by omega, ⟨r, hlast, hlr, hid, ha⟩, by rwa [List.take_left], ?_⟩
      intro m h1 h2
      omega
    · rw [Reserved] at h ⊢
      obtain ⟨n, hn, ⟨l, hl, hlr⟩, hgrant, hlater⟩ := h
      refine ⟨n, by omega, ⟨l, (hget hn).trans hl, hlr⟩, by rwa [htake hn], ?_⟩
      intro m hnm hm q hq
      rcases Nat.lt_or_ge m rs.length with hlt | hge
      · rw [htake hlt]
        exact hlater m hnm hlt q (hget hlt ▸ hq)
      · have hml : m = rs.length := by omega
        subst hml
        obtain rfl := Option.some.inj (hlast.symm.trans hq)
        rw [List.take_left]
        exact hr

/-- The same step in the register. -/
theorem lrsc_holds {q : Reservation Addr}
    (hr : r.amo = .lr ∨ r.amo = .sc → r.write = false) :
    ((lrsc p q r).1.valid = true ∧ (lrsc p q r).1.core = i ∧ (lrsc p q r).1.addr = a) ↔
      (r.amo = .lr ∧ p.uniqueCoreId r.metadata = i ∧ r.address = a ∧
        (q.valid = false ∨ q.core = i)) ∨
      ((q.valid = true ∧ q.core = i ∧ q.addr = a) ∧
        (p.uniqueCoreId r.metadata = i → r.amo ≠ .sc ∧
          ¬ (r.amo = .lr ∧ (q.valid = false ∨ q.core = i))) ∧
        (p.uniqueCoreId r.metadata ≠ i → r.address = a →
          ¬ (r.write = true ∨ r.amo.modifies = true))) := by
  simp only [lrsc]
  generalize p.uniqueCoreId r.metadata = u
  grind [AmoOp.modifies]

variable [Inhabited Addr]

/-- The register after `rs`, out of reset. -/
def resvAfter (p : AdapterParams Meta) (rs : List (BankReq Addr Meta)) : Reservation Addr :=
  rs.foldl (fun q r => (lrsc p q r).1) { valid := false, addr := default, core := 0 }

theorem reserved_iff
    (hrs : ∀ r ∈ rs, r.amo = .lr ∨ r.amo = .sc → r.write = false) :
    Reserved p rs i a ↔
      (resvAfter p rs).valid = true ∧ (resvAfter p rs).core = i ∧ (resvAfter p rs).addr = a := by
  induction rs using List.reverseRecOn generalizing i a with
  | nil =>
      rw [Reserved]
      simp [resvAfter]
  | append_singleton rs r ih =>
      have ih := fun i a => @ih i a fun q hq => hrs q (List.mem_append_left _ hq)
      have hgrant : (∀ j b, j ≠ i → ¬ Reserved p rs j b) ↔
          ((resvAfter p rs).valid = false ∨ (resvAfter p rs).core = i) := by
        simp only [ih]
        constructor
        · intro h
          by_contra hno
          rw [not_or, Bool.not_eq_false] at hno
          exact h _ _ hno.2 ⟨hno.1, rfl, rfl⟩
        · rintro (h | h) j b hj ⟨hv, hc, -⟩
          · rw [h] at hv
            cases hv
          · exact hj (hc.symm.trans h)
      have hstep : resvAfter p (rs ++ [r]) = (lrsc p (resvAfter p rs) r).1 := by
        rw [resvAfter, List.foldl_append]
        rfl
      rw [reserved_append, hstep, lrsc_holds (hrs r (by simp)), hgrant, ih]

/-- The adapter's register is that of the requests it has accepted. -/
theorem reservationQ_trace (hp : p.lrScEnable = true) {k : AdapterCells Meta}
    (sram : SramState Addr) (inp : Nat → AdapterIn Addr Meta × Word) (n : Nat) :
    ((BankState.reset k sram).trace p inp n).adapter.reservationQ
      = resvAfter p ((BankState.reset k sram).trace p inp n).accepted := by
  induction n with
  | zero => rfl
  | succ n ih =>
      show reservationD p _ _ = resvAfter p (if _ then _ else _)
      rw [reservationD, hp, Bool.true_and]
      split
      · rw [ih, resvAfter, resvAfter, List.foldl_append]
        rfl
      · exact ih

theorem accepted_wf {k : AdapterCells Meta} (sram : SramState Addr)
    {inp : Nat → AdapterIn Addr Meta × Word}
    (hwf : ∀ n, (inp n).1.valid = true → (inp n).1.req.amo = .lr ∨ (inp n).1.req.amo = .sc →
      (inp n).1.req.write = false) (n : Nat) :
    ∀ r ∈ ((BankState.reset k sram).trace p inp n).accepted,
      r.amo = .lr ∨ r.amo = .sc → r.write = false := by
  induction n with
  | zero => intro r hr; cases hr
  | succ n ih =>
      intro r hr
      rw [BankState.trace, BankState.next] at hr
      simp only at hr
      split at hr
      · rename_i hf
        rw [fire, Bool.and_eq_true] at hf
        rcases List.mem_append.mp hr with hr | hr
        · exact ih r hr
        · obtain rfl := List.mem_singleton.mp hr
          exact hwf n hf.1
      · exact ih r hr

end History

/-! ## One SC -/

section Sc

variable {p} [Inhabited Addr] {k : AdapterCells Meta} {sram : SramState Addr}
variable {inp : Nat → AdapterIn Addr Meta × Word} {n : Nat}

/-- An accepted SC succeeds exactly when its issuer holds the reservation on its word. -/
theorem scSuccessfulD_iff (hp : p.lrScEnable = true)
    (hwf : ∀ n, (inp n).1.valid = true → (inp n).1.req.amo = .lr ∨ (inp n).1.req.amo = .sc →
      (inp n).1.req.write = false)
    (hf : fire ((BankState.reset k sram).trace p inp n).adapter (inp n).1 = true)
    (hsc : (inp n).1.req.amo = .sc) :
    scSuccessfulD p ((BankState.reset k sram).trace p inp n).adapter (inp n).1 = true ↔
      Reserved p ((BankState.reset k sram).trace p inp n).accepted
        (p.uniqueCoreId (inp n).1.req.metadata) (inp n).1.req.address := by
  rw [scSuccessfulD, hp, hf, Bool.true_and, Bool.true_and, lrsc_success,
    reserved_iff (accepted_wf sram hwf n), reservationQ_trace hp]
  exact ⟨fun h => ⟨h.1, h.2.2.1, h.2.2.2⟩, fun h => ⟨h.1, hsc, h.2.1, h.2.2⟩⟩

/-- It writes exactly when it succeeds. -/
theorem sc_mem (hw : (inp n).1.req.write = false)
    (hf : fire ((BankState.reset k sram).trace p inp n).adapter (inp n).1 = true)
    (hsc : (inp n).1.req.amo = .sc) :
    ((BankState.reset k sram).trace p inp (n + 1)).sram.mem =
      if scSuccessfulD p ((BankState.reset k sram).trace p inp n).adapter (inp n).1 then
        setWord ((BankState.reset k sram).trace p inp n).sram.mem (inp n).1.req.address
          (mergeBytes (inp n).1.req.be
            (((BankState.reset k sram).trace p inp n).sram.mem (inp n).1.req.address)
            (inp n).1.req.wdata)
      else ((BankState.reset k sram).trace p inp n).sram.mem := by
  obtain ⟨done, pend, -, hal⟩ :=
    aligned_trace inp (Refines.reset (p := p) (k := k) sram).aligned n
  obtain ⟨hph, -⟩ := fire_cases hal hf
  rw [BankState.trace]
  simp [BankState.next, SramState.next, sramPort, hph, hf, hsc, hw]

end Sc

/-- LR/SC at one bank out of reset. Request `n` being an SC, it writes its word and is
answered with 0 if its issuer holds the reservation on that word, and otherwise
writes nothing and is answered with 1; and never do two identities hold a
reservation. -/
theorem reservation_law [Inhabited Addr] (p : AdapterParams Meta) (k : AdapterCells Meta)
    (sram : SramState Addr) (inp : Nat → AdapterIn Addr Meta × Word)
    (hp : p.lrScEnable = true)
    (hwf : ∀ n, (inp n).1.valid = true → (inp n).1.req.amo = .lr ∨ (inp n).1.req.amo = .sc →
      (inp n).1.req.write = false) (n : Nat) :
    let b := (BankState.reset k sram).trace p inp
    let r := (inp n).1.req
    let holds := Reserved p (b n).accepted (p.uniqueCoreId r.metadata) r.address
    (fire (b n).adapter (inp n).1 = true → r.amo = .sc →
      (holds → (b (n + 1)).sram.mem
          = setWord (b n).sram.mem r.address
              (mergeBytes r.be ((b n).sram.mem r.address) r.wdata) ∧
        ∀ m d, (b m).delivered[(b n).accepted.length]? = some d → d = (r.metadata, 0)) ∧
      (¬ holds → (b (n + 1)).sram.mem = (b n).sram.mem ∧
        ∀ m d, (b m).delivered[(b n).accepted.length]? = some d → d = (r.metadata, 1))) ∧
    ∀ i j a c, Reserved p (b n).accepted i a → Reserved p (b n).accepted j c →
      i = j ∧ a = c := by
  intro b r holds
  refine ⟨fun hf hsc => ?_, fun i j a c hi hj => ?_⟩
  · have hvalid : (inp n).1.valid = true := by
      rw [fire, Bool.and_eq_true] at hf
      exact hf.1
    have hw : r.write = false := hwf n hvalid (.inr hsc)
    have hmem := sc_mem (p := p) (k := k) (n := n) hw hf hsc
    have hiff := scSuccessfulD_iff hp hwf hf hsc
    have hown : ∀ m d, (b m).delivered[(b n).accepted.length]? = some d →
        d = (r.metadata, if scSuccessfulD p (b n).adapter (inp n).1 then 0 else 1) := by
      intro m d hd
      obtain ⟨hmeta, hdata⟩ :=
        delivered_own inp (Refines.reset (p := p) (k := k) sram).aligned rfl hf hd
      refine Prod.ext hmeta (hdata _ ?_)
      rw [ownAnswer, hp, hsc]
      rfl
    constructor
    · intro h
      rw [hiff.mpr h] at hmem hown
      exact ⟨hmem, hown⟩
    · intro h
      rw [Bool.eq_false_iff.mpr (mt hiff.mp h)] at hmem hown
      exact ⟨hmem, hown⟩
  · have hwf' := accepted_wf (p := p) (k := k) sram hwf n
    rw [reserved_iff hwf'] at hi hj
    exact ⟨hi.2.1.symm.trans hj.2.1, hi.2.2.symm.trans hj.2.2⟩

/-- An LR and an SC of identity 1 to word 3, then nothing. -/
def lrThenSc (t : Nat) : AdapterIn Nat Nat × Word :=
  ({ valid := decide (t < 2), respReady := true
     req := { address := 3, amo := if t = 0 then .lr else .sc, write := false, wdata := 5
              be := 0b1111, metadata := 1 } }, 0)

def lrThenScTrace (n : Nat) : BankState Nat ⟨StreamFifo.list Nat 2, .list Word 2⟩ :=
  (BankState.reset _ { mem := fun _ => 0, rdata := 0 }).trace
    { registerAmo := false, lrScEnable := true, uniqueCoreId := id } lrThenSc n

theorem lrThenSc_writes :
    (lrThenScTrace 2).sram.mem 3 = 5 ∧ (lrThenScTrace 3).delivered = [(1, 0), (1, 0)] := by
  have hheld : Reserved ⟨false, true, id⟩ (lrThenScTrace 1).accepted 1 3 := by
    have h0 : (lrThenScTrace 1).accepted = [] ++ [(lrThenSc 0).1.req] := rfl
    rw [h0, reserved_append]
    refine .inl ⟨rfl, rfl, rfl, fun j b _ h => ?_⟩
    rw [Reserved] at h
    obtain ⟨n, hn, -⟩ := h
    cases hn
  obtain ⟨hsc, -⟩ := reservation_law ⟨false, true, id⟩ _ _ lrThenSc rfl (fun _ _ _ => rfl) 1
  obtain ⟨hmem, -⟩ := (hsc rfl rfl).1 hheld
  refine ⟨(congrFun hmem 3).trans (by decide), by decide⟩

end TeraNoC.Hw
