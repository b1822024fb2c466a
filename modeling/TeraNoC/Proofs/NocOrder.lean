import TeraNoC.Proofs.NocDelivery

/-!
# When a core's accesses to a remote word keep their order

A core issues without waiting for what it has issued before, so two of its
accesses to one word reach the bank in order only if nothing on the way lets the
second pass the first. Every queue on the way is first in, first out; two
accesses can part only where the tile picks a port and where the remapper picks a
router channel. If neither depends on anything but the core and the word (`Lane`)
the two share all their queues up to the bank, and no move changes who is ahead
(`Lib.Ahead`). If the port depends on the kind of the access, or the channel on
the clock, the second access can take a channel of its own, and three moves later
it is in the bank while the first is still in the routers.
-/

namespace TeraNoC.Hw

open TeraNoC.Lib

namespace NocConfig

variable {c : NocConfig}

/-- An access that may change its word. -/
def writes (r : DataReq) : Bool := r.write || decide (r.amo ≠ .none ∧ r.amo ≠ .lr)

/-- The access is one of hart `h` to word `w`. -/
def Own (c : NocConfig) (h : HartId) (w : Loc) (x : Issued) : Prop :=
  x.hart = h ∧ c.place (c.scrambled x.req) = w

/-- Hart `h` sees its own writes to `w` in program order: when the bank accepts an
access of the hart to the word, the earlier writes of the hart to the word are in its
log, and the access is executed on the memory that the log leaves. -/
def OwnOrder (c : NocConfig) (mem : Loc → Word) (s : NocState) (h : HartId) (w : Loc) : Prop :=
  ∀ i j x y, i < j → s.issued[i]? = some x → s.issued[j]? = some y → c.Own h w x →
    c.Own h w y → writes x.req = true →
    ∀ pre e post, s.accepted = pre ++ e :: post → e.txn = j →
      (∃ first ∈ pre, first.txn = i) ∧
      e.result = (specExec c.remoteBankAdapter
        (c.bankState mem pre w.group w.tile w.bank) e.req).2

/-! ## One lane -/

/-- The core and the word determine the port and the channel: the word is in the own
group, or requests are not remapped and loads go where stores and atomics go. -/
def Lane (c : NocConfig) (h : HartId) (w : Loc) : Prop :=
  w.group = h.group ∨
    (c.reqRemapping = false ∧ c.corePort h.core true = c.corePort h.core false)

/-- The port all accesses of `h` to `w` take when they share a lane. -/
def lanePort (c : NocConfig) (h : HartId) (w : Loc) : Nat :=
  if w.group = h.group then 0 else c.corePort h.core false

theorem Own.masterPort_eq {h : HartId} {w : Loc} {x : Issued} (hx : c.HartOk x.hart)
    (hlane : c.Lane h w) (hown : c.Own h w x) : c.masterPort x = c.lanePort h w := by
  obtain ⟨rfl, rfl⟩ := hown
  rw [NocConfig.masterPort_eq hx.group, lanePort]
  split
  · rfl
  · rename_i hne
    obtain ⟨-, hports⟩ := hlane.resolve_left hne
    cases plainRead x.req with
    | true => exact hports
    | false => rfl

/-- The one channel of a lane through the network. -/
def laneChannel (c : NocConfig) (h : HartId) (w : Loc) : Channel :=
  c.reqChannel (selReset c.routerRemapGroupSize) h.tile (c.lanePort h w)

/-- Where an access of the lane may be on its way to the bank. -/
def InLane (c : NocConfig) (h : HartId) (w : Loc) : Stage → Prop
  | .router ch _ _ => ch = c.laneChannel h w
  | .slave _ _ port _ =>
      port = if c.lanePort h w = 0 then 0 else c.slavePort (c.laneChannel h w)
  | _ => True

theorem reqChannel_bypass (h : c.reqRemapping = false) (selQ selQ' : Nat → Nat)
    (tile port : Nat) : c.reqChannel selQ tile port = c.reqChannel selQ' tile port := by
  simp only [reqChannel, h, Bool.false_eq_true, if_false]

theorem InLane.advance {h : HartId} {w : Loc} {x : Issued} (hx : c.HartOk x.hart)
    (hlane : c.Lane h w) (hown : c.Own h w x) {li : c.Interco} {noc : Noc c.numGroups}
    {selQ : Nat → Nat} {rdata : Word} {st st' : Stage} (hpath : c.OnPath x st)
    (hin : c.InLane h w st) (hadv : c.advance li noc selQ rdata st = some st')
    (hrank : rank st < 3) : c.InLane h w st' := by
  have hport := hown.masterPort_eq hx hlane
  cases st with
  | master group tile port m =>
      obtain ⟨rfl, rfl, rfl, rfl⟩ := hpath
      simp only [NocConfig.advance] at hadv
      split at hadv
      · rename_i h0
        obtain rfl := Option.some.inj hadv
        exact (if_pos (hport ▸ h0)).symm
      · rename_i hne
        obtain rfl := Option.some.inj hadv
        have hgrp : w.group ≠ h.group := by
          intro heq
          refine hne (hport.trans ?_)
          rw [lanePort, if_pos heq]
        obtain ⟨hbypass, -⟩ := hlane.resolve_left hgrp
        show c.reqChannel selQ x.hart.tile (c.masterPort x) = c.laneChannel h w
        rw [hport, hown.1, laneChannel]
        exact reqChannel_bypass hbypass _ _ _ _
  | router ch src f =>
      obtain ⟨-, hne, -⟩ := hpath
      obtain rfl := Option.some.inj hadv
      show c.slavePort ch = _
      rw [show ch = c.laneChannel h w from hin, if_neg (hport ▸ hne)]
  | slave group tile port q =>
      obtain rfl := Option.some.inj hadv
      trivial
  | bank => exact absurd hrank (by simp [rank])
  | slaveResp => exact absurd hrank (by simp [rank])
  | respRouter => exact absurd hrank (by simp [rank])
  | masterResp => exact absurd hrank (by simp [rank])
  | core => exact absurd hrank (by simp [rank])

/-- Two accesses of a lane that are equally far are in the same queue. -/
theorem queue_eq_of_rank {h : HartId} {w : Loc} {x y : Issued} (hx : c.HartOk x.hart)
    (hy : c.HartOk y.hart) (hlane : c.Lane h w) (hxo : c.Own h w x) (hyo : c.Own h w y)
    {sx sy : Stage} (hpx : c.OnPath x sx) (hpy : c.OnPath y sy) (hix : c.InLane h w sx)
    (hiy : c.InLane h w sy) (hlt : rank sx < 3) (hrank : rank sx = rank sy) :
    sx.queue = sy.queue := by
  have hportx := hxo.masterPort_eq hx hlane
  have hporty := hyo.masterPort_eq hy hlane
  have hhart : x.hart = y.hart := hxo.1.trans hyo.1.symm
  have hplace : c.place (c.scrambled x.req) = c.place (c.scrambled y.req) :=
    hxo.2.trans hyo.2.symm
  cases sx with
  | master group tile port m =>
      obtain ⟨rfl, rfl, rfl, rfl⟩ := hpx
      cases sy with
      | master group' tile' port' m' =>
          obtain ⟨rfl, rfl, rfl, rfl⟩ := hpy
          simp only [Stage.queue, hhart, hportx, hporty]
      | router ch src f =>
          obtain ⟨-, hne, -⟩ := hpy
          rw [hporty] at hne
          simp [rank, hportx, hne] at hrank
      | _ => simp only [rank] at hrank; split at hrank <;> cases hrank
  | router ch src f =>
      obtain ⟨rfl, hne, rfl, -⟩ := hpx
      cases sy with
      | master group tile port m =>
          obtain ⟨rfl, rfl, rfl, rfl⟩ := hpy
          rw [hportx] at hne
          simp [rank, hporty, hne] at hrank
      | router ch' src' f' =>
          obtain ⟨rfl, -, rfl, -⟩ := hpy
          have hch : ch = ch' := Eq.trans hix (Eq.symm hiy)
          have hdst : c.tgtGroupId (c.scrambled x.req) = c.tgtGroupId (c.scrambled y.req) := by
            rw [c.tgtGroupId_eq, c.tgtGroupId_eq]
            exact congrArg Loc.group hplace
          simp only [Stage.queue, reqFlit, reqMeta, masterReq, hch, hhart, hdst]
      | _ => cases hrank
  | slave group tile port q =>
      obtain ⟨rfl, rfl, -⟩ := hpx
      cases sy with
      | slave group' tile' port' q' =>
          obtain ⟨rfl, rfl, -⟩ := hpy
          have hport : port = port' := Eq.trans hix (Eq.symm hiy)
          simp only [Stage.queue, hplace, hport]
      | master => simp only [rank] at hrank; split at hrank <;> cases hrank
      | _ => cases hrank
  | bank => exact absurd hlt (by simp [rank])
  | slaveResp => exact absurd hlt (by simp [rank])
  | respRouter => exact absurd hlt (by simp [rank])
  | masterResp => exact absurd hlt (by simp [rank])
  | core => exact absurd hlt (by simp [rank])

/-! ## Nobody is passed -/

section Order

variable (c) (h : HartId) (w : Loc)

/-- Request number `n` is an access of `h` to `w`. -/
def OwnTxn (s : NocState) (n : Nat) : Prop := ∃ x, s.issued[n]? = some x ∧ c.Own h w x

/-- The item is such a request and has not reached its bank. -/
def Waiting (s : NocState) (it : Item) : Prop := rank it.stage < 3 ∧ c.OwnTxn h w s it.txn

def BothWait (s : NocState) (y z : Item) : Prop := c.Waiting h w s y ∧ c.Waiting h w s z

structure OrderInv (s : NocState) : Prop where
  ahead : s.flight.Pairwise (Ahead (c.BothWait h w s) (·.txn) (rank ·.stage))
  lane : ∀ it ∈ s.flight, c.Waiting h w s it → c.InLane h w it.stage
  order : ∀ pre e post, s.accepted = pre ++ e :: post → c.OwnTxn h w s e.txn →
    ∀ i < e.txn, c.OwnTxn h w s i → ∃ first ∈ pre, first.txn = i

variable {c h w} {s : NocState}

theorem BothWait.symm (y z : Item) (hyz : c.BothWait h w s y z) : c.BothWait h w s z y :=
  ⟨hyz.2, hyz.1⟩

theorem orderInv_reset : c.OrderInv h w c.reset where
  ahead := List.Pairwise.nil
  lane _ hit := absurd hit List.not_mem_nil
  order pre e post hlog := by
    cases pre <;> cases hlog

/-- What a waiting item is, in the invariant of the whole system. -/
theorem Waiting.spec (hinv : c.Inv s) {it : Item} (hit : it ∈ s.flight)
    (hw : c.Waiting h w s it) :
    ∃ x, s.issued[it.txn]? = some x ∧ c.HartOk x.hart ∧ c.Own h w x ∧
      c.OnPath x it.stage := by
  obtain ⟨hrank, x, hx, hown⟩ := hw
  obtain ⟨y, hy, hpath⟩ := hinv.path it hit
  obtain rfl := Option.some.inj (hx.symm.trans hy)
  exact ⟨x, hx, hinv.harts x (List.mem_of_getElem? hx), hown, hpath (.inr (by omega))⟩

/-- The first of its queue is the only one of its lane at its stage. -/
theorem OrderInv.first (ho : c.OrderInv h w s) (hinv : c.Inv s) (hlane : c.Lane h w) {i : Nat}
    {it : Item} (hi : s.flight[i]? = some it)
    (hfirst : ∀ y ∈ s.flight.take i, inOrder y.stage it.stage = false) :
    ∀ y ∈ s.flight.take i, c.BothWait h w s y it → rank y.stage ≠ rank it.stage := by
  rintro y hy ⟨hwy, hwx⟩ hrank
  have hit := List.mem_of_getElem? hi
  have hyf := List.mem_of_mem_take hy
  obtain ⟨x, -, hxok, hxo, hxp⟩ := hwx.spec hinv hit
  obtain ⟨z, -, hzok, hzo, hzp⟩ := hwy.spec hinv hyf
  have hq := queue_eq_of_rank hzok hxok hlane hzo hxo hzp hxp (ho.lane y hyf hwy)
    (ho.lane it hit hwx) hwy.1 hrank
  exact absurd hq (of_decide_eq_false (hfirst y hy))

/-- An access that enters the bank finds all earlier ones of its lane in the log. -/
theorem OrderInv.logged (ho : c.OrderInv h w s) (hinv : c.Inv s) (hlane : c.Lane h w)
    {i : Nat} {it : Item} (hi : s.flight[i]? = some it)
    (hfirst : ∀ y ∈ s.flight.take i, inOrder y.stage it.stage = false)
    (hrank : rank it.stage = 2) (hown : c.OwnTxn h w s it.txn) {n : Nat} (hn : n < it.txn)
    (hnown : c.OwnTxn h w s n) : ∃ first ∈ s.accepted, first.txn = n := by
  have hwx : c.Waiting h w s it := ⟨by omega, hown⟩
  obtain ⟨x, hx, hxo⟩ := hnown
  have honce := hinv.once n
  rw [if_pos (List.getElem?_eq_some_iff.mp hx).1] at honce
  have hlogged := hinv.logged n
  -- still in flight, it is past the bank; else it has been answered
  have hpast : ∀ y ∈ s.flight, y.txn = n → past n y = true := by
    intro y hy htxn
    by_contra hnot
    have hlow : rank y.stage < 3 := by
      by_contra hge
      exact hnot (by simp [past, htxn]; omega)
    have hwy : c.Waiting h w s y := ⟨hlow, x, by rw [htxn]; exact hx, hxo⟩
    have := Ahead.first ho.ahead hi BothWait.symm (ho.first hinv hlane hi hfirst) hy
      ⟨hwy, hwx⟩ (by omega)
    omega
  have hcount : s.flight.countP (·.txn == n) ≤ s.flight.countP (past n) :=
    List.countP_mono_left fun y hy hyn => hpast y hy (by simpa using hyn)
  have hpos : 0 < s.accepted.countP (·.txn == n) := by omega
  obtain ⟨e, he, htxn⟩ := List.countP_pos_iff.mp hpos
  exact ⟨e, he, by simpa using htxn⟩

/-- Requests keep their number. -/
theorem OwnTxn.issue {n : Nat} (hn : n < s.issued.length) (x : Issued)
    {s' : NocState} (hs' : s'.issued = s.issued ++ [x]) :
    c.OwnTxn h w s' n ↔ c.OwnTxn h w s n := by
  rw [OwnTxn, OwnTxn, hs', List.getElem?_append_left hn]

theorem OrderInv.issue (ho : c.OrderInv h w s) (hinv : c.Inv s) (hlane : c.Lane h w)
    {x : Issued} (busy : HartId → Nat → Bool) (hcan : c.CanIssue s x) : c.OrderInv h w
      { s with
        busy := busy
        issued := s.issued ++ [x]
        flight := s.flight ++
          [{ txn := s.issued.length
             stage := .master x.hart.group x.hart.tile (c.masterPort x) (c.masterReq x) }] } := by
  have hxok : c.HartOk x.hart := ⟨hcan.1, hcan.2.1, hcan.2.2.1⟩
  have hold : ∀ n < s.issued.length, ∀ s' : NocState, s'.issued = s.issued ++ [x] →
      (c.OwnTxn h w s' n ↔ c.OwnTxn h w s n) := fun n hn s' hs' => OwnTxn.issue hn x hs'
  refine ⟨Ahead.append ?_ (fun y hy => hinv.txn_lt hy) ?_, ?_, ?_⟩
  · refine ho.ahead.imp_of_mem fun hy hz hyz hboth => hyz ?_
    exact ⟨⟨hboth.1.1, (hold _ (hinv.txn_lt hy) _ rfl).mp hboth.1.2⟩,
      ⟨hboth.2.1, (hold _ (hinv.txn_lt hz) _ rfl).mp hboth.2.2⟩⟩
  · -- a request at port 0 starts a stage further, as do all others of its lane
    rintro y hy ⟨⟨hyr, hyo⟩, -, z, hz, hzo⟩
    have hwy : c.Waiting h w s y := ⟨hyr, (hold _ (hinv.txn_lt hy) _ rfl).mp hyo⟩
    obtain ⟨v, -, hvok, hvo, hvp⟩ := hwy.spec hinv hy
    have hzx : z = x := by simpa using hz.symm
    subst hzx
    have hport : c.masterPort z = c.masterPort v :=
      (hzo.masterPort_eq hxok hlane).trans (hvo.masterPort_eq hvok hlane).symm
    show rank (.master _ _ (c.masterPort z) _) ≤ rank y.stage
    cases hst : y.stage with
    | master group tile port m =>
        rw [hst] at hvp
        obtain ⟨-, -, rfl, -⟩ := hvp
        rw [rank, rank, hport]
    | _ => rw [rank]; split <;> simp [rank]
  · intro it hit hwait
    rcases List.mem_append.mp hit with hit | hit
    · exact ho.lane it hit ⟨hwait.1, (hold _ (hinv.txn_lt hit) _ rfl).mp hwait.2⟩
    · rw [List.mem_singleton.mp hit]
      trivial
  · intro pre e post hlog hown i hi hiown
    have hmem : e ∈ s.accepted := by
      rw [show s.accepted = pre ++ e :: post from hlog]
      exact List.mem_append_right _ List.mem_cons_self
    obtain ⟨v, hv, -⟩ := hinv.arrived e hmem
    have hlt : e.txn < s.issued.length := (List.getElem?_eq_some_iff.mp hv).1
    exact ho.order pre e post hlog ((hold _ hlt _ rfl).mp hown) i hi
      ((hold _ (by omega) _ rfl).mp hiown)

/-- A split of the log after a move: at the item that has moved, or an old one. -/
theorem logAfter_split {mem : Loc → Word} {it : Item} {pre post : List Accepted} {e : Accepted}
    (hlog : c.logAfter mem s it = pre ++ e :: post) :
    (s.accepted = pre ∧ rank it.stage = 2 ∧ c.acceptance mem s.accepted it = some e ∧
      e.txn = it.txn) ∨
    ∃ post', s.accepted = pre ++ e :: post' := by
  rcases acceptance_cases (c := c) mem s.accepted it with
    ⟨group, tile, port, q, e', hst, he, htxn⟩ | ⟨-, hnone⟩
  · rw [logAfter, he, Option.toList_some] at hlog
    rcases append_singleton_eq_split hlog with ⟨hpre, rfl⟩ | h
    · exact .inl ⟨hpre, by rw [hst]; rfl, he, htxn⟩
    · exact .inr h
  · rw [logAfter, hnone, Option.toList_none, List.append_nil] at hlog
    exact .inr ⟨post, hlog⟩

theorem OrderInv.advance (ho : c.OrderInv h w s) (hinv : c.Inv s) (hlane : c.Lane h w)
    {li : c.Interco} {noc : Noc c.numGroups} {mem : Loc → Word} {i : Nat} {it : Item}
    {st : Stage} (hi : s.flight[i]? = some it)
    (hfirst : ∀ y ∈ s.flight.take i, inOrder y.stage it.stage = false)
    (hadv : c.advance li noc s.selQ (c.rdataOf mem s it) it.stage = some st) : c.OrderInv h w
      { s with
        flight := s.flight.eraseIdx i ++ [{ txn := it.txn, stage := st }]
        accepted := c.logAfter mem s it } := by
  have hit := List.mem_of_getElem? hi
  obtain ⟨hrank, -, hnext⟩ := rank_advance hadv
  refine ⟨?_, ?_, ?_⟩
  · by_cases hlow : rank st < 3
    · refine Ahead.move ho.ahead hi BothWait.symm (ho.first hinv hlane hi hfirst) ?_ rfl
        (hnext (by omega))
      exact fun y hy => ⟨hy.1, Nat.lt_trans hrank hlow, hy.2.2⟩
    · exact Ahead.leave ho.ahead i fun y hy => hlow hy.2.1
  · intro z hz hwait
    rcases mem_move hz with hz | rfl
    · exact ho.lane z hz hwait
    · have hwx : c.Waiting h w s it := ⟨Nat.lt_trans hrank hwait.1, hwait.2⟩
      obtain ⟨x, -, hxok, hxo, hxp⟩ := hwx.spec hinv hit
      exact InLane.advance hxok hlane hxo hxp (ho.lane it hit hwx) hadv hwx.1
  · intro pre e post hlog hown n hn hnown
    rcases logAfter_split hlog with ⟨rfl, hst, -, htxn⟩ | ⟨post', hlog⟩
    · rw [htxn] at hown hn
      exact ho.logged hinv hlane hi hfirst hst hown hn hnown
    · exact ho.order pre e post' hlog hown n hn hnown

theorem OrderInv.step (ho : c.OrderInv h w s) (hinv : c.Inv s) (hlane : c.Lane h w)
    {li : c.Interco} {noc : Noc c.numGroups} {mem : Loc → Word} (a : Action) :
    c.OrderInv h w (c.step li noc mem inOrder s a) := by
  have hmoved := c.step_moved li noc mem inOrder s a
  generalize c.step li noc mem inOrder s a = s' at hmoved
  cases hmoved with
  | idle selQ => exact ⟨ho.ahead, ho.lane, ho.order⟩
  | issue x busy hcan => exact ho.issue hinv hlane busy hcan
  | advance i it st hi hfirst hadv => exact ho.advance hinv hlane hi hfirst hadv
  | answer i it hart metaId data busy hi hst =>
      exact ⟨Ahead.erase ho.ahead i, fun z hz => ho.lane z (List.mem_of_mem_eraseIdx hz),
        ho.order⟩

theorem orderInv_after (hlane : c.Lane h w) (li : c.Interco) (noc : Noc c.numGroups)
    (mem : Loc → Word) (acts : Nat → Action) (t : Nat) :
    c.OrderInv h w (c.after li noc mem inOrder acts t) := by
  induction t with
  | zero => exact orderInv_reset
  | succ t ih => exact ih.step (inv_after li noc mem inOrder acts t) hlane _

/-! ## What an access finds -/

/-- Every entry of the log was executed on the memory that the entries before it
leave. -/
def Replays (c : NocConfig) (mem : Loc → Word) (log : List Accepted) : Prop :=
  ∀ pre e post, log = pre ++ e :: post → e.result = (specExec c.remoteBankAdapter
    (c.bankState mem pre e.loc.group e.loc.tile e.loc.bank) e.req).2

theorem replays_acceptance {mem : Loc → Word} {log : List Accepted} {it : Item}
    {e : Accepted} (he : c.acceptance mem log it = some e) :
    e.result = (specExec c.remoteBankAdapter
      (c.bankState mem log e.loc.group e.loc.tile e.loc.bank) e.req).2 := by
  rcases acceptance_cases (c := c) mem log it with
    ⟨group, tile, port, q, e', hst, he', -⟩ | ⟨-, hnone⟩
  · rw [acceptance, hst] at he
    obtain rfl := Option.some.inj he
    rfl
  · rw [hnone] at he
    cases he

theorem replays_after (li : c.Interco) (noc : Noc c.numGroups) (mem : Loc → Word)
    (blocks : Stage → Stage → Bool) (acts : Nat → Action) (t : Nat) :
    c.Replays mem (c.after li noc mem blocks acts t).accepted := by
  induction t with
  | zero =>
      intro pre e post hlog
      cases pre <;> cases hlog
  | succ t ih =>
      have hmoved := c.step_moved li noc mem blocks (c.after li noc mem blocks acts t) (acts t)
      rw [after]
      generalize c.step li noc mem blocks _ (acts t) = s' at hmoved
      cases hmoved with
      | advance i it st hi hfirst hadv =>
          intro pre e post hlog
          rcases logAfter_split hlog with ⟨rfl, -, he, -⟩ | ⟨post', hlog⟩
          · exact replays_acceptance he
          · exact ih pre e post' hlog
      | _ => exact ih

theorem ownOrder_after (hlane : c.Lane h w) (li : c.Interco) (noc : Noc c.numGroups)
    (mem : Loc → Word) (acts : Nat → Action) (t : Nat) :
    c.OwnOrder mem (c.after li noc mem inOrder acts t) h w := by
  intro i j x y hij hx hy hxo hyo _ pre e post hlog htxn
  have hmem : e ∈ (c.after li noc mem inOrder acts t).accepted := by
    rw [hlog]
    exact List.mem_append_right _ List.mem_cons_self
  obtain ⟨z, hz, harr⟩ := (inv_after li noc mem inOrder acts t).arrived e hmem
  rw [htxn, hy] at hz
  obtain rfl := Option.some.inj hz
  have hloc : e.loc = w := harr.loc.trans hyo.2
  refine ⟨(orderInv_after hlane li noc mem acts t).order pre e post hlog
    ⟨y, by rw [htxn]; exact hy, hyo⟩ i (by omega) ⟨x, hx, hxo⟩, ?_⟩
  rw [← hloc]
  exact replays_after li noc mem inOrder acts t pre e post hlog

end Order

/-! ## Two lanes -/

theorem selReset_ne_next {groupSize : Nat} (hsize : ∃ k, groupSize = 2 ^ (k + 1)) (i : Nat) :
    selReset groupSize i ≠ selNext groupSize (selReset groupSize) i := by
  obtain ⟨k, rfl⟩ := hsize
  have hpos : 0 < 2 ^ k := Nat.two_pow_pos k
  rw [selNext, selReset, selReset, selReset, Nat.pow_succ]
  split_ifs <;> omega

/-- The remapper sends what it takes in two cycles in a row from one input to two
different outputs. -/
theorem remap_ne_next {groupSize : Nat} (hsize : ∃ k, groupSize = 2 ^ (k + 1))
    (numInp inp : Nat) : remap groupSize numInp (selReset groupSize) inp
      ≠ remap groupSize numInp (selNext groupSize (selReset groupSize)) inp := by
  intro heq
  exact selReset_ne_next hsize _ (Nat.add_left_cancel heq)

theorem reqChannel_remapped (hremap : c.reqRemapping = true) {tile port : Nat}
    (hport : 1 + c.numRdRemoteReqPortsPerTile ≤ port) :
    c.reqChannel (selReset c.routerRemapGroupSize) tile port
      ≠ c.reqChannel (selNext c.routerRemapGroupSize (selReset c.routerRemapGroupSize))
        tile port := by
  simp only [reqChannel, hremap, if_true]
  rw [if_neg (by omega), if_neg (by omega)]
  intro heq
  simp only [remapChannel, Channel.mk.injEq, true_and] at heq
  exact remap_ne_next c.remap_pow _ _ (Nat.ext_div_mod heq.1 heq.2)

/-- Without a remapper, every port has a channel of its own. -/
theorem reqChannel_port_inj (hbypass : c.reqRemapping = false) {selQ selQ' : Nat → Nat}
    {tile port port' : Nat} (hpos : 0 < port) (hpos' : 0 < port')
    (heq : c.reqChannel selQ tile port = c.reqChannel selQ' tile port') : port = port' := by
  simp only [reqChannel, hbypass, Bool.false_eq_true, if_false] at heq
  split at heq <;> split at heq <;> simp only [Channel.mk.injEq, reduceCtorEq, false_and,
    true_and] at heq <;> omega

section Overtaken

variable (li : c.Interco) (noc : Noc c.numGroups) (mem : Loc → Word)

theorem step_issue {s : NocState} {x : Issued} (hcan : c.CanIssue s x) :
    c.step li noc mem inOrder s (.issue x) =
      { s with
        busy := fun h id => if h = x.hart ∧ id = x.req.id then true else s.busy h id
        issued := s.issued ++ [x]
        flight := s.flight ++
          [{ txn := s.issued.length
             stage := .master x.hart.group x.hart.tile (c.masterPort x) (c.masterReq x) }] } :=
  if_pos hcan

theorem step_move {s : NocState} {i : Nat} {it : Item} {st : Stage}
    (hi : s.flight[i]? = some it)
    (hfirst : ∀ y ∈ s.flight.take i, inOrder y.stage it.stage = false)
    (hadv : c.advance li noc s.selQ (c.rdataOf mem s it) it.stage = some st) :
    c.step li noc mem inOrder s (.move i) =
      { s with
        flight := s.flight.eraseIdx i ++ [{ txn := it.txn, stage := st }]
        accepted := c.logAfter mem s it } := by
  have hfree : ¬((s.flight.take i).any fun other => inOrder other.stage it.stage) = true := by
    simpa using hfirst
  simp only [step, hi]
  rw [if_neg hfree]
  simp only [moveItem]
  rw [rdataOf] at hadv
  rw [hadv]
  rfl

/-- The first access goes as far as the routers; a cycle later the second one is sent
after it, and moved on to its bank. -/
def overtaking (x y : Issued) (t : Nat) : Action :=
  [Action.issue x, .move 0, .tick, .issue y, .move 1, .move 1, .move 1].getD t .tick

/-- The first access is in the routers, where it entered in the cycle of reset. -/
def firstSent (c : NocConfig) (x : Issued) : Stage :=
  .router (c.reqChannel (selReset c.routerRemapGroupSize) x.hart.tile (c.masterPort x))
    x.hart.group (c.reqFlit x.hart.group x.hart.tile (c.masterPort x) (c.masterReq x))

/-- The second access is at stage `st`, and `log` has been accepted. -/
def chase (c : NocConfig) (x y : Issued) (st : Stage) (log : List Accepted) : NocState where
  selQ := selNext c.routerRemapGroupSize (selReset c.routerRemapGroupSize)
  busy h id := if h = y.hart ∧ id = y.req.id then true
    else if h = x.hart ∧ id = x.req.id then true else false
  issued := [x, y]
  flight := [{ txn := 0, stage := c.firstSent x }, { txn := 1, stage := st }]
  accepted := log
  answered := []

theorem chase_move {x y : Issued} {st st' : Stage} {log : List Accepted}
    (hpass : inOrder (c.firstSent x) st = false)
    (hadv : c.advance li noc (selNext c.routerRemapGroupSize (selReset c.routerRemapGroupSize))
      (c.rdataOf mem (c.chase x y st log) { txn := 1, stage := st }) st = some st') :
    c.step li noc mem inOrder (c.chase x y st log) (.move 1) =
      c.chase x y st' (c.logAfter mem (c.chase x y st log) { txn := 1, stage := st }) := by
  refine @step_move c li noc mem (c.chase x y st log) 1 { txn := 1, stage := st } st' rfl
    (fun z hz => ?_) hadv
  rw [List.mem_singleton.mp hz]
  exact hpass

/-- The clock has ticked between the two accesses. -/
theorem chase_begins {x y : Issued} (hok : c.HartOk x.hart) (hhart : y.hart = x.hart)
    (hrx : c.Remote x) (hry : c.Remote y) (hidx : x.req.id = 0) (hidy : y.req.id = 1)
    (hport : c.masterPort x ≠ 0) :
    c.after li noc mem inOrder (overtaking x y) 4 =
      c.chase x y (.master y.hart.group y.hart.tile (c.masterPort y) (c.masterReq y)) [] := by
  have hcanx : c.CanIssue c.reset x :=
    ⟨hok.group, hok.tile, hok.core, hrx, by rw [hidx]; decide, rfl⟩
  have h1 := step_issue li noc mem hcanx
  have h2 := @step_move c li noc mem (c.step li noc mem inOrder c.reset (.issue x)) 0
    { txn := 0, stage := .master x.hart.group x.hart.tile (c.masterPort x) (c.masterReq x) }
    (c.firstSent x) (by rw [h1]; rfl) (fun z hz => absurd hz List.not_mem_nil)
    (by rw [h1]; exact if_neg hport)
  show c.step li noc mem inOrder (c.step li noc mem inOrder (c.step li noc mem inOrder
    (c.step li noc mem inOrder c.reset (.issue x)) (.move 0)) .tick) (.issue y) = _
  rw [h2, h1]
  refine step_issue li noc mem ⟨?_, ?_, ?_, hry, by rw [hidy]; decide, ?_⟩
  · rw [hhart]
    exact hok.group
  · rw [hhart]
    exact hok.tile
  · rw [hhart]
    exact hok.core
  · show (if y.hart = x.hart ∧ y.req.id = x.req.id then true else false) = false
    rw [if_neg (by omega)]

/-- Two accesses of one hart to one word that enter different channels: the second is
in the bank, the first is not. -/
theorem overtaken {x y : Issued} (hok : c.HartOk x.hart) (hhart : y.hart = x.hart)
    (hrx : c.Remote x) (hry : c.Remote y) (hidx : x.req.id = 0) (hidy : y.req.id = 1)
    (hplace : c.place (c.scrambled y.req) = c.place (c.scrambled x.req))
    (hwrites : writes x.req = true)
    (hgroup : (c.place (c.scrambled x.req)).group ≠ x.hart.group)
    (hch : c.reqChannel (selReset c.routerRemapGroupSize) x.hart.tile (c.masterPort x)
      ≠ c.reqChannel (selNext c.routerRemapGroupSize (selReset c.routerRemapGroupSize))
        x.hart.tile (c.masterPort y)) :
    ¬c.OwnOrder mem (c.after li noc mem inOrder (overtaking x y) 7) x.hart
      (c.place (c.scrambled x.req)) := by
  have hpx : c.masterPort x ≠ 0 := by
    rwa [ne_eq, masterPort_eq_zero hok.group]
  have hpy : c.masterPort y ≠ 0 := by
    rw [ne_eq, masterPort_eq_zero (by rw [hhart]; exact hok.group), hplace, hhart]
    exact hgroup
  have h4 := chase_begins li noc mem hok hhart hrx hry hidx hidy hpx
  have h5 : c.after li noc mem inOrder (overtaking x y) 5 = c.chase x y _ [] :=
    (congrArg (c.step li noc mem inOrder · (.move 1)) h4).trans
      (chase_move li noc mem rfl (if_neg hpy))
  have hpass : inOrder (c.firstSent x) (.router
      (c.reqChannel (selNext c.routerRemapGroupSize (selReset c.routerRemapGroupSize))
        y.hart.tile (c.masterPort y)) y.hart.group
      (c.reqFlit y.hart.group y.hart.tile (c.masterPort y) (c.masterReq y))) = false := by
    refine decide_eq_false fun heq => hch ?_
    rw [hhart] at heq
    exact (Queue.router.inj heq).1
  have h6 : c.after li noc mem inOrder (overtaking x y) 6 = c.chase x y _ [] :=
    (congrArg (c.step li noc mem inOrder · (.move 1)) h5).trans
      (chase_move li noc mem hpass rfl)
  have h7 : c.after li noc mem inOrder (overtaking x y) 7 = c.chase x y _ [_] :=
    (congrArg (c.step li noc mem inOrder · (.move 1)) h6).trans
      (chase_move li noc mem rfl rfl)
  rw [h7]
  intro horder
  obtain ⟨⟨first, hfirst, -⟩, -⟩ := horder 0 1 x y Nat.zero_lt_one rfl rfl ⟨rfl, rfl⟩
    ⟨hhart, hplace⟩ hwrites [] _ [] rfl rfl
  cases hfirst

end Overtaken

/-- A store or a load of the word that `x` addresses, by the same hart. -/
def probe (x : Issued) (write : Bool) (id : Nat) : Issued where
  hart := x.hart
  req := { addr := x.req.addr, write := write, amo := .none, data := 1, strb := 15, id := id }

theorem masterPort_probe {x : Issued} (hok : c.HartOk x.hart)
    (hgroup : (c.place (c.scrambled x.req)).group ≠ x.hart.group) (write : Bool) (id : Nat) :
    c.masterPort (probe x write id) = c.corePort x.hart.core (!write) := by
  have hplain : plainRead (probe x write id).req = !write := by
    cases write <;> rfl
  have hport : c.masterPort (probe x write id) = if _ then 0 else _ :=
    masterPort_eq (x := probe x write id) hok.group
  rw [hport, hplain]
  exact if_neg hgroup

/-- A hart sees its own writes to a remote word in program order, in every run of the
network with in-order routers, exactly when all its accesses to the word share a
lane. -/
theorem own_writes_in_order_iff (c : NocConfig) (li : c.Interco) (noc : Noc c.numGroups)
    (mem : Loc → Word) (x : Issued) (hok : c.HartOk x.hart) (hremote : c.Remote x) :
    (∀ acts t, c.OwnOrder mem (c.after li noc mem inOrder acts t) x.hart
      (c.place (c.scrambled x.req))) ↔ c.Lane x.hart (c.place (c.scrambled x.req)) := by
  refine ⟨fun horder => ?_, fun hlane acts t => ownOrder_after hlane li noc mem acts t⟩
  by_contra hlane
  have hgroup : (c.place (c.scrambled x.req)).group ≠ x.hart.group := fun h => hlane (.inl h)
  have hstore := masterPort_probe hok hgroup true 0
  cases hremap : c.reqRemapping with
  | true =>
      -- two stores, in channels that the remapper chose in two cycles in a row
      refine overtaken li noc mem (x := probe x true 0) (y := probe x true 1) hok rfl hremote
        hremote rfl rfl rfl rfl hgroup ?_ (horder _ 7)
      rw [hstore, masterPort_probe hok hgroup true 1]
      exact reqChannel_remapped hremap (c.corePort_wide _)
  | false =>
      -- a store and a load, which take different ports
      refine overtaken li noc mem (x := probe x true 0) (y := probe x false 1) hok rfl hremote
        hremote rfl rfl rfl rfl hgroup ?_ (horder _ 7)
      rw [hstore, masterPort_probe hok hgroup false 1]
      intro heq
      have hports := reqChannel_port_inj hremap (c.corePort_pos _ _) (c.corePort_pos _ _) heq
      exact hlane (.inr ⟨hremap, hports.symm⟩)

/-! ## On minpool and terapool -/

theorem two_ports : 2 ≤ 2 := Nat.le_refl 2

/-- `config/minpool.mk`: one channel each way, nothing is remapped. -/
def minpoolNoc : NocConfig where
  toL1Config := (minpool false false).toL1Config
  numRemoteRespPortsPerTile := 2
  nocRouterRemapping := 0
  routerRemapGroupSize := 2
  mesh_eq := by decide
  resp_ports := two_ports
  remap_pow := ⟨0, rfl⟩
  remap_req := by decide
  remap_resp := by decide
  narrow_wired := by decide

/-- The first core of minpool and a word of group 1. -/
def minpoolAccess : Issued where
  hart := { group := 0, tile := 0, core := 0 }
  req := { addr := 8256, write := true, amo := .none, data := 7, strb := 15, id := 0 }

theorem minpool_in_order : minpoolNoc.HartOk minpoolAccess.hart ∧
    minpoolNoc.Remote minpoolAccess ∧
    ∀ acts t, minpoolNoc.OwnOrder (fun _ => 0)
      (minpoolNoc.after (.direct _ _) (.direct _) (fun _ => 0) inOrder acts t)
      minpoolAccess.hart (minpoolNoc.place (minpoolNoc.scrambled minpoolAccess.req)) := by
  have hok : minpoolNoc.HartOk minpoolAccess.hart := ⟨by decide, by decide, by decide⟩
  have hremote : minpoolNoc.Remote minpoolAccess := by decide
  exact ⟨hok, hremote, (own_writes_in_order_iff minpoolNoc (.direct _ _) (.direct _)
    (fun _ => 0) minpoolAccess hok hremote).mpr (.inr ⟨by decide, by decide⟩)⟩

/-- Terapool: the first core stores 7 to a word of group 1 and loads the word; the
load passes the store in another router channel and returns the old 0. -/
theorem terapool_load_overtakes :
    ((terapool false).after (.direct _ _) (.direct _) (fun _ => 0) inOrder
      (overtaking (toGroupOne true) (probe (toGroupOne true) false 1)) 7).accepted.map
        (fun e => (e.txn, e.result)) = [(1, some 0)] ∧
    ¬∀ acts t, (terapool false).OwnOrder (fun _ => 0)
      ((terapool false).after (.direct _ _) (.direct _) (fun _ => 0) inOrder acts t)
      (toGroupOne true).hart
      ((terapool false).place ((terapool false).scrambled (toGroupOne true).req)) := by
  refine ⟨by decide +kernel, fun horder => ?_⟩
  have hok : (terapool false).HartOk (toGroupOne true).hart :=
    ⟨by decide, by decide, by decide⟩
  refine overtaken _ _ _ (y := probe (toGroupOne true) false 1) hok rfl ?_ ?_ rfl rfl rfl rfl
    ?_ ?_ (horder _ 7) <;> decide +kernel

end NocConfig

end TeraNoC.Hw
