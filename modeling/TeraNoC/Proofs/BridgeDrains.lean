import TeraNoC.Lib.Progress
import TeraNoC.Proofs.AxiToReqrsp

/-!
# Every burst is answered

What the bridge waits for is always one of its seven handshakes (`exists_helpful`). A beat in the
fork waits for room in the queues, which comes with a response, or for the request port; a
response waits for the channels it goes to; and when the queues are empty a side that has a beat
gets through. What there is to do is counted by `load`: the beats in front of the fork and the
responses still to come, and, for whatever has started, the handshakes that are left.
-/

namespace TeraNoC.Hw.AxiToReqrsp

open TeraNoC.Lib

/-- What the environment gives: an offer, or room. -/
inductive Handshake
  | ar
  | aw
  | w
  | b
  | r
  | q
  | p

def In.gives (x : In) : Handshake → Bool
  | .ar => x.arValid
  | .aw => x.awValid
  | .w => x.wValid
  | .b => x.bReady
  | .r => x.rReady
  | .q => x.qReady
  | .p => x.pValid

variable {p : Params} {F : Cells p} {answer : Nat → RspChan p} {ars : List ArChan}
  {aws : List AwChan} {ws : List (WChan p)} {s : State F} {x : In} {granted : List MetaT}
  {cur : Option MetaT}

/-! ## What is left -/

/-- The beats in front of the fork. -/
def left (s : State F) : Nat :=
  (s.read.rest p ++ (s.ars.map (ArChan.read p)).flatMap (Burst.beats p)).length +
    (s.write.rest p ++ (s.aws.map (AwChan.write p)).flatMap (Burst.beats p)).length

def total (p : Params) (ars : List ArChan) (aws : List AwChan) : Nat :=
  ((ars.map (ArChan.read p)).flatMap (Burst.beats p)).length +
    ((aws.map (AwChan.write p)).flatMap (Burst.beats p)).length

theorem side_length (l : List MetaT) : (side false l).length + (side true l).length = l.length := by
  induction l with
  | nil => rfl
  | cons m l ih =>
      rw [side, side, List.filter_cons, List.filter_cons, List.length_cons, ← ih, side, side]
      cases m.write with
      | false =>
          rw [if_pos (by decide), if_neg (by decide), List.length_cons]
          omega
      | true =>
          rw [if_neg (by decide), if_pos (by decide), List.length_cons]
          omega

theorem Inv.granted_add_left (h : Inv answer ars aws ws s granted cur) :
    granted.length + left s = total p ars aws := by
  have hreads := congrArg List.length h.reads
  have hwrites := congrArg List.length h.writes
  have hside := side_length granted
  rw [List.length_append] at hreads hwrites
  rw [left, total]
  omega

/-- What stays as it is while nothing happens. -/
structure Places where
  ars : List ArChan
  aws : List AwChan
  rCnt : Nat
  wCnt : Nat
  words : Nat
  left : Nat
  answered : Nat
  arShown : Bool
  awShown : Bool
  wShown : Bool
  pShown : Bool
  fork : ReqOut → Bool
  dynFork : RspOut → Bool

def places (s : State F) : Places where
  ars := s.ars
  aws := s.aws
  rCnt := s.read.cnt
  wCnt := s.write.cnt
  words := s.ws.length
  left := left s
  answered := s.answered
  arShown := s.arShown
  awShown := s.awShown
  wShown := s.wShown
  pShown := s.pShown
  fork := s.forked
  dynFork := s.dynForked

/-- What there is to do, of `n` beats in all. -/
def Places.load (n : Nat) (c : Places) : Nat :=
  5 * c.left + 4 * (n - c.answered) +
    ((!c.fork .sel).toNat + (!c.fork .metaBuf).toNat + (!c.fork .req).toNat) +
    ((!c.dynFork .b).toNat + (!c.dynFork .r).toNat) +
    (c.ars.length + (!c.arShown).toNat) + (c.aws.length + (!c.awShown).toNat) +
    (c.words + (!c.wShown).toNat) + (!c.pShown).toNat

/-- Nothing is left, and everything has been answered. -/
def Places.Done (n : Nat) (c : Places) : Prop := c.left = 0 ∧ c.answered = n

instance (n : Nat) (c : Places) : Decidable (c.Done n) := inferInstanceAs (Decidable (_ ∧ _))

/-- What is on offer is there, and the two queues are filled together. -/
structure Live (s : State F) : Prop where
  ar : s.arShown = true → s.ars ≠ []
  aw : s.awShown = true → s.aws ≠ []
  w : s.wShown = true → s.ws ≠ []
  p : s.pShown = true → s.answered < s.sent.length
  fork : s.forked .sel = s.forked .metaBuf

/-- How much happens in a cycle. -/
def activity (answer : Nat → RspChan p) (s : State F) (x : In) : Nat :=
  (s.arbReady x).toNat + (s.joinReady x).toNat +
    ((s.reqTakes x .sel).toNat + (s.reqTakes x .metaBuf).toNat + (s.reqTakes x .req).toNat) +
    ((s.rspTakes x .b).toNat + (s.rspTakes x .r).toNat) +
    (!s.arShown && (s.next answer x).arShown).toNat +
    (!s.awShown && (s.next answer x).awShown).toNat +
    (!s.wShown && (s.next answer x).wShown).toNat + (!s.pShown && (s.next answer x).pShown).toNat

/-! ## A cycle -/

theorem Side.next_cnt (r : Side) (new : Option Burst) (data : Bool) :
    (r.next p new data false).cnt = r.cnt := by
  by_cases h : 0 < r.cnt
  · rw [next_of_pos h, Bool.and_false, if_neg Bool.false_ne_true]
  · cases new with
    | none => rw [next_none h]
    | some b =>
        rw [next_some h, if_neg Bool.false_ne_true]
        exact (Nat.eq_zero_of_not_pos h).symm

/-- A channel of the master: what has been taken was there, and what is on offer stays. -/
theorem offered_next {α : Type} {l l' : List α} {shown shown' takes : Bool}
    (hl : l' = if takes then l.tail else l) (htakes : takes = true → l ≠ [])
    (hkeep : takes = false → shown = true → shown' = true) (hdrop : takes = true → shown' = false) :
    l'.length + (!shown').toNat + (!shown && shown').toNat ≤ l.length + (!shown).toNat := by
  cases takes with
  | true =>
      have hpos := List.length_pos_of_ne_nil (htakes rfl)
      rw [hl, hdrop rfl, if_pos rfl, List.length_tail, Bool.and_false, Bool.not_false,
        Bool.toNat_true, Bool.toNat_false]
      omega
  | false =>
      rw [hl, if_neg Bool.false_ne_true]
      cases shown with
      | true =>
          rw [hkeep rfl rfl]
          exact Nat.le_refl _
      | false => cases shown' <;> exact Nat.le_refl _

theorem arTakes_ne (h : s.arTakes x = true) : s.ars ≠ [] := by
  intro hnil
  rw [State.arTakes, Side.takes, State.newRead, hnil] at h
  split_ifs at h <;> simp at h

theorem awTakes_ne (h : s.awTakes x = true) : s.aws ≠ [] := by
  intro hnil
  rw [State.awTakes, Side.takes, State.newWrite, hnil] at h
  split_ifs at h <;> simp at h

theorem wValid_ne (h : s.wValid x = true) : s.ws ≠ [] := by
  intro hnil
  rw [State.wValid, hnil] at h
  simp at h

theorem wrValid_word (h : s.wrValid x = true) : s.wValid x = true := by
  rw [State.wrValid, Side.valid] at h
  split_ifs at h
  · exact h
  · rw [State.newWrite] at h
    split_ifs at h with hshown
    · exact (Bool.and_eq_true_iff.1 hshown).2
    · cases h

/-! What has been offered is offered until it is taken. -/

theorem Live.ar_next (hl : Live s) (hno : s.arTakes x = false) (hyes : s.arShown = true) :
    (s.next answer x).arShown = true := by
  change ((s.arShown || x.arValid) && !s.ars.isEmpty && !s.arTakes x) = true
  rw [hyes, hno, List.isEmpty_eq_false_iff.2 (hl.ar hyes)]
  rfl

theorem Live.aw_next (hl : Live s) (hno : s.awTakes x = false) (hyes : s.awShown = true) :
    (s.next answer x).awShown = true := by
  change ((s.awShown || x.awValid) && !s.aws.isEmpty && !s.awTakes x) = true
  rw [hyes, hno, List.isEmpty_eq_false_iff.2 (hl.aw hyes)]
  rfl

theorem Live.w_next (hl : Live s) (hno : s.wTakes x = false) (hyes : s.wShown = true) :
    (s.next answer x).wShown = true := by
  change (s.wValid x && !s.wTakes x) = true
  rw [hno, State.wValid, hyes, List.isEmpty_eq_false_iff.2 (hl.w hyes)]
  rfl

theorem Live.p_next (hl : Live s) (hno : s.joinReady x = false) (hyes : s.pShown = true) :
    (s.next answer x).pShown = true := by
  change (s.pValid x && !s.joinReady x) = true
  rw [hno, State.pValid, hyes, decide_eq_true (hl.p hyes)]
  rfl

theorem shown_eq {shown shown' : Bool} (hkeep : shown = true → shown' = true)
    (hidle : (!shown && shown') = false) : shown' = shown := by
  cases shown with
  | true => exact hkeep rfl
  | false => exact hidle

section Cycle

variable (h : Inv answer ars aws ws s granted cur)
include h

theorem Inv.left_next : left (s.next answer x) + (s.arbReady x).toNat = left s := by
  have hnow := h.granted_add_left
  have hnext := (h.step (x := x)).granted_add_left
  rw [grants, List.length_append] at hnext
  cases harb : s.arbReady x <;> rw [harb] at hnext
  · rw [if_neg Bool.false_ne_true, List.length_nil] at hnext
    rw [Bool.toNat_false]
    omega
  · rw [if_pos rfl, List.length_singleton] at hnext
    rw [Bool.toNat_true]
    omega

theorem Inv.answered_le_total : s.answered ≤ total p ars aws := by
  have hle := h.answered_le_granted
  have hnow := h.granted_add_left
  omega

theorem Inv.live_next (hl : Live s) : Live (s.next answer x) where
  ar := by
    intro hyes
    change ((s.arShown || x.arValid) && !s.ars.isEmpty && !s.arTakes x) = true at hyes
    rw [Bool.and_eq_true, Bool.and_eq_true, Bool.not_eq_true', Bool.not_eq_true'] at hyes
    change (if s.arTakes x then s.ars.tail else s.ars) ≠ []
    rw [hyes.2, if_neg Bool.false_ne_true]
    exact List.isEmpty_eq_false_iff.1 hyes.1.2
  aw := by
    intro hyes
    change ((s.awShown || x.awValid) && !s.aws.isEmpty && !s.awTakes x) = true at hyes
    rw [Bool.and_eq_true, Bool.and_eq_true, Bool.not_eq_true', Bool.not_eq_true'] at hyes
    change (if s.awTakes x then s.aws.tail else s.aws) ≠ []
    rw [hyes.2, if_neg Bool.false_ne_true]
    exact List.isEmpty_eq_false_iff.1 hyes.1.2
  w := by
    intro hyes
    change (s.wValid x && !s.wTakes x) = true at hyes
    rw [Bool.and_eq_true, Bool.not_eq_true'] at hyes
    change (if s.wTakes x then s.ws.tail else s.ws) ≠ []
    rw [hyes.2, if_neg Bool.false_ne_true]
    exact wValid_ne hyes.1
  p := by
    intro hyes
    change (s.pValid x && !s.joinReady x) = true at hyes
    rw [Bool.and_eq_true, Bool.not_eq_true'] at hyes
    have hlt : s.answered < s.sent.length := of_decide_eq_true (Bool.and_eq_true_iff.1 hyes.1).2
    change s.answered + (s.joinReady x).toNat < (s.sent ++ _).length
    rw [hyes.2, Bool.toNat_false, List.length_append]
    omega
  fork := by
    have hfull : F.sel.full s.selBuf = F.metaBuf.full s.metaBuf := by
      rw [F.sel.full_eq, F.metaBuf.full_eq, h.sels, h.metas, hl.fork, List.length_drop,
        List.length_drop, List.length_map]
    have htakes : s.reqTakes x .sel = s.reqTakes x .metaBuf := by
      rw [Bool.eq_iff_iff, reqTakes_iff, reqTakes_iff, hl.fork, State.reqReady, State.reqReady,
        hfull]
    cases harb : s.arbReady x with
    | true =>
        have hnone : ∀ o, (s.next answer x).forked o = false := fun _ =>
          StreamFork.done_next_of_ready harb
        rw [hnone, hnone]
    | false => rw [forked_next harb, forked_next harb, hl.fork, htakes]

theorem load_next (hl : Live s) : (places (s.next answer x)).load (total p ars aws) +
    activity answer s x ≤ (places s).load (total p ars aws) := by
  have hleft := h.left_next (x := x)
  have hanswered : (s.next answer x).answered = s.answered + (s.joinReady x).toNat := rfl
  have hle := (h.step (x := x)).answered_le_total
  have hfork : ∀ o, (!(s.next answer x).forked o).toNat + (s.reqTakes x o).toNat ≤
      (!s.forked o).toNat + (s.arbReady x).toNat := fun _ => StreamFork.load
  have hdyn : ∀ o, (!(s.next answer x).dynForked o).toNat + (s.rspTakes x o).toNat ≤
      (!s.dynForked o).toNat + (s.joinReady x).toNat := fun _ => StreamFork.load
  have hars : (s.next answer x).ars.length + (!(s.next answer x).arShown).toNat +
      (!s.arShown && (s.next answer x).arShown).toNat ≤ s.ars.length + (!s.arShown).toNat := by
    refine offered_next (l := s.ars) rfl arTakes_ne hl.ar_next fun hyes => ?_
    change ((s.arShown || x.arValid) && !s.ars.isEmpty && !s.arTakes x) = false
    rw [hyes, Bool.not_true, Bool.and_false]
  have haws : (s.next answer x).aws.length + (!(s.next answer x).awShown).toNat +
      (!s.awShown && (s.next answer x).awShown).toNat ≤ s.aws.length + (!s.awShown).toNat := by
    refine offered_next (l := s.aws) rfl awTakes_ne hl.aw_next fun hyes => ?_
    change ((s.awShown || x.awValid) && !s.aws.isEmpty && !s.awTakes x) = false
    rw [hyes, Bool.not_true, Bool.and_false]
  have hws : (s.next answer x).ws.length + (!(s.next answer x).wShown).toNat +
      (!s.wShown && (s.next answer x).wShown).toNat ≤ s.ws.length + (!s.wShown).toNat := by
    refine offered_next (l := s.ws) rfl
      (fun hyes => wValid_ne (wrValid_word (Bool.and_eq_true_iff.1 hyes).1)) hl.w_next
      fun hyes => ?_
    change (s.wValid x && !s.wTakes x) = false
    rw [hyes, Bool.not_true, Bool.and_false]
  have hp : (!(s.next answer x).pShown).toNat + (!s.pShown && (s.next answer x).pShown).toNat ≤
      (!s.pShown).toNat + (s.joinReady x).toNat := by
    have hnext : (s.next answer x).pShown = (s.pValid x && !s.joinReady x) := rfl
    cases hjoin : s.joinReady x with
    | true =>
        rw [hnext, hjoin, Bool.not_true, Bool.and_false, Bool.and_false]
        exact Nat.le_add_left _ _
    | false =>
        cases hshown : s.pShown with
        | true =>
            rw [hl.p_next hjoin hshown]
            exact Nat.le_refl _
        | false => cases (s.next answer x).pShown <;> exact Nat.le_refl _
  have hsel := hfork .sel
  have hmeta := hfork .metaBuf
  have hreq := hfork .req
  have hb := hdyn .b
  have hr := hdyn .r
  rw [Places.load, Places.load, activity]
  simp only [places]
  rw [hanswered] at hle ⊢
  omega

theorem places_next (hl : Live s) (hidle : activity answer s x = 0) :
    places (s.next answer x) = places s := by
  simp only [activity, Nat.add_eq_zero_iff, Bool.toNat_eq_zero] at hidle
  obtain ⟨⟨⟨⟨⟨⟨⟨harb, hjoin⟩, ⟨hsel, hmeta⟩, hreq⟩, hb, hr⟩, har⟩, haw⟩, hw⟩, hp⟩ := hidle
  have hrd : s.rdReady x = false := by rw [State.rdReady, harb, Bool.and_false]
  have hwr : s.wrReady x = false := by rw [State.wrReady, harb, Bool.and_false]
  have harTakes : s.arTakes x = false := by rw [State.arTakes, Side.takes, hrd, Bool.and_false]
  have hawTakes : s.awTakes x = false := by rw [State.awTakes, Side.takes, hwr, Bool.and_false]
  have hwTakes : s.wTakes x = false := by rw [State.wTakes, hwr, Bool.and_false]
  have hars : (s.next answer x).ars = s.ars := by
    rw [State.next, harTakes]
    rfl
  have haws : (s.next answer x).aws = s.aws := by
    rw [State.next, hawTakes]
    rfl
  have hws : (s.next answer x).ws = s.ws := by
    rw [State.next, hwTakes]
    rfl
  have hrCnt : (s.next answer x).read.cnt = s.read.cnt := by
    change (s.read.next p _ _ (s.rdReady x)).cnt = _
    rw [hrd, Side.next_cnt]
  have hwCnt : (s.next answer x).write.cnt = s.write.cnt := by
    change (s.write.next p _ _ (s.wrReady x)).cnt = _
    rw [hwr, Side.next_cnt]
  have hleft : left (s.next answer x) = left s := by
    have hleft := h.left_next (x := x)
    rw [harb] at hleft
    exact hleft
  have hanswered : (s.next answer x).answered = s.answered := by
    change s.answered + (s.joinReady x).toNat = _
    rw [hjoin]
    rfl
  have harShown : (s.next answer x).arShown = s.arShown := shown_eq (hl.ar_next harTakes) har
  have hawShown : (s.next answer x).awShown = s.awShown := shown_eq (hl.aw_next hawTakes) haw
  have hwShown : (s.next answer x).wShown = s.wShown := shown_eq (hl.w_next hwTakes) hw
  have hpShown : (s.next answer x).pShown = s.pShown := shown_eq (hl.p_next hjoin) hp
  have hfork : (s.next answer x).forked = s.forked := by
    funext o
    rw [forked_next harb]
    cases o
    · exact (congrArg _ hsel).trans (Bool.or_false _)
    · exact (congrArg _ hmeta).trans (Bool.or_false _)
    · exact (congrArg _ hreq).trans (Bool.or_false _)
  have hdynFork : (s.next answer x).dynForked = s.dynForked := by
    funext o
    rw [dynForked_next hjoin]
    cases o
    · exact (congrArg _ hb).trans (Bool.or_false _)
    · exact (congrArg _ hr).trans (Bool.or_false _)
  rw [places, places, hars, haws, hws, hrCnt, hwCnt, hleft, hanswered, harShown, hawShown, hwShown,
    hpShown, hfork, hdynFork]

end Cycle

/-! ## What the bridge waits for -/

theorem activity_of_arbReady (hyes : s.arbReady x = true) : 0 < activity answer s x := by
  rw [activity, hyes, Bool.toNat_true]
  omega

theorem activity_of_reqTakes {o : ReqOut} (hyes : s.reqTakes x o = true) :
    0 < activity answer s x := by
  rw [activity]
  cases o <;> rw [hyes, Bool.toNat_true] <;> omega

theorem activity_of_rspTakes {o : RspOut} (hyes : s.rspTakes x o = true) :
    0 < activity answer s x := by
  rw [activity]
  cases o <;> rw [hyes, Bool.toNat_true] <;> omega

section Waiting

variable (h : Inv answer ars aws ws s granted cur)
include h

/-- A side that has a beat gets one through, or the other side does. -/
theorem Inv.arbValid_of (hv : s.rdValid x = true ∨ s.wrValid x = true) : s.arbValid x = true := by
  cases hlock : s.selLock with
  | true =>
      rw [h.lock, Option.isSome_iff_exists] at hlock
      obtain ⟨m, hm⟩ := hlock
      exact (h.holds m hm x).1
  | false =>
      rw [State.arbValid, State.metaSelD, hlock, if_neg Bool.false_ne_true]
      cases hr : s.rdValid x <;> cases hw : s.wrValid x
      · rw [hr, hw] at hv
        exact absurd hv (by decide)
      · rfl
      · rfl
      · exact ite_self _

theorem Inv.sent_length : s.sent.length = granted.length + (s.forked .req).toNat := by
  rw [h.sent, asked_length, List.length_append, h.held .req .eager]
  cases s.forked .req <;> rfl

theorem Inv.metas_length : (F.metaBuf.contents s.metaBuf).length + s.answered =
    granted.length + (s.forked .metaBuf).toNat := by
  have hle := h.answered_le_granted
  rw [h.metas, h.held .metaBuf .eager, List.length_drop, List.length_append]
  cases s.forked .metaBuf
  · rw [if_neg Bool.false_ne_true, List.length_nil, Bool.toNat_false]
    omega
  · rw [if_pos rfl, List.length_singleton, Bool.toNat_true]
    omega

theorem Inv.joined_of (hl : Live s) (hp : s.pShown = true ∨ x.pValid = true)
    (hsent : s.answered < s.sent.length)
    (hmetas : s.answered < granted.length + (s.forked .metaBuf).toNat) : s.joined x = true := by
  have hlen := h.metas_length
  have hlens : (F.sel.contents s.selBuf).length = (F.metaBuf.contents s.metaBuf).length := by
    rw [h.sels, h.metas, hl.fork, List.length_drop, List.length_drop, List.length_map]
  have hmeta : (F.metaBuf.contents s.metaBuf).isEmpty = false := by
    rw [List.isEmpty_eq_false_iff, ← List.length_pos_iff_ne_nil]
    omega
  have hsel : (F.sel.contents s.selBuf).isEmpty = false := by
    rw [List.isEmpty_eq_false_iff, ← List.length_pos_iff_ne_nil]
    omega
  rw [State.joined, State.pValid, State.metaBufValid, State.selBufValid, F.metaBuf.empty_eq,
    F.sel.empty_eq, hmeta, hsel, decide_eq_true hsent, Bool.and_true, Bool.false_and,
    Bool.false_and, Bool.not_false, Bool.and_true, Bool.and_true, Bool.or_eq_true]
  exact hp

/-- With empty queues a beat on offer goes into one of them. -/
theorem Inv.activity_of_valid (hmetas : granted.length + (s.forked .metaBuf).toNat ≤ s.answered)
    (hv : s.rdValid x = true ∨ s.wrValid x = true) : 0 < activity answer s x := by
  have hlen := h.metas_length
  have hle := h.answered_le_granted
  have hfork : s.forked .metaBuf = false := Bool.toNat_eq_zero.1 (by omega)
  refine activity_of_reqTakes (o := .metaBuf) (reqTakes_iff.2 ⟨h.arbValid_of hv, hfork, ?_⟩)
  change (!F.metaBuf.full s.metaBuf) = true
  rw [F.metaBuf.full_eq, Bool.not_eq_true', decide_eq_false_iff_not]
  omega

/-- The words of the beats to come are there. -/
theorem Inv.words_left
    (hws : ((aws.map (AwChan.write p)).flatMap (Burst.beats p)).length ≤ ws.length) :
    (s.write.rest p ++ (s.aws.map (AwChan.write p)).flatMap (Burst.beats p)).length ≤
      s.ws.length := by
  have hwrites := congrArg List.length h.writes
  rw [List.length_append] at hwrites
  rw [h.words, List.length_drop]
  omega

end Waiting

theorem rest_length (r : Side) : (r.rest p).length = r.cnt := by
  rw [Side.rest, List.length_map, List.length_range]

theorem beats_length_pos (b : Burst) : 0 < (b.beats p).length := by
  rw [Burst.beats, List.length_map, List.length_range]
  exact Nat.succ_pos _

/-- Wherever a run is at `c`, giving `k` gets something done. -/
def Helps (F : Cells p) (answer : Nat → RspChan p) (ars : List ArChan) (aws : List AwChan)
    (ws : List (WChan p)) (c : Places) (k : Handshake) : Prop :=
  ∀ (s : State F) (x : In) (granted : List MetaT) (cur : Option MetaT),
    Inv answer ars aws ws s granted cur → Live s → places s = c → x.gives k = true →
      0 < activity answer s x

/-- A beat in the fork waits for the request port. -/
theorem helps_of_forked (hmeta : s.forked .metaBuf = true) (hreq : s.forked .req = false) :
    Helps F answer ars aws ws (places s) .q := by
  intro s' x granted' cur' h' _ heq hx
  have hfork : s'.forked = s.forked := congrArg Places.fork heq
  exact activity_of_reqTakes (o := .req) (reqTakes_iff.2
    ⟨(h'.arb_of_forked (by rw [hfork]; exact hmeta) x).1, (congrFun hfork _).trans hreq, hx⟩)

/-- The word of the next beat comes when the W channel gives it. -/
theorem wValid_of_places
    (hws : ((aws.map (AwChan.write p)).flatMap (Burst.beats p)).length ≤ ws.length)
    {s' : State F} {granted' : List MetaT} {cur' : Option MetaT}
    (h' : Inv answer ars aws ws s' granted' cur') (heq : places s' = places s)
    (hleft : 0 < s.write.cnt ∨ s.aws ≠ []) (hx : x.wValid = true) : s'.wValid x = true := by
  have hlen := h'.words_left hws
  have hcnt : s'.write.cnt = s.write.cnt := congrArg Places.wCnt heq
  have haws : s'.aws = s.aws := congrArg Places.aws heq
  rw [List.length_append, rest_length, hcnt, haws] at hlen
  have hpos : 0 < s.write.cnt +
      ((s.aws.map (AwChan.write p)).flatMap (Burst.beats p)).length := by
    rcases hleft with hw | hne
    · exact Nat.add_pos_left hw _
    · obtain ⟨a, l, hl⟩ := List.exists_cons_of_ne_nil hne
      rw [hl, List.map_cons, List.flatMap_cons, List.length_append]
      exact Nat.add_pos_right _ (Nat.add_pos_left (beats_length_pos _) _)
  rw [State.wValid, hx, Bool.or_true, Bool.true_and,
    List.isEmpty_eq_false_iff.2 (List.ne_nil_of_length_pos (hpos.trans_le hlen))]
  rfl

section Helps

variable (h : Inv answer ars aws ws s granted cur)
include h

/-- A response and the fronts of the queues are joined at every such place. -/
theorem joined_of_places (hmetas : s.answered < granted.length + (s.forked .metaBuf).toNat)
    (hsent : s.answered < granted.length + (s.forked .req).toNat) {s' : State F}
    {granted' : List MetaT} {cur' : Option MetaT} (h' : Inv answer ars aws ws s' granted' cur')
    (hl' : Live s') (heq : places s' = places s) (hp : s'.pShown = true ∨ x.pValid = true) :
    s'.joined x = true := by
  have hsum := h.granted_add_left
  have hsum' := h'.granted_add_left
  have hanswered : s'.answered = s.answered := congrArg Places.answered heq
  have hfork : s'.forked = s.forked := congrArg Places.fork heq
  have hsame : left s' = left s := congrArg Places.left heq
  refine h'.joined_of hl' hp ?_ ?_
  · rw [h'.sent_length, hanswered, hfork]
    omega
  · rw [hanswered, hfork]
    omega

/-- A request that is not answered waits for its response, or the response for its channels. -/
theorem helps_of_asked (hmetas : s.answered < granted.length + (s.forked .metaBuf).toNat)
    (hsent : s.answered < granted.length + (s.forked .req).toNat) :
    ∃ k, Helps F answer ars aws ws (places s) k := by
  cases hshown : s.pShown with
  | false =>
      refine ⟨.p, fun s' x granted' cur' h' hl' heq hx => ?_⟩
      have hjoined := joined_of_places h hmetas hsent h' hl' heq (.inr hx)
      have hvalid := (Bool.and_eq_true_iff.1 (Bool.and_eq_true_iff.1 hjoined).1).1
      have hnot : s'.pShown = false := (congrArg Places.pShown heq).trans hshown
      have hnext : (s'.next answer x).pShown = (s'.pValid x && !s'.joinReady x) := rfl
      rw [activity, hnot, hnext, hvalid]
      cases s'.joinReady x
      · rw [Bool.not_false, Bool.and_true, Bool.and_true, Bool.toNat_true]
        omega
      · rw [Bool.toNat_true]
        omega
  | true =>
      have hp : ∀ s' : State F, places s' = places s → s'.pShown = true := fun s' heq =>
        (congrArg Places.pShown heq).trans hshown
      cases hb : s.dynForked .b with
      | false =>
          refine ⟨.b, fun s' x granted' cur' h' hl' heq hx => ?_⟩
          refine activity_of_rspTakes (o := .b) (rspTakes_iff.2
            ⟨joined_of_places h hmetas hsent h' hl' heq (.inl (hp s' heq)), ?_, ?_⟩)
          · exact (congrFun (congrArg Places.dynFork heq) .b).trans hb
          · change (!_ || x.bReady) = true
            rw [show x.bReady = true from hx, Bool.or_true]
      | true =>
          refine ⟨.r, fun s' x granted' cur' h' hl' heq hx => ?_⟩
          refine activity_of_rspTakes (o := .r) (rspTakes_iff.2
            ⟨joined_of_places h hmetas hsent h' hl' heq (.inl (hp s' heq)), ?_, ?_⟩)
          · obtain ⟨o, -, ho⟩ := h'.dynOpen
            cases o
            · have hb' : s'.dynForked .b = true :=
                (congrFun (congrArg Places.dynFork heq) .b).trans hb
              rw [hb'] at ho
              cases ho
            · exact ho
          · change (!_ || x.rReady) = true
            rw [show x.rReady = true from hx, Bool.or_true]

section Empty

variable (hempty : granted.length + (s.forked .metaBuf).toNat ≤ s.answered)
include hempty

/-- With empty queues a handshake that brings a beat helps. -/
theorem helps_of_valid {k : Handshake} (hvalid : ∀ (s' : State F) (x : In) (granted' : List MetaT)
      (cur' : Option MetaT), Inv answer ars aws ws s' granted' cur' → places s' = places s →
        x.gives k = true → s'.rdValid x = true ∨ s'.wrValid x = true) :
    Helps F answer ars aws ws (places s) k := by
  intro s' x granted' cur' h' _ heq hx
  have hsum := h.granted_add_left
  have hsum' := h'.granted_add_left
  have hanswered : s'.answered = s.answered := congrArg Places.answered heq
  have hfork : s'.forked = s.forked := congrArg Places.fork heq
  have hsame : left s' = left s := congrArg Places.left heq
  refine h'.activity_of_valid ?_ (hvalid s' x granted' cur' h' heq hx)
  rw [hanswered, hfork]
  omega

theorem helps_of_read (hleft : 0 < s.read.cnt ∨ s.ars ≠ []) :
    Helps F answer ars aws ws (places s) .ar := by
  refine helps_of_valid h hempty fun s' x granted' cur' _ heq hx => .inl ?_
  have hcnt : s'.read.cnt = s.read.cnt := congrArg Places.rCnt heq
  have hars : s'.ars = s.ars := congrArg Places.ars heq
  rw [State.rdValid, Side.valid, hcnt]
  split_ifs with hr
  · rfl
  · obtain ⟨a, l, hl⟩ := List.exists_cons_of_ne_nil (hleft.resolve_left hr)
    rw [State.newRead, show x.arValid = true from hx, Bool.or_true, if_pos rfl, hars, hl]
    rfl

/-- A burst of writes has to be offered; from then on its words do. -/
theorem helps_of_write
    (hws : ((aws.map (AwChan.write p)).flatMap (Burst.beats p)).length ≤ ws.length)
    (hleft : 0 < s.write.cnt ∨ s.aws ≠ []) :
    ∃ k, Helps F answer ars aws ws (places s) k := by
  by_cases hready : 0 < s.write.cnt ∨ s.awShown = true
  · refine ⟨.w, helps_of_valid h hempty fun s' x granted' cur' h' heq hx => .inr ?_⟩
    have hword := wValid_of_places hws h' heq hleft hx
    have hcnt : s'.write.cnt = s.write.cnt := congrArg Places.wCnt heq
    have haws : s'.aws = s.aws := congrArg Places.aws heq
    have hsame : s'.awShown = s.awShown := congrArg Places.awShown heq
    rw [State.wrValid, Side.valid, hcnt]
    split_ifs with hw
    · exact hword
    · obtain ⟨a, l, hl⟩ := List.exists_cons_of_ne_nil (hleft.resolve_left hw)
      rw [State.newWrite, hsame, hready.resolve_left hw, hword, Bool.true_or, Bool.and_self,
        if_pos rfl, haws, hl]
      rfl
  · rw [not_or, Bool.not_eq_true] at hready
    refine ⟨.aw, fun s' x granted' cur' h' _ heq hx => ?_⟩
    have hnot : s'.awShown = false := (congrArg Places.awShown heq).trans hready.2
    have hne : s'.aws ≠ [] := by
      rw [show s'.aws = s.aws from congrArg Places.aws heq]
      exact hleft.resolve_left hready.1
    have hnext : (s'.next answer x).awShown =
        ((s'.awShown || x.awValid) && !s'.aws.isEmpty && !s'.awTakes x) := rfl
    cases htakes : s'.awTakes x with
    | true =>
        refine activity_of_arbReady ?_
        rw [State.awTakes, Side.takes, Bool.and_eq_true, State.wrReady] at htakes
        exact (Bool.and_eq_true_iff.1 htakes.2).2
    | false =>
        rw [activity, hnext, htakes, hnot, show x.awValid = true from hx,
          List.isEmpty_eq_false_iff.2 hne]
        change 0 < _ + 1 + _ + _
        omega

end Empty

end Helps

/-- As long as anything is left, there is a handshake that gets something done. -/
theorem exists_helpful
    (hws : ((aws.map (AwChan.write p)).flatMap (Burst.beats p)).length ≤ ws.length)
    (h : Inv answer ars aws ws s granted cur)
    (hleft : ¬(places s).Done (total p ars aws)) :
    ∃ k, Helps F answer ars aws ws (places s) k := by
  have hsum := h.granted_add_left
  have hle := h.answered_le_granted
  by_cases hqueued : s.answered < granted.length + (s.forked .metaBuf).toNat
  · by_cases hsent : s.answered < granted.length + (s.forked .req).toNat
    · exact helps_of_asked h hqueued hsent
    · have hreq : s.forked .req = false := Bool.toNat_eq_zero.1 (by omega)
      have hmeta : s.forked .metaBuf = true := by
        by_contra hno
        rw [Bool.not_eq_true] at hno
        rw [hno, Bool.toNat_false] at hqueued
        omega
      exact ⟨.q, helps_of_forked hmeta hreq⟩
  · have hempty := Nat.le_of_not_lt hqueued
    by_cases hr : 0 < s.read.cnt ∨ s.ars ≠ []
    · exact ⟨.ar, helps_of_read h hempty hr⟩
    by_cases hw : 0 < s.write.cnt ∨ s.aws ≠ []
    · exact helps_of_write h hempty hws hw
    rw [not_or, not_not] at hr hw
    refine absurd ?_ hleft
    have hzero : left s = 0 := by
      rw [left, hr.2, hw.2, List.length_append, List.length_append, rest_length, rest_length]
      exact Nat.add_eq_zero_iff.2 ⟨Nat.eq_zero_of_not_pos hr.1, Nat.eq_zero_of_not_pos hw.1⟩
    exact ⟨hzero, show s.answered = _ by omega⟩

/-! ## A run -/

/-- Everything has gone through the bridge, and everything is answered. -/
structure Answered (answer : Nat → RspChan p) (ars : List ArChan) (aws : List AwChan)
    (ws : List (WChan p)) (s : State F) : Prop where
  reads : side false (s.sent.map Prod.fst) = (ars.map (ArChan.read p)).flatMap (Burst.beats p)
  writes : side true (s.sent.map Prod.fst) = (aws.map (AwChan.write p)).flatMap (Burst.beats p)
  words : s.sent = asked ws (s.sent.map Prod.fst)
  rs : s.rs = responses MetaT.selR MetaT.rBeat answer (s.sent.map Prod.fst)
  bs : s.bs = responses MetaT.selB MetaT.bBeat answer (s.sent.map Prod.fst)
  rBursts : ((s.rs.filter fun c => !c.1.write).map fun c => (c.2.id, c.2.last)) =
    ars.flatMap fun ar => (List.range (ar.len + 1)).map fun k => (ar.id, ar.len == k)
  bBursts : (s.bs.map fun c => c.2.id) = aws.map fun aw => aw.id

theorem Inv.answered (h : Inv answer ars aws ws s granted cur)
    (hdone : (places s).Done (total p ars aws)) : Answered answer ars aws ws s := by
  have hzero : left s = 0 := hdone.1
  have hall : s.answered = total p ars aws := hdone.2
  have hb := h.bridged
  have hsum := h.granted_add_left
  have hle := h.answered_le_granted
  rw [hzero, Nat.add_zero] at hsum
  rw [left] at hzero
  have hreads : side false granted = (ars.map (ArChan.read p)).flatMap (Burst.beats p) := by
    rw [← h.reads, List.eq_nil_of_length_eq_zero
      (l := s.read.rest p ++ (s.ars.map (ArChan.read p)).flatMap (Burst.beats p)) (by omega),
      List.append_nil]
  have hwrites : side true granted = (aws.map (AwChan.write p)).flatMap (Burst.beats p) := by
    rw [← h.writes, List.eq_nil_of_length_eq_zero
      (l := s.write.rest p ++ (s.aws.map (AwChan.write p)).flatMap (Burst.beats p)) (by omega),
      List.append_nil]
  have hsent : s.sent.map Prod.fst = granted := by
    have hpre : granted <+: s.sent.map Prod.fst := by
      rw [h.sent, asked_fst]
      exact List.prefix_append _ _
    refine (hpre.eq_of_length_le ?_).symm
    have hlen := side_length (s.sent.map Prod.fst)
    have hr := hb.reads.length_le
    have hw := hb.writes.length_le
    rw [total] at hsum
    omega
  have hrs : s.rs = responses MetaT.selR MetaT.rBeat answer (s.sent.map Prod.fst) := by
    rw [h.rs, hsent, List.take_of_length_le (by omega)]
  have hbs : s.bs = responses MetaT.selB MetaT.bBeat answer (s.sent.map Prod.fst) := by
    rw [h.bs, hsent, List.take_of_length_le (by omega)]
  refine ⟨hsent ▸ hreads, hsent ▸ hwrites, hb.words, hrs, hbs, ?_, ?_⟩
  · rw [hrs, hsent, responses_reads, hreads, beats_ids]
  · rw [hbs, hsent, responses_writes, hwrites, lasts_ids]

section Run

variable (F answer) (x : Nat → In)

theorem live_after (t : Nat) : Live (after F answer ars aws ws x t) := by
  induction t with
  | zero =>
      refine ⟨nofun, nofun, nofun, nofun, ?_⟩
      rw [after, forked_start, forked_start]
  | succ t ih =>
      obtain ⟨granted, cur, h⟩ := inv_after F answer ars aws ws x t
      exact h.live_next ih

end Run

/-- Where a run is: nowhere, when everything is done. -/
def Places.view (n : Nat) (c : Places) : Option Places := if c.Done n then none else some c

/-- How much is left there. -/
def height (n : Nat) : Option Places → Nat
  | none => 0
  | some c => c.load n + 1

theorem Places.done_of_height {n : Nat} {c : Places} (h : height n (c.view n) = 0) : c.Done n := by
  by_contra hno
  rw [view, if_neg hno] at h
  exact Nat.succ_ne_zero _ h

theorem Places.eq_of_view {n : Nat} {c c' : Places} (hc : ¬c.Done n) (h : c'.view n = c.view n) :
    c' = c := by
  rw [view, view, if_neg hc] at h
  split_ifs at h
  exact Option.some.inj h

theorem done_next (h : Inv answer ars aws ws s granted cur)
    (hdone : (places s).Done (total p ars aws)) :
    (places (s.next answer x)).Done (total p ars aws) := by
  have hzero : left s = 0 := hdone.1
  have hall : s.answered = total p ars aws := hdone.2
  have hleft := h.left_next (x := x)
  have hle := (h.step (x := x)).answered_le_total
  have hanswered : (s.next answer x).answered = s.answered + (s.joinReady x).toNat := rfl
  exact ⟨show left (s.next answer x) = 0 by omega,
    show (s.next answer x).answered = _ by omega⟩

theorem height_next (h : Inv answer ars aws ws s granted cur) (hl : Live s)
    (hactive : 0 < activity answer s x) (hleft : ¬(places s).Done (total p ars aws)) :
    height (total p ars aws) ((places (s.next answer x)).view (total p ars aws)) <
      height (total p ars aws) ((places s).view (total p ars aws)) := by
  have hload := load_next (x := x) h hl
  rw [Places.view, Places.view, if_neg hleft]
  split_ifs
  · exact Nat.succ_pos _
  · rw [height, height]
    omega

/-- A cycle leaves a run where it is, or gets something done. -/
theorem view_next (h : Inv answer ars aws ws s granted cur) (hl : Live s) :
    (places (s.next answer x)).view (total p ars aws) = (places s).view (total p ars aws) ∨
      height (total p ars aws) ((places (s.next answer x)).view (total p ars aws)) <
        height (total p ars aws) ((places s).view (total p ars aws)) := by
  rcases Nat.eq_zero_or_pos (activity answer s x) with hidle | hactive
  · rw [places_next h hl hidle]
    exact .inl rfl
  · by_cases hdone : (places s).Done (total p ars aws)
    · rw [Places.view, Places.view, if_pos hdone, if_pos (done_next h hdone)]
      exact .inl rfl
    · exact .inr (height_next h hl hactive hdone)

section Run

variable (F answer) (x : Nat → In)

/-- As long as each of the seven handshakes keeps being given, everything gets done, when the
words of the write bursts are all there. -/
theorem after_answered
    (hws : ((aws.map (AwChan.write p)).flatMap (Burst.beats p)).length ≤ ws.length)
    (hfair : ∀ k t, ∃ u, t ≤ u ∧ (x u).gives k = true) :
    ∃ t, ∀ u, t ≤ u → Answered answer ars aws ws (after F answer ars aws ws x u) := by
  obtain ⟨t, c, rfl, hbottom⟩ := eventually_bottom
    (fun t c => (places (after F answer ars aws ws x t)).view (total p ars aws) = c)
    (fun t k => (x t).gives k = true) (height (total p ars aws))
    (fun t c hat => by
      obtain ⟨granted, cur, h⟩ := inv_after F answer ars aws ws x t
      subst hat
      exact ⟨_, rfl, view_next h (live_after F answer x t)⟩)
    (fun t c hat hpos => by
      obtain ⟨granted, cur, h⟩ := inv_after F answer ars aws ws x t
      subst hat
      have hdone : ¬(places (after F answer ars aws ws x t)).Done (total p ars aws) := by
        intro hdone
        rw [Places.view, if_pos hdone] at hpos
        exact Nat.lt_irrefl 0 hpos
      obtain ⟨k, hk⟩ := exists_helpful hws h hdone
      refine ⟨k, fun u hat hgives => ⟨_, rfl, ?_⟩⟩
      obtain ⟨granted', cur', h'⟩ := inv_after F answer ars aws ws x u
      have hl' : Live (after F answer ars aws ws x u) := live_after F answer x u
      have hsame := Places.eq_of_view hdone hat
      have hactive := hk _ (x u) granted' cur' h' hl' hsame hgives
      rw [← hat]
      exact height_next h' hl' hactive (hsame ▸ hdone))
    hfair (t := 0) rfl
  refine ⟨t, fun u hu => ?_⟩
  -- what is done stays done
  have hstays : ∀ d, (places (after F answer ars aws ws x (t + d))).Done (total p ars aws) := by
    intro d
    induction d with
    | zero => exact Places.done_of_height hbottom
    | succ d ih =>
        obtain ⟨granted, cur, h⟩ := inv_after F answer ars aws ws x (t + d)
        exact done_next h ih
  obtain ⟨granted, cur, h⟩ := inv_after F answer ars aws ws x u
  have hdone := hstays (u - t)
  rw [Nat.add_sub_cancel' hu] at hdone
  exact h.answered hdone

/-- A read burst of four beats and a write burst of two. -/
theorem after_answered_twoBursts : ∃ t, ∀ u, t ≤ u →
    Answered (fun n => ⟨BitVec.ofNat 64 n, false⟩) [⟨0x1000, 3, 3, 1, 0, false⟩]
      [⟨⟨0x2000, 1, 3, 2, 0, false⟩, 0⟩] [⟨7, 255⟩, ⟨8, 255⟩]
      (after (.list ⟨32, 64, 2⟩) (fun n => ⟨BitVec.ofNat 64 n, false⟩)
        [⟨0x1000, 3, 3, 1, 0, false⟩] [⟨⟨0x2000, 1, 3, 2, 0, false⟩, 0⟩] [⟨7, 255⟩, ⟨8, 255⟩]
        (fun _ => .eager) u) :=
  after_answered (.list ⟨32, 64, 2⟩) _ _ (by decide) fun k t =>
    ⟨t, Nat.le_refl t, by cases k <;> rfl⟩

end Run

end TeraNoC.Hw.AxiToReqrsp
