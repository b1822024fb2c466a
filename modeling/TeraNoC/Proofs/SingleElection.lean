import TeraNoC.Proofs.WorkProgress

/-!
# A single elects one thread

The thread that sets `checkfirst` is the one that gets 1, and it is alone with the record
until it has: the body is with it from then on, first to be executed and then executed. That
nobody gets it a second time is the count of `SingleRunning`; here it is read as a statement
about the threads that got 1. That the call returns to everybody, in every instance, is the
progress of a fair team.
-/

namespace TeraNoC.Runtime

open TeraNoC.Lib

/-- A region of `m` singles, each behind the barrier of the one before. -/
def singles (nthreads m : Nat) : WorkRegion := ⟨nthreads, List.replicate m .single⟩

namespace WorkState

variable (s : WorkState)

/-- `GOMP_single_start` has returned 1 to thread `i` in instance `k`: it executes the body, or
has executed it. -/
def GotOne (k i : Nat) : Prop :=
  (∃ lo hi, (i, lo, hi) ∈ (s.logOf k).ran) ∨ k = s.past.length ∧ ∃ lo hi, s.pc i = .body lo hi

/-- `GOMP_single_start` has returned to thread `i` in instance `k`. -/
def Returned (k i : Nat) : Prop :=
  k < s.past.length ∨ k = s.past.length ∧ (s.pc i = .barrier ∨ ∃ lo hi, s.pc i = .body lo hi)

end WorkState

section Single

variable {n m i j k : Nat} {s s' : WorkState} {q : WorkPc} {r : WorkRegion}

theorem singles_safe (hpos : 0 < n) (hlt : n < 2 ^ 32) (m : Nat) : (singles n m).Safe where
  nthreads_pos := hpos
  nthreads_lt := hlt
  single c hc := List.eq_of_mem_replicate (List.dropLast_subset _ hc)
  fits c hc := by
    rw [List.eq_of_mem_replicate hc]
    trivial

/-- The body of a single is its one iteration, and `checkfirst` has no third value. -/
structure Elections (n : Nat) (s : WorkState) : Prop where
  bodies : ∀ i < n, ∀ lo hi, s.pc i = .body lo hi ∨ s.pc i = .unlock (.body lo hi) →
    lo = 0 ∧ hi = 1
  ran : ∀ e ∈ s.log.ran, e.1 < n ∧ e.2 = (0, 1)
  checkfirst : s.works.checkfirst = wsInited ∨ s.works.checkfirst = wsNotInited
  stores : ∀ i < n, ∀ l, s.pc i = .init l → ∀ v, .checkfirst v ∈ l → v = wsInited
  past : ∀ l ∈ s.past, ∃ i < n, l.ran = [(i, 0, 1)]

theorem Elections.move (h : Elections n s) (hpc : s'.pc = Function.update s.pc i q)
    (hbodies : ∀ lo hi, q = .body lo hi ∨ q = .unlock (.body lo hi) → lo = 0 ∧ hi = 1)
    (hran : s'.log.ran = s.log.ran)
    (hcheck : s'.works.checkfirst = wsInited ∨ s'.works.checkfirst = wsNotInited)
    (hstores : ∀ l, q = .init l → ∀ v, .checkfirst v ∈ l → v = wsInited)
    (hpast : s'.past = s.past) : Elections n s' where
  bodies j hj lo hi hat := by
    rcases pc_after hpc j with ⟨-, hjq⟩ | ⟨-, hjs⟩
    · exact hbodies lo hi (hjq ▸ hat)
    · exact h.bodies j hj lo hi (hjs ▸ hat)
  ran := hran ▸ h.ran
  checkfirst := hcheck
  stores j hj l hat := by
    rcases pc_after hpc j with ⟨-, hjq⟩ | ⟨-, hjs⟩
    · exact hstores l (hjq ▸ hat)
    · exact h.stores j hj l (hjs ▸ hat)
  past := hpast ▸ h.past

theorem singlePc_body {ret : Bool} {lo hi : Int} (h : WorkRegion.singlePc ret = .body lo hi) :
    lo = 0 ∧ hi = 1 := by
  cases ret with
  | true =>
      cases h
      exact ⟨rfl, rfl⟩
  | false => cases h

/-- Where the threads of a single can be. -/
theorem Stage.single_pc (h : Stage n .single s) (hi : i < n) :
    (∃ l, s.pc i = .init l) ∨ SinglePc n s.works.completed (s.pc i) := by
  have halone : ∀ {j q}, Alone n s j q →
      ((∃ l, q = .init l) ∨ SinglePc n s.works.completed q) →
      (∃ l, s.pc i = .init l) ∨ SinglePc n s.works.completed (s.pc i) := by
    intro j q halone hq
    by_cases hij : i = j
    · rw [hij, halone.pc]
      exact hq
    · rw [halone.others i hi hij]
      exact .inr .start
  cases h with
  | fresh hpcs _ _ =>
      rw [hpcs i hi]
      exact .inr .start
  | entering j h _ => exact halone h (.inr .enter)
  | initing j stores h _ => exact halone h (.inl ⟨stores, rfl⟩)
  | running _ hrun => exact .inr (hrun.pcs i hi)

theorem Elections.stepIn (h : Elections r.nthreads s) (hstage : Stage r.nthreads .single s)
    (hi : i < r.nthreads) (hbarrier : s.pc i ≠ .barrier) :
    Elections r.nthreads (r.stepIn .single s i) := by
  rcases hstage.single_pc hi with ⟨l, hat⟩ | hleg
  · cases l with
    | nil =>
        simp only [WorkRegion.stepIn, hat]
        exact h.move rfl (by rintro _ _ (hq | hq) <;> cases hq) rfl h.checkfirst
          (by rintro _ ⟨⟩) rfl
    | cons w l =>
        have hstores := h.stores i hi _ hat
        simp only [WorkRegion.stepIn, hat]
        refine h.move rfl (by rintro _ _ (hq | hq) <;> cases hq) rfl ?_ ?_ rfl
        · cases w with
          | checkfirst v => exact .inl (hstores v List.mem_cons_self)
          | completed v | chunkSize v | end_ v | incr v | next v => exact h.checkfirst
        · rintro _ ⟨⟩ v hv
          exact hstores v (List.mem_cons_of_mem _ hv)
  · generalize hat : s.pc i = pc at hleg hbarrier
    cases hleg with
    | start =>
        simp only [WorkRegion.stepIn, hat]
        split
        · exact h
        · exact h.move rfl (by rintro _ _ (hq | hq) <;> cases hq) rfl h.checkfirst
            (by rintro _ ⟨⟩) rfl
    | enter =>
        simp only [WorkRegion.stepIn, hat]
        split
        · refine h.move rfl (by rintro _ _ (hq | hq) <;> cases hq) rfl h.checkfirst ?_ rfl
          rintro _ ⟨⟩ v hv
          simp only [Construct.stores, List.append_nil, List.mem_cons, WorkStore.checkfirst.injEq,
            reduceCtorEq, List.not_mem_nil, or_false] at hv
          exact hv
        · exact h.move rfl (by rintro _ _ (hq | hq) <;> cases hq) rfl h.checkfirst
            (by rintro _ ⟨⟩) rfl
    | started ret =>
        simp only [WorkRegion.stepIn, hat]
        exact h.move rfl (by rintro _ _ (hq | hq) <;> cases hq) rfl h.checkfirst
          (by rintro _ ⟨⟩) rfl
    | added ret =>
        simp only [WorkRegion.stepIn, hat]
        split
        · exact h.move rfl (by rintro _ _ (hq | hq) <;> cases hq) rfl h.checkfirst
            (by rintro _ ⟨⟩) rfl
        · refine h.move rfl ?_ rfl h.checkfirst (by rintro _ ⟨⟩) rfl
          rintro lo hi (hq | hq)
          · cases hq
          · exact singlePc_body (WorkPc.unlock.inj hq)
    | reset ret _ =>
        simp only [WorkRegion.stepIn, hat]
        refine h.move rfl ?_ rfl (.inr rfl) (by rintro _ ⟨⟩) rfl
        rintro lo hi (hq | hq)
        · cases hq
        · exact singlePc_body (WorkPc.unlock.inj hq)
    | unlock ret =>
        simp only [WorkRegion.stepIn, hat]
        refine h.move rfl ?_ rfl h.checkfirst ?_ rfl
        · rintro lo hi (hq | hq)
          · exact singlePc_body hq
          · cases ret <;> cases hq
        · intro l hl
          cases ret <;> cases hl
    | body lo hi' =>
        simp only [WorkRegion.stepIn, hat]
        obtain ⟨rfl, rfl⟩ := h.bodies i hi lo hi' (.inl hat)
        have hnext : Elections r.nthreads (s.goto i .barrier) :=
          h.move rfl (by rintro _ _ (hq | hq) <;> cases hq) rfl h.checkfirst (by rintro _ ⟨⟩) rfl
        refine ⟨hnext.bodies, fun e he => ?_, h.checkfirst, hnext.stores, h.past⟩
        rcases List.mem_append.mp he with he | he
        · exact h.ran e he
        · rw [List.mem_singleton.mp he]
          exact ⟨hi, rfl⟩
    | barrier => exact absurd rfl hbarrier

/-- The executions of the one iteration are all there are. -/
theorem Elections.runs (h : Elections n s) : Construct.single.runs s.log 0 = s.log.ran.length := by
  rw [Construct.runs, List.countP_eq_length]
  intro e he
  obtain ⟨-, hiter⟩ := h.ran e he
  rw [hiter]
  decide

theorem Elections.release (h : Elections n s) (hruns : Construct.single.runs s.log 0 = 1) :
    Elections n { s with pc := fun _ => .start, log := .empty, past := s.past ++ [s.log] } where
  bodies := nofun
  ran := nofun
  checkfirst := h.checkfirst
  stores := nofun
  past l hl := by
    rcases List.mem_append.mp hl with hl | hl
    · exact h.past l hl
    · rw [List.mem_singleton.mp hl]
      rw [h.runs] at hruns
      obtain ⟨⟨i, lo, hi⟩, hran⟩ := List.length_eq_one_iff.mp hruns
      obtain ⟨hi, hiter⟩ := h.ran (i, lo, hi) (hran ▸ List.mem_singleton_self _)
      cases hiter
      exact ⟨i, hi, hran⟩

theorem singles_prog {k : Nat} {c : Construct} (h : (singles n m).prog[k]? = some c) :
    c = .single :=
  List.eq_of_mem_replicate (List.mem_of_getElem? h)

theorem elections_after (hpos : 0 < n) (hlt : n < 2 ^ 32) (works : Works) (sched : Nat → Nat)
    (t : Nat) : Elections n ((singles n m).after works sched t) := by
  induction t with
  | zero => exact ⟨nofun, nofun, .inr rfl, nofun, nofun⟩
  | succ t ih =>
      have hsafe := singles_safe hpos hlt m
      have hinv := regionInv_after hsafe works sched t
      rw [WorkRegion.after, WorkRegion.step]
      generalize (singles n m).after works sched t = s at ih hinv
      split
      · rename_i c hc
        obtain rfl := singles_prog hc
        have hstage := hinv.current _ hc
        split
        · rename_i hi
          by_cases hbarrier : s.pc (sched t) = .barrier
          · simp only [WorkRegion.stepIn, hbarrier]
            split
            · rename_i hall
              exact ih.release ((hstage.complete trivial hpos hall).1.runs 0)
            · exact ih
          · exact ih.stepIn hstage hi hbarrier
        · exact ih
      · exact ih

/-! ## The threads that got 1 -/

/-- Two threads of a tally of one are the same. -/
theorem tally_one_inj {β : Type} {p : β → Bool} {f : Nat → β} (h : tally p f n ≤ 1) (v : β)
    (hv : p v = false) (hi : i < n) (hj : j < n) (hpi : p (f i) = true) (hpj : p (f j) = true) :
    i = j := by
  by_contra hij
  have hupd := tally_update p f v hi
  have hpos : tally p (Function.update f i v) n ≠ 0 := fun hzero => by
    have := tally_eq_zero.mp hzero j hj
    rw [Function.update_of_ne (Ne.symm hij), hpj] at this
    cases this
  rw [hpi, hv, Bool.toNat_true, Bool.toNat_false] at hupd
  omega

theorem owes_body (h : Elections n s) (hi : i < n) (hat : ∃ lo hi, s.pc i = .body lo hi) :
    Construct.single.owes 0 (s.pc i) = true := by
  obtain ⟨lo, hi', hat⟩ := hat
  obtain ⟨rfl, rfl⟩ := h.bodies i hi lo hi' (.inl hat)
  rw [hat]
  decide

/-- The current instance hands its body out at most once. -/
theorem Stage.single_given (h : Stage n .single s) (helect : Elections n s) :
    s.log.ran.length + tally (Construct.single.owes 0) s.pc n ≤ 1 := by
  have hzero : ∀ {l : ConstructLog}, s.log = l → l.ran = [] →
      (∀ j < n, Construct.single.owes 0 (s.pc j) = false) →
      s.log.ran.length + tally (Construct.single.owes 0) s.pc n ≤ 1 := by
    intro l hlog hran hnone
    rw [tally_eq_zero.mpr hnone, hlog, hran]
    decide
  have halone : ∀ {j q}, Alone n s j q → Construct.single.owes 0 q = false →
      s.log.ran.length + tally (Construct.single.owes 0) s.pc n ≤ 1 := by
    intro j q halone hq
    refine hzero halone.log rfl fun i hi => ?_
    by_cases hij : i = j
    · rw [hij, halone.pc, hq]
    · rw [halone.others i hi hij]
      rfl
  cases h with
  | fresh hpcs hlog _ =>
      refine hzero hlog rfl fun j hj => ?_
      rw [hpcs j hj]
      rfl
  | entering j h _ => exact halone h rfl
  | initing j stores h _ => exact halone h rfl
  | running _ hrun =>
      have hgiven := hrun.given 0
      rw [Construct.given, helect.runs, if_pos (by decide)] at hgiven
      exact Nat.le_of_eq hgiven

/-- At any time at most one thread has got 1 in instance `k`; when the call has returned to all
threads exactly one has, and `checkfirst` is cleared. -/
structure Elected (n : Nat) (s : WorkState) (k : Nat) : Prop where
  atMostOne : ∀ i < n, ∀ j < n, s.GotOne k i → s.GotOne k j → i = j
  exactlyOne : (∀ i < n, s.Returned k i) → ∃ i < n, s.GotOne k i
  cleared : k = s.past.length → (∀ i < n, s.Returned k i) → s.works.checkfirst = wsNotInited

theorem logOf_past (hk : k < s.past.length) : s.logOf k ∈ s.past := by
  rw [WorkState.logOf, List.getD_eq_getElem?_getD, List.getElem?_append_left hk,
    List.getElem?_eq_getElem hk]
  exact List.getElem_mem hk

theorem Elections.elected_past (h : Elections n s) (hk : k < s.past.length) : Elected n s k := by
  obtain ⟨i, hi, hran⟩ := h.past _ (logOf_past hk)
  have hgot : ∀ j, s.GotOne k j → j = i := by
    rintro j (⟨lo, hi', hmem⟩ | ⟨heq, -⟩)
    · rw [hran, List.mem_singleton] at hmem
      exact (Prod.mk.inj hmem).1
    · omega
  refine ⟨fun j _ j' _ hj hj' => (hgot j hj).trans (hgot j' hj').symm, fun _ => ?_, fun heq => ?_⟩
  · exact ⟨i, hi, .inl ⟨0, 1, hran ▸ List.mem_singleton_self _⟩⟩
  · omega

/-- When the call has returned to everybody, the construct has been set up. -/
theorem Stage.running_of_returned (h : Stage n .single s) (hpos : 0 < n)
    (hall : ∀ i < n, s.Returned s.past.length i) : SingleRunning n s := by
  have hpc : ∀ i < n, s.pc i = .barrier ∨ ∃ lo hi, s.pc i = .body lo hi := by
    intro i hi
    rcases hall i hi with hlt | ⟨-, hat⟩
    · omega
    · exact hat
  have hnot : ∀ {i q}, i < n → s.pc i = q → q ≠ .barrier → (∀ lo hi, q ≠ .body lo hi) → False := by
    rintro i q hi rfl hbarrier hbody
    rcases hpc i hi with hat | ⟨lo, hi', hat⟩
    · exact hbarrier hat
    · exact hbody lo hi' hat
  cases h with
  | fresh hpcs _ _ => exact (hnot hpos (hpcs 0 hpos) nofun nofun).elim
  | entering j h _ => exact (hnot h.lt h.pc nofun nofun).elim
  | initing j stores h _ => exact (hnot h.lt h.pc nofun nofun).elim
  | running _ hrun => exact hrun

theorem Elections.elected_current (h : Elections n s) (hstage : Stage n .single s)
    (hpos : 0 < n) : Elected n s s.past.length := by
  have hgiven := hstage.single_given h
  have hran : ∀ i, s.GotOne s.past.length i →
      (∃ lo hi, (i, lo, hi) ∈ s.log.ran) ∨ ∃ lo hi, s.pc i = .body lo hi := by
    rintro i (hmem | ⟨-, hat⟩)
    · rw [logOf_current] at hmem
      exact .inl hmem
    · exact .inr hat
  -- the body is executed, or to be executed by one thread
  have hmixed : ∀ i j, j < n → (∃ lo hi, (i, lo, hi) ∈ s.log.ran) →
      ¬ ∃ lo hi, s.pc j = .body lo hi := by
    rintro i j hj ⟨lo, hi, hmem⟩ hat
    have hlen := List.length_pos_of_mem hmem
    have hzero : tally (Construct.single.owes 0) s.pc n = 0 := by omega
    have := tally_eq_zero.mp hzero j hj
    rw [owes_body h hj hat] at this
    cases this
  refine ⟨fun i hi j hj hgi hgj => ?_, fun hall => ?_, fun _ hall => ?_⟩
  · rcases hran i hgi with hmi | hbi
    · rcases hran j hgj with hmj | hbj
      · obtain ⟨lo, hi', hmi⟩ := hmi
        obtain ⟨lo', hi'', hmj⟩ := hmj
        obtain ⟨e, he⟩ := List.length_eq_one_iff.mp
          (Nat.le_antisymm (by omega) (List.length_pos_of_mem hmi))
        rw [he, List.mem_singleton] at hmi hmj
        exact (Prod.mk.inj (hmi.trans hmj.symm)).1
      · exact absurd hbj (hmixed i j hj hmi)
    · rcases hran j hgj with hmj | hbj
      · exact absurd hbi (hmixed j i hi hmj)
      · exact tally_one_inj (by omega) .barrier rfl hi hj (owes_body h hi hbi) (owes_body h hj hbj)
  · have hone := (hstage.running_of_returned hpos hall).given 0
    rw [Construct.given, h.runs, if_pos (by decide)] at hone
    rcases Nat.eq_zero_or_pos s.log.ran.length with hzero | hlen
    · -- nobody has executed it yet
      have hex : ∃ i < n, Construct.single.owes 0 (s.pc i) = true := by
        by_contra hno
        have : tally (Construct.single.owes 0) s.pc n = 0 := by
          refine tally_eq_zero.mpr fun i hi => ?_
          rw [← Bool.not_eq_true]
          exact fun howes => hno ⟨i, hi, howes⟩
        omega
      obtain ⟨i, hi, howes⟩ := hex
      refine ⟨i, hi, .inr ⟨rfl, ?_⟩⟩
      rcases hall i hi with hlt | ⟨-, hat | hat⟩
      · omega
      · rw [hat] at howes
        cases howes
      · exact hat
    · obtain ⟨e, he⟩ := List.exists_mem_of_length_pos hlen
      refine ⟨e.1, (h.ran e he).1, .inl ⟨e.2.1, e.2.2, ?_⟩⟩
      rw [logOf_current]
      exact he
  · have hrun := hstage.running_of_returned hpos hall
    have hdone : s.works.completed = n := by
      refine hrun.completed.trans (tally_eq_all.mpr fun i hi => ?_)
      rcases hall i hi with hlt | ⟨-, hat | ⟨lo, hi', hat⟩⟩
      · omega
      · rw [hat]
        rfl
      · rw [hat]
        rfl
    refine h.checkfirst.resolve_left ?_
    rcases hrun.last hdone with hclear | ⟨i, hi, ret, hat⟩
    · exact hclear
    · exfalso
      rcases hall i hi with hlt | ⟨-, hat' | ⟨lo, hi', hat'⟩⟩
      · omega
      · rcases hat with hat | hat <;> cases hat.symm.trans hat'
      · rcases hat with hat | hat <;> cases hat.symm.trans hat'

/-- An instance that has not begun. -/
theorem elected_future (hpos : 0 < n) (hk : s.past.length < k) : Elected n s k := by
  have hlog : s.logOf k = .empty := by
    rw [WorkState.logOf, List.getD_eq_getElem?_getD, List.getElem?_eq_none]
    · rfl
    · rw [List.length_append, List.length_singleton]
      omega
  have hgot : ∀ i, ¬ s.GotOne k i := by
    rintro i (⟨lo, hi, hmem⟩ | ⟨heq, -⟩)
    · rw [hlog] at hmem
      cases hmem
    · omega
  refine ⟨fun i _ _ _ hi => absurd hi (hgot i), fun hall => ?_, fun heq => by omega⟩
  rcases hall 0 hpos with hlt | ⟨heq, -⟩ <;> omega

theorem elected_after (hpos : 0 < n) (hlt : n < 2 ^ 32) (works : Works) (sched : Nat → Nat)
    (t : Nat) (hk : k < m) : Elected n ((singles n m).after works sched t) k := by
  have hinv := regionInv_after (singles_safe hpos hlt m) works sched t
  have helect : Elections n ((singles n m).after works sched t) :=
    elections_after hpos hlt works sched t
  generalize (singles n m).after works sched t = s at hinv helect
  rcases Nat.lt_trichotomy k s.past.length with hpast | rfl | hfuture
  · exact helect.elected_past hpast
  · refine helect.elected_current (hinv.current _ ?_) hpos
    exact List.getElem?_replicate_of_lt hk
  · exact elected_future hpos hfuture

/-- The call has returned to the whole team, 1 to one thread and 0 to the others, and the next
instance has not begun. -/
structure ElectionOver (n : Nat) (s : WorkState) (k : Nat) : Prop where
  current : k = s.past.length
  returned : ∀ i < n, s.Returned k i
  gotOne : ∃ i < n, s.GotOne k i ∧ ∀ j < n, s.GotOne k j → j = i
  cleared : s.works.checkfirst = wsNotInited

theorem Elected.isOver (h : Elected n s k) (hk : k = s.past.length)
    (hall : ∀ i < n, s.Returned k i) : ElectionOver n s k where
  current := hk
  returned := hall
  gotOne := by
    obtain ⟨i, hi, hone⟩ := h.exactlyOne hall
    exact ⟨i, hi, hone, fun j hj hgot => h.atMostOne j hj i hi hgot hone⟩
  cleared := h.cleared hk hall

/-- A run of `m` singles: what holds of every instance at any time, and that a fair team gets
through all of them. -/
structure SingleElects (n m : Nat) (works : Works) (sched : Nat → Nat) : Prop where
  elected : ∀ t, ∀ k < m, Elected n ((singles n m).after works sched t) k
  completes : (singles n m).Fair sched → ∀ k < m, ∃ t,
    ElectionOver n ((singles n m).after works sched t) k

theorem single_elects_one (nthreads : Nat) (hpos : 0 < nthreads) (hlt : nthreads < 2 ^ 32)
    (m : Nat) (works : Works) (sched : Nat → Nat) : SingleElects nthreads m works sched where
  elected t _ hk := elected_after hpos hlt works sched t hk
  completes hfair k hk := by
    obtain ⟨T, hT⟩ := region_completes (singles_safe hpos hlt m) works hfair
    have hlen : (singles nthreads m).prog.length = m := List.length_replicate
    obtain ⟨t, hcur, hall⟩ := exists_all_at_barrier
      (show k < ((singles nthreads m).after works sched T).past.length by omega)
    exact ⟨t, (elected_after hpos hlt works sched t hk).isOver hcur
      fun i hi => .inr ⟨hcur, .inl (hall i hi)⟩⟩

/-- Three threads taking turns are through the second of two instances after 103 steps. -/
theorem single_elects_one_threeThreads :
    SingleElects 3 2 garbageWorks (fun t => t % 3) ∧
      ElectionOver 3 ((singles 3 2).after garbageWorks (fun t => t % 3) 103) 1 := by
  have h := single_elects_one 3 (by decide) (by decide) 2 garbageWorks (fun t => t % 3)
  have hat : ∀ i < 3, ((singles 3 2).after garbageWorks (fun t => t % 3) 103).pc i = .barrier := by
    decide +kernel
  have hcur : 1 = ((singles 3 2).after garbageWorks (fun t => t % 3) 103).past.length := by
    decide +kernel
  exact ⟨h, (h.elected 103 1 (by decide)).isOver hcur fun i hi => .inr ⟨hcur, .inl (hat i hi)⟩⟩

end Single

end TeraNoC.Runtime
