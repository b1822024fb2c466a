import TeraNoC.Lib.Progress
import TeraNoC.Proofs.WorkShare

/-!
# Fair teams get through their region

A thread waits for two things, the lock and the rest of its team at the barrier. Whoever
has the lock gives it back, so there is always a thread whose step is not in vain, and
that step lowers the work left: the way from each place to the barrier, and, for every
iteration that the counter has not passed, one more round of fetching and executing. What
is handed out pays for the round of the thread that gets it.
-/

namespace TeraNoC.Runtime

open TeraNoC.Lib

/-- How far it is to the barrier when nothing more is handed out. -/
def WorkPc.rank (end_ : Int) : WorkPc → Nat
  | .barrier => 0
  | .unlock after => after.rank end_ + 1
  | .fetched v _ => if v < end_ then 6 else 1
  | .storeNext _ _ => 2
  | .fetch _ | .sectionsLocked => 3
  | .loopNext | .sectionsNext => 4
  | .body _ _ => 5
  | .reset _ => 7
  | .added _ => 8
  | .started _ => 9
  | .init stores => stores.length + 10
  | .enter => 17
  | .start => 18

/-- How much the counter has still to pass. When nobody fetches any more it may wrap, and before
the record is set up it is somebody else's. -/
def Construct.left (n : Nat) (s : WorkState) : Construct → Nat
  | loop a =>
      if s.log.inits.isEmpty then (a.end_ - a.start).toNat
      else if tally a.failed s.pc n = n then 0
      else (a.end_ - s.works.next).toNat
  | sections count =>
      if s.log.inits.isEmpty then count.toNat else (count + 1 - s.works.next).toNat
  | single => 0

def Construct.work (n : Nat) (s : WorkState) (c : Construct) : Nat :=
  5 * c.left n s + ∑ i ∈ Finset.range n, (s.pc i).rank c.bounds.2

/-- The work of a construct nobody has begun. -/
def Construct.fresh (n : Nat) (c : Construct) : Nat :=
  5 * (match c with
    | loop a => (a.end_ - a.start).toNat
    | sections count => count.toNat
    | single => 0) + 18 * n

/-- Every thread of the team keeps being scheduled. -/
def WorkRegion.Fair (r : WorkRegion) (sched : Nat → Nat) : Prop :=
  ∀ i < r.nthreads, ∀ t, ∃ u, t ≤ u ∧ sched u = i

/-- At `gomp_hal_lock` while somebody else has the lock. -/
def WorkState.Waits (s : WorkState) (i : Nat) : Prop :=
  (s.pc i = .start ∨ s.pc i = .sectionsNext) ∧ s.works.lock = true

section Constructs

variable {n i : Nat} {c : Construct} {s s' : WorkState} {q : WorkPc} {r : WorkRegion}

theorem Construct.work_lt (hi : i < n) (hpc : s'.pc = Function.update s.pc i q)
    (h : 5 * c.left n s' + q.rank c.bounds.2 < 5 * c.left n s + (s.pc i).rank c.bounds.2) :
    c.work n s' < c.work n s := by
  have hsum := sum_update (Finset.mem_range.mpr hi) (fun _ (p : WorkPc) => p.rank c.bounds.2) s.pc q
  rw [Construct.work, Construct.work, hpc]
  omega

/-- A step that leaves the counter alone. -/
theorem Construct.work_move (hi : i < n) (hpc : s'.pc = Function.update s.pc i q)
    (hleft : c.left n s' = c.left n s) (h : q.rank c.bounds.2 < (s.pc i).rank c.bounds.2) :
    c.work n s' < c.work n s :=
  Construct.work_lt hi hpc (by omega)

theorem stepIn_of_waits (h : s.Waits i) : r.stepIn c s i = s := by
  obtain ⟨hat | hat, hlock⟩ := h
  · simp only [WorkRegion.stepIn, hat, hlock, if_true]
  · simp only [WorkRegion.stepIn, hat, hlock, if_true]

end Constructs

/-! ## Within a construct -/

section Loop

variable {n i g : Nat} {a : LoopArgs} {s s' : WorkState} {q : WorkPc} {r : WorkRegion}

theorem loop_left (hinits : s.log.inits ≠ []) : (Construct.loop a).left n s
    = if tally a.failed s.pc n = n then 0 else (a.end_ - s.works.next).toNat := by
  rw [Construct.left, if_neg (by rw [List.isEmpty_iff]; exact hinits)]

theorem loop_left_move (hi : i < n) (hpc : s'.pc = Function.update s.pc i q)
    (hinits : s'.log.inits = s.log.inits) (hnext : s'.works.next = s.works.next)
    (hfailed : a.failed q = a.failed (s.pc i)) :
    (Construct.loop a).left n s' = (Construct.loop a).left n s := by
  rw [Construct.left, Construct.left, hinits, hnext, hpc, tally_update_eq hi hfailed]

/-- Where the counter is while somebody may still fetch. -/
theorem LoopCount.next_range (h : LoopCount n a s g) (hfit : a.Fits n)
    (hfetch : tally a.failed s.pc n < n) : s.works.next = a.counter g ∨ a.end_ ≤ s.works.next := by
  rw [h.next]
  by_cases hg : g < a.numChunks
  · exact .inl (hfit.counter_range hg).1
  · exact .inr (hfit.wraps g (by have := h.bound; omega) (by omega))

/-- A fetch takes the counter at least one further, or there is nothing left. -/
theorem LoopRunning.fetch_lowers (h : LoopRunning n a s) (h' : LoopRunning n a s')
    (hfit : a.Fits n) (hi : i < n) (hinits : s.log.inits ≠ []) (hat : s.pc i = .fetch a.chunk)
    (hpc : s'.pc = Function.update s.pc i (.fetched s.works.next a.chunk))
    (hlog : s'.log = s.log) (hworks : s'.works.next = i32 (s.works.next + a.chunk)) :
    (Construct.loop a).work n s' < (Construct.loop a).work n s := by
  obtain ⟨g, hg⟩ := h.count
  obtain ⟨g', hg'⟩ := h'.count
  have hfetch : tally a.failed s.pc n < n := tally_lt hi (by rw [hat]; rfl)
  have hpos := hfit.chunk_pos
  refine Construct.work_lt hi hpc ?_
  rw [hat, loop_left hinits, loop_left (hlog ▸ hinits), if_neg (Nat.ne_of_lt hfetch)]
  show _ + (if s.works.next < a.end_ then 6 else 1) < _ + 3
  by_cases hleft : s.works.next < a.end_
  · -- this fetch hands something out
    have hnot : tally a.failed s'.pc n < n :=
      tally_lt hi (by rw [hpc, Function.update_self]; exact decide_eq_false (by omega))
    have hrange : s.works.next < s'.works.next ∨ a.end_ ≤ s'.works.next := by
      rcases hg'.next_range hfit hnot with hcounter | hend
      · have hlt : s'.works.next < a.end_ ∨ a.end_ ≤ s'.works.next := Int.lt_or_le _ _
        refine hlt.imp_left fun hlt => ?_
        have hlt' : g < a.numChunks := by
          by_contra hge
          have := hfit.wraps g (by have := hg.bound; omega) (by omega)
          rw [← hg.next] at this
          omega
        have hval := (hfit.counter_range hlt').1
        have hsucc : i32 (a.counter (g + 1)) = s'.works.next := by
          rw [hworks, hg.next, i32_add, a.counter_succ]
        by_cases hg1 : g + 1 < a.numChunks
        · rw [hg.next, hval, ← hsucc, (hfit.counter_range hg1).1, a.counter_succ]
          omega
        · have := hfit.wraps (g + 1) (by omega) (by omega)
          omega
      · exact .inr hend
    rw [if_pos hleft, if_neg (Nat.ne_of_lt hnot)]
    omega
  · have hzero :
      (if tally a.failed s'.pc n = n then 0 else (a.end_ - s'.works.next).toNat) = 0 := by
      split
      · rfl
      · rename_i hsome
        have hlt : tally a.failed s'.pc n < n := lt_of_le_of_ne tally_le hsome
        have hend : a.end_ ≤ a.counter g' :=
          hg'.failed i hi (by rw [hpc, Function.update_self]; exact decide_eq_true (by omega))
        rcases hg'.next_range hfit hlt with hcounter | hend'
        · omega
        · omega
    rw [hzero, if_neg hleft]
    omega

theorem LoopRunning.lowers (h : LoopRunning r.nthreads a s) (hfit : a.Fits r.nthreads)
    (hi : i < r.nthreads) (hinits : s.log.inits ≠ []) (hwaits : ¬s.Waits i)
    (hbarrier : s.pc i ≠ .barrier) :
    (Construct.loop a).work r.nthreads (r.stepIn (.loop a) s i)
      < (Construct.loop a).work r.nthreads s := by
  have hstep := h.step hfit hi hbarrier
  have hleg := h.pcs i hi
  generalize hat : s.pc i = pc at hleg hbarrier
  cases hleg with
  | start =>
      have hfree : s.works.lock ≠ true := fun hlock => hwaits ⟨.inl hat, hlock⟩
      simp only [WorkRegion.stepIn, hat, hfree, Bool.false_eq_true, if_false]
      exact Construct.work_move hi rfl (loop_left_move hi rfl rfl rfl (by rw [hat]; rfl))
        (by rw [hat]; simp [WorkPc.rank])
  | enter =>
      simp only [WorkRegion.stepIn, hat, h.checkfirst, ne_eq, not_true_eq_false, if_false]
      exact Construct.work_move hi rfl (loop_left_move hi rfl rfl rfl (by rw [hat]; rfl))
        (by rw [hat]; simp [WorkPc.rank])
  | started ret =>
      simp only [WorkRegion.stepIn, hat]
      exact Construct.work_move hi rfl (loop_left_move hi rfl rfl rfl (by rw [hat]; rfl))
        (by rw [hat]; simp [WorkPc.rank])
  | unlock =>
      simp only [WorkRegion.stepIn, hat]
      exact Construct.work_move hi rfl (loop_left_move hi rfl rfl rfl (by rw [hat]; rfl))
        (by rw [hat]; simp [WorkPc.rank])
  | fetch =>
      simp only [WorkRegion.stepIn, hat] at hstep ⊢
      exact h.fetch_lowers hstep hfit hi hinits hat rfl rfl rfl
  | fetched v hv =>
      simp only [WorkRegion.stepIn, hat, h.end_]
      split
      · rename_i hge
        refine Construct.work_move hi rfl (loop_left_move hi rfl rfl rfl ?_) ?_
        · rw [hat]
          exact (decide_eq_true hge).symm
        · rw [hat]
          show 0 < if v < a.end_ then 6 else 1
          rw [if_neg (by omega)]
          decide
      · rename_i hge
        refine Construct.work_move hi rfl (loop_left_move hi rfl rfl rfl ?_) ?_
        · rw [hat]
          exact (decide_eq_false hge).symm
        · rw [hat]
          show 5 < if v < a.end_ then 6 else 1
          rw [if_pos (by omega)]
          decide
  | body lo hi' =>
      simp only [WorkRegion.stepIn, hat]
      exact Construct.work_move hi rfl (loop_left_move hi rfl rfl rfl (by rw [hat]; rfl))
        (by rw [hat]; simp [WorkPc.rank, WorkRegion.afterBody])
  | loopNext =>
      simp only [WorkRegion.stepIn, hat]
      exact Construct.work_move hi rfl (loop_left_move hi rfl rfl rfl (by rw [hat]; rfl))
        (by rw [hat]; simp [WorkPc.rank])
  | barrier => exact absurd rfl hbarrier

end Loop

section Sections

variable {n i : Nat} {count : Int} {s s' : WorkState} {q : WorkPc} {r : WorkRegion}

theorem sections_left (hinits : s.log.inits ≠ []) :
    (Construct.sections count).left n s = (count + 1 - s.works.next).toNat := by
  rw [Construct.left, if_neg (by rw [List.isEmpty_iff]; exact hinits)]

theorem sections_left_move (hinits : s'.log.inits = s.log.inits)
    (hnext : s'.works.next = s.works.next) :
    (Construct.sections count).left n s' = (Construct.sections count).left n s := by
  rw [Construct.left, Construct.left, hinits, hnext]

/-- A section handed out is one less to come. -/
theorem sections_store_lowers (hi : i < n) (hinits : s.log.inits ≠ []) {v : Int}
    (hat : s.pc i = .storeNext s.works.next v) (hlt : s.works.next < count + 1)
    (hpc : s'.pc = Function.update s.pc i (.unlock (.body s.works.next (s.works.next + 1))))
    (hlog : s'.log = s.log) (hnext : s'.works.next = s.works.next + 1) :
    (Construct.sections count).work n s' < (Construct.sections count).work n s := by
  refine Construct.work_lt hi hpc ?_
  rw [hat, sections_left hinits, sections_left (hlog ▸ hinits), hnext]
  show _ + 6 < _ + 2
  omega

theorem SectionsRunning.lowers (h : SectionsRunning r.nthreads count s)
    (hi : i < r.nthreads) (hinits : s.log.inits ≠ []) (hwaits : ¬s.Waits i)
    (hbarrier : s.pc i ≠ .barrier) :
    (Construct.sections count).work r.nthreads (r.stepIn (.sections count) s i)
      < (Construct.sections count).work r.nthreads s := by
  have hpos := h.next_pos
  have hleg := h.pcs i hi
  generalize hat : s.pc i = pc at hleg hbarrier
  cases hleg with
  | start =>
      have hfree : s.works.lock ≠ true := fun hlock => hwaits ⟨.inl hat, hlock⟩
      simp only [WorkRegion.stepIn, hat, hfree, Bool.false_eq_true, if_false]
      exact Construct.work_move hi rfl (sections_left_move rfl rfl)
        (by rw [hat]; simp [WorkPc.rank])
  | enter =>
      simp only [WorkRegion.stepIn, hat, h.checkfirst, ne_eq, not_true_eq_false, if_false]
      exact Construct.work_move hi rfl (sections_left_move rfl rfl)
        (by rw [hat]; simp [WorkPc.rank])
  | started ret =>
      simp only [WorkRegion.stepIn, hat]
      split
      · exact Construct.work_move hi rfl (sections_left_move rfl rfl)
          (by rw [hat]; simp [WorkPc.rank])
      · exact Construct.work_move hi rfl (sections_left_move rfl rfl)
          (by rw [hat]; simp [WorkPc.rank])
  | storeNext hlt =>
      simp only [WorkRegion.stepIn, hat, WorkRegion.sectionPc]
      rw [if_neg (by omega)]
      exact sections_store_lowers hi hinits hat hlt rfl rfl rfl
  | unlock v =>
      simp only [WorkRegion.stepIn, hat]
      exact Construct.work_move hi rfl (sections_left_move rfl rfl)
        (by rw [hat]; simp [WorkPc.rank])
  | unlockEnd hend =>
      simp only [WorkRegion.stepIn, hat]
      exact Construct.work_move hi rfl (sections_left_move rfl rfl)
        (by rw [hat]; simp [WorkPc.rank])
  | body lo hi' =>
      simp only [WorkRegion.stepIn, hat]
      exact Construct.work_move hi rfl (sections_left_move rfl rfl)
        (by rw [hat]; simp [WorkPc.rank, WorkRegion.afterBody])
  | sectionsNext =>
      have hfree : s.works.lock ≠ true := fun hlock => hwaits ⟨.inr hat, hlock⟩
      simp only [WorkRegion.stepIn, hat, hfree, Bool.false_eq_true, if_false]
      exact Construct.work_move hi rfl (sections_left_move rfl rfl)
        (by rw [hat]; simp [WorkPc.rank])
  | sectionsLocked =>
      simp only [WorkRegion.stepIn, hat]
      split
      · exact Construct.work_move hi rfl (sections_left_move rfl rfl)
          (by rw [hat]; simp [WorkPc.rank])
      · exact Construct.work_move hi rfl (sections_left_move rfl rfl)
          (by rw [hat]; simp [WorkPc.rank])
  | barrier _ => exact absurd rfl hbarrier

end Sections

section Single

variable {n i : Nat} {s : WorkState} {r : WorkRegion}

theorem singlePc_rank (ret : Bool) (end_ : Int) : (WorkRegion.singlePc ret).rank end_ ≤ 5 := by
  cases ret <;> simp [WorkRegion.singlePc, WorkPc.rank]

theorem SingleRunning.lowers (h : SingleRunning r.nthreads s) (hi : i < r.nthreads)
    (hwaits : ¬s.Waits i) (hbarrier : s.pc i ≠ .barrier) :
    Construct.single.work r.nthreads (r.stepIn .single s i)
      < Construct.single.work r.nthreads s := by
  have hleg := h.pcs i hi
  generalize hat : s.pc i = pc at hleg hbarrier
  cases hleg with
  | start =>
      have hfree : s.works.lock ≠ true := fun hlock => hwaits ⟨.inl hat, hlock⟩
      simp only [WorkRegion.stepIn, hat, hfree, Bool.false_eq_true, if_false]
      exact Construct.work_move hi rfl rfl (by rw [hat]; simp [WorkPc.rank])
  | enter =>
      simp only [WorkRegion.stepIn, hat]
      split
      · exact Construct.work_move hi rfl rfl (by rw [hat]; simp [WorkPc.rank, Construct.stores])
      · exact Construct.work_move hi rfl rfl (by rw [hat]; simp [WorkPc.rank])
  | started ret =>
      simp only [WorkRegion.stepIn, hat]
      exact Construct.work_move hi rfl rfl (by rw [hat]; simp [WorkPc.rank])
  | added ret =>
      have hrank := singlePc_rank ret Construct.single.bounds.2
      simp only [WorkRegion.stepIn, hat]
      split
      · exact Construct.work_move hi rfl rfl (by rw [hat]; simp [WorkPc.rank])
      · exact Construct.work_move hi rfl rfl (by rw [hat]; simp only [WorkPc.rank]; omega)
  | reset ret _ =>
      have hrank := singlePc_rank ret Construct.single.bounds.2
      simp only [WorkRegion.stepIn, hat]
      exact Construct.work_move hi rfl rfl (by rw [hat]; simp only [WorkPc.rank]; omega)
  | unlock ret =>
      simp only [WorkRegion.stepIn, hat]
      exact Construct.work_move hi rfl rfl (by rw [hat]; simp [WorkPc.rank])
  | body lo hi' =>
      simp only [WorkRegion.stepIn, hat]
      exact Construct.work_move hi rfl rfl
        (by rw [hat]; simp [WorkPc.rank, WorkRegion.afterBody])
  | barrier => exact absurd rfl hbarrier

end Single

section Stages

variable {n i j : Nat} {c : Construct} {s s' : WorkState} {q : WorkPc} {stores : List WorkStore}
  {r : WorkRegion}

theorem stores_length (c : Construct) : c.stores.length ≤ 6 := by
  cases c <;> simp [Construct.stores]

/-- Setting the record up lays the work out. -/
theorem Alone.set_lowers (h : Alone n s i (.init [])) (hready : c.Ready s.works)
    (hpc : s'.pc = Function.update s.pc i (.started true)) (hinits : s'.log.inits ≠ [])
    (hworks : s'.works = s.works) : c.work n s' < c.work n s := by
  have hempty : s.log.inits.isEmpty = true := by rw [h.log]; rfl
  have hset : s'.log.inits.isEmpty = false := List.isEmpty_eq_false_iff.mpr hinits
  have hleft : c.left n s' ≤ c.left n s := by
    cases c with
    | loop a =>
        obtain ⟨hnext, -⟩ := hready.initialised
        simp only [Construct.left, hempty, hset, if_true, Bool.false_eq_true, if_false, hworks,
          hnext]
        split
        · exact Nat.zero_le _
        · exact Nat.le_refl _
    | sections count =>
        obtain ⟨hnext, -⟩ := hready.initialised
        simp only [Construct.left, hempty, hset, if_true, Bool.false_eq_true, if_false, hworks,
          hnext]
        omega
    | single => exact Nat.le_refl _
  refine Construct.work_lt h.lt hpc ?_
  rw [h.pc]
  simp only [WorkPc.rank, List.length_nil]
  omega

theorem left_of_fresh (hinits : s'.log.inits = []) (hinits' : s.log.inits = []) :
    c.left n s' = c.left n s := by
  cases c with
  | loop a | sections count => simp only [Construct.left, hinits, hinits', List.isEmpty_nil,
      if_true]
  | single => rfl

theorem Stage.lowers (h : Stage r.nthreads c s) (hfit : c.Fits r.nthreads)
    (hlocks : Locks r.nthreads s) (hi : i < r.nthreads) (hwaits : ¬s.Waits i)
    (hbarrier : s.pc i ≠ .barrier) :
    c.work r.nthreads (r.stepIn c s i) < c.work r.nthreads s := by
  -- while one thread is alone, the others wait
  have halone : ∀ {j q}, Alone r.nthreads s j q → q.locked = true → i = j := by
    intro j q halone hq
    by_contra hij
    refine hwaits ⟨.inl (halone.others i hi hij), hlocks.held j halone.lt ?_⟩
    rw [halone.pc]
    exact hq
  cases h with
  | fresh hpcs hlog _ =>
      have hat := hpcs i hi
      have hfree : s.works.lock ≠ true := fun hlock => hwaits ⟨.inl hat, hlock⟩
      simp only [WorkRegion.stepIn, hat, hfree, Bool.false_eq_true, if_false]
      have hinits : s.log.inits = [] := by rw [hlog]; rfl
      exact Construct.work_move hi rfl (left_of_fresh hinits hinits)
        (by rw [hat]; simp [WorkPc.rank])
  | entering j h hcheck =>
      obtain rfl := halone h rfl
      have hinits : s.log.inits = [] := by rw [h.log]
      simp only [WorkRegion.stepIn, h.pc, hcheck, ne_eq, not_false_eq_true, if_true]
      refine Construct.work_move hi rfl (left_of_fresh hinits hinits) ?_
      have hlen := stores_length c
      rw [h.pc]
      simp only [WorkPc.rank]
      omega
  | initing j stores h hready =>
      obtain rfl := halone h rfl
      have hinits : s.log.inits = [] := by rw [h.log]
      cases stores with
      | nil =>
          simp only [WorkRegion.stepIn, h.pc]
          exact h.set_lowers hready rfl
            (List.append_ne_nil_of_right_ne_nil _ (List.cons_ne_nil _ _))
            rfl
      | cons w stores =>
          simp only [WorkRegion.stepIn, h.pc]
          exact Construct.work_move hi rfl (left_of_fresh hinits hinits)
            (by rw [h.pc]; simp [WorkPc.rank])
  | running hsetUp hrun =>
      have hinits : s.log.inits ≠ [] := by
        obtain ⟨j, w, hw, -⟩ := hsetUp
        rw [hw]
        exact List.cons_ne_nil _ _
      cases c with
      | loop a => exact LoopRunning.lowers hrun hfit hi hinits hwaits hbarrier
      | sections count => exact SectionsRunning.lowers hrun hi hinits hwaits hbarrier
      | single => exact SingleRunning.lowers hrun hi hwaits hbarrier

end Stages

/-! ## Through the region -/

/-- The work of the constructs from the `k`-th on; one for each barrier. -/
def WorkRegion.ahead (r : WorkRegion) (k : Nat) : Nat :=
  ((r.prog.drop k).map fun c => c.fresh r.nthreads + 1).sum

def WorkRegion.work (r : WorkRegion) (s : WorkState) : Nat :=
  match r.prog[s.past.length]? with
  | some c => c.work r.nthreads s + 1 + r.ahead (s.past.length + 1)
  | none => 0

section Region

variable {r : WorkRegion} {s : WorkState} {c : Construct} {works : Works} {sched : Nat → Nat}
  {i k T : Nat}

theorem ahead_eq (h : r.prog[k]? = some c) :
    r.ahead k = c.fresh r.nthreads + 1 + r.ahead (k + 1) := by
  obtain ⟨hlt, hget⟩ := List.getElem?_eq_some_iff.mp h
  rw [WorkRegion.ahead, List.drop_eq_getElem_cons hlt, hget, List.map_cons, List.sum_cons,
    WorkRegion.ahead]

theorem work_fresh (hpcs : s.pc = fun _ => .start) (hlog : s.log = .empty) :
    r.work s ≤ r.ahead s.past.length := by
  rw [WorkRegion.work]
  split
  · rename_i c hc
    rw [ahead_eq hc]
    have hwork : c.work r.nthreads s = c.fresh r.nthreads := by
      rw [Construct.work, hpcs, Finset.sum_const_nat fun _ _ => rfl, Finset.card_range,
        Nat.mul_comm r.nthreads]
      cases c <;> simp only [Construct.left, Construct.fresh, hlog] <;> rfl
    omega
  · exact Nat.zero_le _

/-- A step of a thread that does not wait brings the team nearer to the end of the region. -/
theorem RegionInv.lowers (h : RegionInv r s) (hr : r.Safe)
    (hc : r.prog[s.past.length]? = some c) (hi : i < r.nthreads) (hwaits : ¬s.Waits i)
    (hbarrier : s.pc i = .barrier → ∀ j < r.nthreads, s.pc j = .barrier) :
    r.work (r.step s i) < r.work s := by
  have hstep : r.step s i = r.stepIn c s i := by simp only [WorkRegion.step, hc, hi, if_true]
  have hwork : r.work s = c.work r.nthreads s + 1 + r.ahead (s.past.length + 1) := by
    simp only [WorkRegion.work, hc]
  rw [hstep, hwork]
  by_cases hat : s.pc i = .barrier
  · have hall := hbarrier hat
    simp only [WorkRegion.stepIn, hat, if_pos hall]
    refine Nat.lt_of_le_of_lt (work_fresh rfl rfl) ?_
    rw [List.length_append, List.length_singleton]
    omega
  · have hlow := (h.current c hc).lowers (hr.fits c (List.mem_of_getElem? hc)) h.locks hi hwaits hat
    simp only [WorkRegion.work, stepIn_past hat, hc]
    omega

/-- Before the end of the region there is a thread that does not wait: who has the lock, or else
anybody who is not at the barrier. -/
theorem RegionInv.exists_helpful (h : RegionInv r s) (hr : r.Safe)
    (hc : r.prog[s.past.length]? = some c) : ∃ i < r.nthreads, r.work (r.step s i) < r.work s := by
  by_cases hall : ∀ j < r.nthreads, s.pc j = .barrier
  · refine ⟨0, hr.nthreads_pos, h.lowers hr hc hr.nthreads_pos ?_ fun _ => hall⟩
    rintro ⟨hat | hat, -⟩ <;> rw [hall 0 hr.nthreads_pos] at hat <;> cases hat
  · by_cases hlock : s.works.lock = true
    · obtain ⟨i, hi, hlocked⟩ := h.locks.taken hlock
      refine ⟨i, hi, h.lowers hr hc hi ?_ fun hat => ?_⟩
      · rintro ⟨hat | hat, -⟩ <;> rw [hat] at hlocked <;> cases hlocked
      · rw [hat] at hlocked
        cases hlocked
    · push Not at hall
      obtain ⟨i, hi, hat⟩ := hall
      exact ⟨i, hi, h.lowers hr hc hi (fun hw => hlock hw.2) fun hb => absurd hb hat⟩

theorem RegionInv.stays_or_lowers (h : RegionInv r s) (hr : r.Safe) (i : Nat) :
    r.step s i = s ∨ r.work (r.step s i) < r.work s := by
  cases hc : r.prog[s.past.length]? with
  | none => exact .inl (by simp only [WorkRegion.step, hc])
  | some c =>
      by_cases hi : i < r.nthreads
      · have hstep : r.step s i = r.stepIn c s i := by simp only [WorkRegion.step, hc, hi, if_true]
        by_cases hwaits : s.Waits i
        · exact .inl (hstep.trans (stepIn_of_waits hwaits))
        · by_cases hstuck : s.pc i = .barrier ∧ ¬∀ j < r.nthreads, s.pc j = .barrier
          · refine .inl (hstep.trans ?_)
            simp only [WorkRegion.stepIn, hstuck.1, if_neg hstuck.2]
          · exact .inr (h.lowers hr hc hi hwaits fun hat => by_contra fun hno => hstuck ⟨hat, hno⟩)
      · exact .inl (by simp only [WorkRegion.step, hc, hi, if_false])

/-- A fair team gets to the end of its region. -/
theorem region_completes (hr : r.Safe) (works : Works) (hfair : r.Fair sched) :
    ∃ T, r.prog.length ≤ (r.after works sched T).past.length := by
  have hinv := regionInv_after hr works sched
  obtain ⟨T, s, rfl, hzero⟩ := eventually_bottom (fun t s => r.after works sched t = s)
    (fun t (i : Fin r.nthreads) => sched t = i) r.work
    (fun t s hs => ⟨_, rfl, hs ▸ (hinv t).stays_or_lowers hr (sched t)⟩)
    (fun t s hs hpos => by
      subst hs
      cases hc : r.prog[(r.after works sched t).past.length]? with
      | none => simp only [WorkRegion.work, hc, Nat.lt_irrefl] at hpos
      | some c =>
          obtain ⟨i, hi, hlow⟩ := (hinv t).exists_helpful hr hc
          refine ⟨⟨i, hi⟩, fun u hu hgiven => ⟨_, rfl, ?_⟩⟩
          rw [WorkRegion.after, hu, hgiven]
          exact hlow)
    (fun i t => hfair i i.isLt t) (t := 0) rfl
  refine ⟨T, ?_⟩
  rw [WorkRegion.work] at hzero
  split at hzero
  · omega
  · rename_i hnone
    exact List.getElem?_eq_none_iff.mp hnone

/-- Construct `k` was left with the whole team at its barrier. -/
theorem exists_all_at_barrier (h : k < (r.after works sched T).past.length) :
    ∃ t, k = (r.after works sched t).past.length ∧
      ∀ i < r.nthreads, (r.after works sched t).pc i = .barrier := by
  induction T with
  | zero => exact absurd h (Nat.not_lt_zero k)
  | succ T ih =>
      by_cases hk : k < (r.after works sched T).past.length
      · exact ih hk
      · rw [WorkRegion.after, WorkRegion.step] at h
        split at h
        · split at h
          · by_cases hat : (r.after works sched T).pc (sched T) = .barrier
            · simp only [WorkRegion.stepIn, hat] at h
              split at h
              · rename_i hall
                rw [List.length_append, List.length_singleton] at h
                exact ⟨T, by omega, hall⟩
              · exact absurd h hk
            · rw [stepIn_past hat] at h
              exact absurd h hk
          · exact absurd h hk
        · exact absurd h hk

end Region

end TeraNoC.Runtime
