import TeraNoC.Proofs.WorkProgress

/-!
# A dynamic loop covers its iterations

Every call of `GOMP_loop_dynamic_start` or `GOMP_loop_dynamic_next` makes one fetch-add on
`works.next`, and the lock only guards the set-up. So the calls are numbered by their
fetch-adds, and the range of a call is the one of its number: call `g` gets the chunk that
begins at `start + g * chunk_size * incr`, cut off at `end`, or nothing from the first number
on whose chunk begins behind it. What remains is to see that no number is skipped, and that a
thread returns what it has fetched (`LoopCall.range_eq`).
-/

namespace TeraNoC.Runtime

open TeraNoC.Lib

/-- The loop counts upwards, and no `int` overflows, also not when
each of `n` threads has fetched once behind the last chunk. -/
structure LoopArgs.InInt (a : LoopArgs) (n : Nat) : Prop where
  start : IsInt a.start
  end_ : IsInt a.end_
  start_le : a.start ≤ a.end_
  incr : 0 < a.incr
  chunkSize : 1 ≤ a.chunkSize
  chunk : a.chunkSize * a.incr < 2 ^ 31
  left : a.end_ - a.start < 2 ^ 31
  overshoot : a.start + (a.numChunks + n : Nat) * (a.chunkSize * a.incr) < 2 ^ 31

def dynamicLoop (nthreads : Nat) (a : LoopArgs) : WorkRegion := ⟨nthreads, [.loop a]⟩

/-- The range of the call with number `g`. -/
def LoopArgs.rangeOf (a : LoopArgs) (g : Nat) : Option (Int × Int) :=
  if a.counter g < a.end_ then some (a.counter g, min (a.counter g + a.chunk) a.end_) else none

def WorkPc.fetches : WorkPc → Bool
  | .fetch _ => true
  | _ => false

namespace WorkRegion

variable (r : WorkRegion) (works : Works) (sched : Nat → Nat)

/-- Step `t` is a fetch-add on `works.next`. -/
def fetchesAt (t : Nat) : Bool :=
  decide (sched t < r.nthreads) && ((r.after works sched t).pc (sched t)).fetches

/-- The fetch-adds before step `t`. -/
def fetchCount : Nat → Nat
  | 0 => 0
  | t + 1 => fetchCount t + (r.fetchesAt works sched t).toNat

/-- A call of thread `i`: its fetch-add is step `t₀`, and its next step, in which it returns, is
step `t₁`. It returns 1 with a range, or 0. -/
structure LoopCall (i t₀ t₁ : Nat) (range : Option (Int × Int)) : Prop where
  lt : i < r.nthreads
  first : sched t₀ = i
  fetches : ((r.after works sched t₀).pc i).fetches = true
  between : ∀ t, t₀ < t → t < t₁ → sched t ≠ i
  last : t₀ < t₁ ∧ sched t₁ = i
  ret : (r.after works sched (t₁ + 1)).pc i =
    match range with
    | some (lo, hi) => .body lo hi
    | none => .barrier

end WorkRegion

section Loop

variable {n i g g' t t₀ t₁ : Nat} {a : LoopArgs} {s : WorkState} {works : Works}
  {sched : Nat → Nat} {range : Option (Int × Int)}

theorem LoopArgs.InInt.chunk_eq (h : a.InInt n) : a.chunk = a.chunkSize * a.incr := by
  have := Int.mul_pos h.chunkSize h.incr
  exact i32_eq (by omega) h.chunk

/-- Within the fetches that can happen, the counter does not wrap. -/
theorem LoopArgs.InInt.counter_int (h : a.InInt n) (hg : g ≤ a.numChunks + n) :
    i32 (a.counter g) = a.counter g := by
  have hpos := Int.mul_pos h.chunkSize h.incr
  have hle : (g : Int) * (a.chunkSize * a.incr) ≤
      (a.numChunks + n : Nat) * (a.chunkSize * a.incr) :=
    Int.mul_le_mul_of_nonneg_right (by omega) (Int.le_of_lt hpos)
  have hnonneg : 0 ≤ (g : Int) * (a.chunkSize * a.incr) :=
    Int.mul_nonneg (by omega) (Int.le_of_lt hpos)
  have hover := h.overshoot
  have hstart := h.start.1
  rw [LoopArgs.counter, h.chunk_eq]
  exact i32_eq (by omega) (by omega)

theorem LoopArgs.InInt.fits (h : a.InInt n) : a.Fits n where
  start := h.start
  end_ := h.end_
  incr := h.incr
  chunkSize := h.chunkSize
  chunk := h.chunk
  left := h.left
  wraps g hlt hge := by
    rw [h.counter_int (by omega)]
    -- `numChunks` is the first number whose chunk begins behind the end
    have hpos : 0 < a.chunk := by
      rw [h.chunk_eq]
      exact Int.mul_pos h.chunkSize h.incr
    by_contra hno
    have hno : a.counter g < a.end_ := by omega
    have : g < a.numChunks := by
      rw [LoopArgs.numChunks, Int.lt_toNat, ← Int.add_one_le_iff (a := (g : Int)),
        Int.le_ediv_iff_mul_le hpos, Int.add_mul, Int.one_mul]
      rw [LoopArgs.counter] at hno
      omega
    omega

/-- Different numbers are different counters. -/
theorem LoopArgs.InInt.counter_inj (h : a.InInt n) (hg : g ≤ a.numChunks + n)
    (hg' : g' ≤ a.numChunks + n) (heq : i32 (a.counter g) = i32 (a.counter g')) : g = g' := by
  rw [h.counter_int hg, h.counter_int hg'] at heq
  have hpos := h.fits.chunk_pos
  have hmul : (g : Int) * a.chunk = g' * a.chunk := by
    rw [LoopArgs.counter, LoopArgs.counter] at heq
    omega
  exact Int.ofNat.inj (Int.eq_of_mul_eq_mul_right (by omega) hmul)

/-- Only a fetch-add moves the counter. -/
theorem LoopRunning.next_stepIn {r : WorkRegion} (h : LoopRunning r.nthreads a s)
    (hi : i < r.nthreads) (hbarrier : s.pc i ≠ .barrier) :
    (r.stepIn (.loop a) s i).works.next =
      if (s.pc i).fetches then i32 (s.works.next + a.chunk) else s.works.next := by
  have hleg := h.pcs i hi
  generalize hat : s.pc i = pc at hleg hbarrier
  cases hleg with
  | start =>
      simp only [WorkRegion.stepIn, hat]
      split <;> rfl
  | enter =>
      simp only [WorkRegion.stepIn, hat]
      split <;> rfl
  | fetched v hv =>
      simp only [WorkRegion.stepIn, hat]
      split <;> rfl
  | barrier => exact absurd rfl hbarrier
  | started ret | unlock | fetch | body lo hi' | loopNext =>
      simp only [WorkRegion.stepIn, hat]
      rfl

theorem LoopCount.unique (h : LoopCount n a s g) (hfit : a.InInt n) (hg' : g' ≤ a.numChunks + n)
    (hnext : s.works.next = i32 (a.counter g')) : g = g' := by
  have hle : tally a.failed s.pc n ≤ n := tally_le
  have hbound := h.bound
  exact hfit.counter_inj (by omega) hg' (h.next.symm.trans hnext)

/-- A step of a running loop. -/
theorem LoopCount.stepIn {r : WorkRegion} (h : LoopCount r.nthreads a s g)
    (hrun : LoopRunning r.nthreads a s) (hfit : a.InInt r.nthreads) (hi : i < r.nthreads)
    (hbarrier : s.pc i ≠ .barrier) :
    LoopCount r.nthreads a (r.stepIn (.loop a) s i) (g + (s.pc i).fetches.toNat) := by
  obtain ⟨g', hg'⟩ := (hrun.step hfit.fits hi hbarrier).count
  have hnext := hrun.next_stepIn hi hbarrier
  have hle : tally a.failed s.pc r.nthreads ≤ r.nthreads := tally_le
  have hbound := h.bound
  cases hfetch : (s.pc i).fetches with
  | true =>
      -- a thread at the fetch-add has not yet failed
      have hlt : tally a.failed s.pc r.nthreads < r.nthreads := by
        refine tally_lt hi ?_
        cases hat : s.pc i with
        | fetch chunk => rfl
        | _ => rw [hat] at hfetch; cases hfetch
      rw [hfetch, if_pos rfl, h.next, i32_add, ← a.counter_succ] at hnext
      obtain rfl := hg'.unique hfit (by omega) hnext
      exact hg'
  | false =>
      rw [hfetch, if_neg Bool.false_ne_true, h.next] at hnext
      obtain rfl := hg'.unique hfit (by omega) hnext
      exact hg'

/-- Where the loop is after `g` fetch-adds: before it is set up there are none, then the counter
tells how many, and when the team has left the loop nobody fetches any more. -/
structure LoopAt (n : Nat) (a : LoopArgs) (s : WorkState) (g : Nat) : Prop where
  setUp : s.past = [] → s.log.inits = [] → g = 0
  counted : s.past = [] → s.log.inits ≠ [] → LoopCount n a s g
  finished : s.past ≠ [] → (∀ i, s.pc i = .start) ∧ a.end_ ≤ a.counter g

theorem Stage.loopRunning (h : Stage n (.loop a) s) (hinits : s.log.inits ≠ []) :
    LoopRunning n a s := by
  cases h with
  | fresh _ hlog _ => exact absurd (by rw [hlog]; rfl) hinits
  | entering _ halone _ => exact absurd (by rw [halone.log]) hinits
  | initing _ _ halone _ => exact absurd (by rw [halone.log]) hinits
  | running _ hrun => exact hrun

/-- Before the record is set up, nobody is behind the set-up. -/
theorem Stage.pc_of_inits (h : Stage n (.loop a) s) (hinits : s.log.inits = []) (hi : i < n) :
    s.pc i = .start ∨ s.pc i = .enter ∨ ∃ stores, s.pc i = .init stores ∧
      (.loop a : Construct).Ready (stores.foldl WorkStore.apply s.works) := by
  cases h with
  | fresh hpcs _ _ => exact .inl (hpcs i hi)
  | entering j halone _ =>
      by_cases hij : i = j
      · exact .inr (.inl (hij ▸ halone.pc))
      · exact .inl (halone.others i hi hij)
  | initing j stores halone hready =>
      by_cases hij : i = j
      · exact .inr (.inr ⟨stores, hij ▸ halone.pc, hready⟩)
      · exact .inl (halone.others i hi hij)
  | running hsetUp _ =>
      obtain ⟨_, _, hone, -⟩ := hsetUp
      rw [hone] at hinits
      cases hinits

theorem Stage.inits_of_barrier (h : Stage n (.loop a) s) (hi : i < n)
    (hbarrier : s.pc i = .barrier) : s.log.inits ≠ [] := by
  intro hinits
  rcases h.pc_of_inits hinits hi with hat | hat | ⟨stores, hat, -⟩ <;>
    rw [hbarrier] at hat <;> cases hat

/-- Only the end of the set-up is logged as one. -/
theorem inits_stepIn {r : WorkRegion} {c : Construct} (hbarrier : s.pc i ≠ .barrier)
    (hinit : s.pc i ≠ .init []) : (r.stepIn c s i).log.inits = s.log.inits := by
  generalize hat : s.pc i = pc at hbarrier hinit
  cases pc with
  | init stores =>
      cases stores with
      | nil => exact absurd rfl hinit
      | cons w stores =>
          simp only [WorkRegion.stepIn, hat]
          rfl
  | started ret =>
      cases c <;> simp only [WorkRegion.stepIn, hat] <;> try split
      all_goals rfl
  | barrier => exact absurd rfl hbarrier
  | start | enter | added ret | fetched v chunk | sectionsNext | sectionsLocked =>
      simp only [WorkRegion.stepIn, hat]
      split <;> rfl
  | storeNext v v' | reset ret | unlock q | fetch chunk | body lo hi' | loopNext =>
      simp only [WorkRegion.stepIn, hat]
      rfl

/-- A step of a thread that does not wait at the barrier. -/
theorem LoopAt.stepIn {r : WorkRegion} (h : LoopAt r.nthreads a s g) (hfit : a.InInt r.nthreads)
    (hstage : Stage r.nthreads (.loop a) s) (hlocks : Locks r.nthreads s)
    (hlt : r.nthreads < 2 ^ 32) (hi : i < r.nthreads) (hpast : s.past = [])
    (hbarrier : s.pc i ≠ .barrier) :
    LoopAt r.nthreads a (r.stepIn (.loop a) s i) (g + (s.pc i).fetches.toNat) := by
  have hpast' := (stepIn_past (r := r) (c := .loop a) hbarrier).trans hpast
  have hstage' : Stage r.nthreads (.loop a) (r.stepIn (.loop a) s i) :=
    hstage.step hfit.fits hlt hlocks hi hbarrier
  by_cases hinits : s.log.inits = []
  · obtain rfl := h.setUp hpast hinits
    have hpc := hstage.pc_of_inits hinits hi
    have hfetch : (s.pc i).fetches = false := by
      rcases hpc with hat | hat | ⟨stores, hat, -⟩ <;> rw [hat] <;> rfl
    rw [hfetch]
    refine ⟨fun _ _ => rfl, fun _ hinits' => ?_, fun hne => absurd hpast' hne⟩
    have hnil : s.pc i = .init [] := by
      by_contra hno
      exact hinits' ((inits_stepIn hbarrier hno).trans hinits)
    have hready : (.loop a : Construct).Ready s.works := by
      rcases hpc with hat | hat | ⟨stores, hat, hready⟩
      · rw [hnil] at hat
        cases hat
      · rw [hnil] at hat
        cases hat
      · rw [hnil] at hat
        cases hat
        exact hready
    obtain ⟨g', hg'⟩ := (hstage'.loopRunning hinits').count
    have hnext : (r.stepIn (.loop a) s i).works.next = i32 (a.counter 0) := by
      have hworks : (r.stepIn (.loop a) s i).works = s.works := by
        simp only [WorkRegion.stepIn, hnil]
        rfl
      rw [hworks, hfit.counter_int (Nat.zero_le _), LoopArgs.counter, hready.initialised.1]
      omega
    obtain rfl := hg'.unique hfit (Nat.zero_le _) hnext
    exact hg'
  · have hcount := (h.counted hpast hinits).stepIn (hstage.loopRunning hinits) hfit hi hbarrier
    refine ⟨fun _ hnil => ?_, fun _ _ => hcount, fun hne => absurd hpast' hne⟩
    rw [inits_stepIn hbarrier (WorkRunning.not_init (c := .loop a)
      (hstage.loopRunning hinits) hi [])] at hnil
    exact absurd hnil hinits

theorem dynamicLoop_safe (hfit : a.InInt n) (hpos : 0 < n) (hlt : n < 2 ^ 32) :
    (dynamicLoop n a).Safe where
  nthreads_pos := hpos
  nthreads_lt := hlt
  single := nofun
  fits c hc := by
    rw [List.mem_singleton.mp hc]
    exact hfit.fits

theorem dynamicLoop_step (hpast : s.past = []) (hi : i < n) :
    (dynamicLoop n a).step s i = (dynamicLoop n a).stepIn (.loop a) s i := by
  rw [WorkRegion.step, hpast]
  exact if_pos hi

theorem dynamicLoop_step_over (hpast : s.past ≠ []) : (dynamicLoop n a).step s i = s := by
  obtain ⟨l, past, hpast⟩ := List.exists_cons_of_ne_nil hpast
  rw [WorkRegion.step, hpast]
  rfl

theorem dynamicLoop_step_other (hi : ¬i < n) : (dynamicLoop n a).step s i = s := by
  rw [WorkRegion.step]
  split
  · exact if_neg hi
  · rfl

theorem LoopAt.step (h : LoopAt n a s g) (hfit : a.InInt n) (hlt : n < 2 ^ 32)
    (hinv : RegionInv (dynamicLoop n a) s) (i : Nat) :
    LoopAt n a ((dynamicLoop n a).step s i)
      (g + (decide (i < n) && (s.pc i).fetches).toNat) := by
  by_cases hi : i < n
  swap
  · rw [dynamicLoop_step_other hi, decide_eq_false hi]
    exact h
  rw [decide_eq_true hi, Bool.true_and]
  by_cases hpast : s.past = []
  swap
  · rw [dynamicLoop_step_over hpast, (h.finished hpast).1]
    exact h
  have hstage : Stage n (.loop a) s := hinv.current (.loop a) (by rw [hpast]; rfl)
  rw [dynamicLoop_step hpast hi]
  by_cases hbarrier : s.pc i = .barrier
  · have hcount := h.counted hpast (hstage.inits_of_barrier hi hbarrier)
    rw [show (s.pc i).fetches = false by rw [hbarrier]; rfl]
    simp only [WorkRegion.stepIn, hbarrier]
    split
    · -- the team is released, and the fetch of the thread at the barrier found nothing
      refine ⟨fun hnil => ?_, fun hnil => ?_, fun _ => ⟨fun _ => rfl, ?_⟩⟩
      · exact absurd hnil (List.append_ne_nil_of_right_ne_nil _ (List.cons_ne_nil _ _))
      · exact absurd hnil (List.append_ne_nil_of_right_ne_nil _ (List.cons_ne_nil _ _))
      · exact hcount.failed i hi (by rw [hbarrier]; rfl)
    · exact h
  · exact h.stepIn hfit hstage hinv.locks hlt hi hpast hbarrier

theorem loopAt_after (hfit : a.InInt n) (hpos : 0 < n) (hlt : n < 2 ^ 32) (works : Works)
    (sched : Nat → Nat) (t : Nat) :
    LoopAt n a ((dynamicLoop n a).after works sched t)
      ((dynamicLoop n a).fetchCount works sched t) := by
  induction t with
  | zero => exact ⟨fun _ _ => rfl, fun _ hinits => absurd rfl hinits, fun hpast => absurd rfl hpast⟩
  | succ t ih =>
      exact ih.step hfit hlt (regionInv_after (dynamicLoop_safe hfit hpos hlt) works sched t)
        (sched t)

/-- The other threads leave a thread where it is, unless it waits for them. -/
theorem stepIn_pc_of_ne {r : WorkRegion} {c : Construct} {j : Nat} (hji : j ≠ i)
    (hi : i < r.nthreads) (hbarrier : s.pc i ≠ .barrier) : (r.stepIn c s j).pc i = s.pc i := by
  have hother : ∀ q, Function.update s.pc j q i = s.pc i :=
    fun q => Function.update_of_ne hji.symm q s.pc
  generalize hat : s.pc j = pc
  cases pc with
  | init stores =>
      cases stores <;> simp only [WorkRegion.stepIn, hat] <;> exact hother _
  | started ret =>
      cases c <;> simp only [WorkRegion.stepIn, hat] <;> try split
      all_goals exact hother _
  | barrier =>
      simp only [WorkRegion.stepIn, hat]
      split
      · rename_i hall
        exact absurd (hall i hi) hbarrier
      · rfl
  | start | sectionsNext =>
      simp only [WorkRegion.stepIn, hat]
      split
      · rfl
      · exact hother _
  | enter | added ret | fetched v chunk | sectionsLocked =>
      simp only [WorkRegion.stepIn, hat]
      split <;> exact hother _
  | storeNext v v' | reset ret | unlock q | fetch chunk | body lo hi' | loopNext =>
      simp only [WorkRegion.stepIn, hat]
      exact hother _

theorem step_pc_of_ne {j : Nat} (hji : j ≠ i) (hi : i < n) (hbarrier : s.pc i ≠ .barrier) :
    ((dynamicLoop n a).step s j).pc i = s.pc i := by
  rw [WorkRegion.step]
  split
  · split
    · exact stepIn_pc_of_ne hji hi hbarrier
    · rfl
  · rfl

/-! ## The calls -/

/-- The thread is in a call, behind the lock. -/
def WorkPc.inCall : WorkPc → Bool
  | .fetch _ | .fetched _ _ => true
  | _ => false

theorem WorkPc.fetches_eq {pc : WorkPc} (h : pc.fetches = true) : ∃ chunk, pc = .fetch chunk := by
  cases pc with
  | fetch chunk => exact ⟨chunk, rfl⟩
  | _ => cases h

/-- While a thread is in a call, the loop runs and the counter counts. -/
theorem LoopAt.of_inCall (h : LoopAt n a s g) (hinv : RegionInv (dynamicLoop n a) s) (hi : i < n)
    (hcall : (s.pc i).inCall = true) :
    s.past = [] ∧ LoopRunning n a s ∧ LoopCount n a s g := by
  have hpast : s.past = [] := by
    by_contra hne
    rw [(h.finished hne).1] at hcall
    cases hcall
  have hstage : Stage n (.loop a) s := hinv.current (.loop a) (by rw [hpast]; rfl)
  have hinits : s.log.inits ≠ [] := by
    intro hinits
    rcases hstage.pc_of_inits hinits hi with hat | hat | ⟨stores, hat, -⟩ <;>
      rw [hat] at hcall <;> cases hcall
  exact ⟨hpast, hstage.loopRunning hinits, h.counted hpast hinits⟩

/-- A fetch-add hands the thread the counter of its number. -/
theorem LoopAt.fetch (h : LoopAt n a s g) (hfit : a.InInt n)
    (hinv : RegionInv (dynamicLoop n a) s) (hi : i < n) (hfetch : (s.pc i).fetches = true) :
    ((dynamicLoop n a).step s i).pc i = .fetched (a.counter g) a.chunk := by
  obtain ⟨chunk, hat⟩ := WorkPc.fetches_eq hfetch
  obtain ⟨hpast, hrun, hcount⟩ := h.of_inCall hinv hi (by rw [hat]; rfl)
  have hleg := hrun.pcs i hi
  rw [hat] at hleg
  cases hleg
  have hlt := tally_lt (p := a.failed) (f := s.pc) hi (by rw [hat]; rfl)
  have hbound := hcount.bound
  rw [dynamicLoop_step hpast hi]
  simp only [WorkRegion.stepIn, hat]
  rw [hcount.next, hfit.counter_int (by omega)]
  exact Function.update_self ..

/-- The step behind the fetch-add ends the call. -/
theorem LoopAt.fetched (h : LoopAt n a s g) (hfit : a.InInt n)
    (hinv : RegionInv (dynamicLoop n a) s) (hi : i < n) (g' : Nat)
    (hat : s.pc i = .fetched (a.counter g') a.chunk) :
    ((dynamicLoop n a).step s i).pc i =
      match a.rangeOf g' with
      | some (lo, hi) => .body lo hi
      | none => .barrier := by
  obtain ⟨hpast, hrun, -⟩ := h.of_inCall hinv hi (by rw [hat]; rfl)
  have hstart : a.start ≤ a.counter g' :=
    Int.le_add_of_nonneg_right (Int.mul_nonneg (by omega) (Int.le_of_lt hfit.fits.chunk_pos))
  rw [dynamicLoop_step hpast hi, LoopArgs.rangeOf]
  simp only [WorkRegion.stepIn, hat, hrun.end_]
  by_cases hlt : a.counter g' < a.end_
  · rw [if_neg (by omega), if_pos hlt, hfit.fits.chunk_end hlt hstart]
    exact Function.update_self ..
  · rw [if_pos (by omega), if_neg hlt]
    exact Function.update_self ..

end Loop

section Calls

variable {n i g t t' t₀ t₁ : Nat} {a : LoopArgs} {works : Works} {sched : Nat → Nat}
  {range : Option (Int × Int)}

/-- Between its fetch-add and its next step a thread stands behind the fetch-add. -/
theorem fetched_after (hfit : a.InInt n) (hpos : 0 < n) (hlt : n < 2 ^ 32) (hi : i < n)
    (hfirst : sched t₀ = i)
    (hfetch : (((dynamicLoop n a).after works sched t₀).pc i).fetches = true) (d : Nat)
    (hbetween : ∀ t, t₀ < t → t < t₀ + 1 + d → sched t ≠ i) :
    ((dynamicLoop n a).after works sched (t₀ + 1 + d)).pc i =
      .fetched (a.counter ((dynamicLoop n a).fetchCount works sched t₀)) a.chunk := by
  induction d with
  | zero =>
      have hinv := regionInv_after (dynamicLoop_safe hfit hpos hlt) works sched t₀
      have hat := (loopAt_after hfit hpos hlt works sched t₀).fetch hfit hinv hi hfetch
      rw [← hfirst] at hat ⊢
      exact hat
  | succ d ih =>
      have hat := ih fun t h h' => hbetween t h (by omega)
      have hne := hbetween (t₀ + 1 + d) (by omega) (by omega)
      have hbarrier : ((dynamicLoop n a).after works sched (t₀ + 1 + d)).pc i ≠ .barrier := by
        rw [hat]
        nofun
      exact (step_pc_of_ne hne hi hbarrier).trans hat

/-- A call returns the range of its number. -/
theorem WorkRegion.LoopCall.range_eq (h : (dynamicLoop n a).LoopCall works sched i t₀ t₁ range)
    (hfit : a.InInt n) (hpos : 0 < n) (hlt : n < 2 ^ 32) :
    range = a.rangeOf ((dynamicLoop n a).fetchCount works sched t₀) := by
  obtain ⟨hlast, hsched⟩ := h.last
  have hat := fetched_after hfit hpos hlt h.lt h.first h.fetches (t₁ - (t₀ + 1))
    fun t ht ht' => h.between t ht (by omega)
  rw [Nat.add_sub_cancel' hlast] at hat
  have hinv := regionInv_after (dynamicLoop_safe hfit hpos hlt) works sched t₁
  have hret := (loopAt_after hfit hpos hlt works sched t₁).fetched hfit hinv h.lt _ hat
  have hafter := h.ret
  rw [WorkRegion.after, hsched, hret] at hafter
  generalize a.rangeOf ((dynamicLoop n a).fetchCount works sched t₀) = range' at hafter
  cases range' with
  | none =>
      cases range with
      | none => rfl
      | some p => cases hafter
  | some p' =>
      cases range with
      | none => cases hafter
      | some p =>
          obtain ⟨lo, hi⟩ := p
          obtain ⟨lo', hi'⟩ := p'
          cases hafter
          rfl

section Count

variable {r : WorkRegion}

theorem fetchCount_mono (h : t ≤ t') :
    r.fetchCount works sched t ≤ r.fetchCount works sched t' := by
  induction h with
  | refl => exact Nat.le_refl _
  | step _ ih => exact Nat.le_trans ih (Nat.le_add_right _ _)

/-- Two fetch-adds have different numbers. -/
theorem fetchCount_lt (h : t < t') (hfetch : r.fetchesAt works sched t = true) :
    r.fetchCount works sched t < r.fetchCount works sched t' := by
  refine Nat.lt_of_lt_of_le ?_ (fetchCount_mono h)
  rw [WorkRegion.fetchCount, hfetch]
  exact Nat.lt_succ_self _

/-- No number is skipped. -/
theorem exists_fetch (h : g < r.fetchCount works sched t) :
    ∃ u < t, r.fetchesAt works sched u = true ∧ r.fetchCount works sched u = g := by
  induction t with
  | zero => cases h
  | succ t ih =>
      by_cases hlt : g < r.fetchCount works sched t
      · obtain ⟨u, hu, hfetch, hcount⟩ := ih hlt
        exact ⟨u, by omega, hfetch, hcount⟩
      · rw [WorkRegion.fetchCount] at h
        cases hfetch : r.fetchesAt works sched t with
        | false =>
            rw [hfetch, Bool.toNat_false] at h
            omega
        | true =>
            rw [hfetch, Bool.toNat_true] at h
            exact ⟨t, by omega, hfetch, by omega⟩

end Count

theorem WorkRegion.LoopCall.fetchesAt {r : WorkRegion} (h : r.LoopCall works sched i t₀ t₁ range) :
    r.fetchesAt works sched t₀ = true := by
  rw [WorkRegion.fetchesAt, h.first, decide_eq_true h.lt, h.fetches]
  rfl

theorem LoopArgs.InInt.counter_le (h : a.InInt n) {g g' : Nat} (hlt : g < g') :
    a.counter g + a.chunk ≤ a.counter g' := by
  have hpos := h.fits.chunk_pos
  have hmul : ((g + 1 : Nat) : Int) * a.chunk ≤ g' * a.chunk :=
    Int.mul_le_mul_of_nonneg_right (by omega) (Int.le_of_lt hpos)
  rw [← LoopArgs.counter_succ, LoopArgs.counter, LoopArgs.counter]
  omega

theorem LoopArgs.rangeOf_eq_some {lo hi : Int} (h : some (lo, hi) = a.rangeOf g) :
    a.counter g < a.end_ ∧ lo = a.counter g ∧ hi = min (a.counter g + a.chunk) a.end_ := by
  rw [LoopArgs.rangeOf] at h
  split at h
  · rename_i hlt
    cases h
    exact ⟨hlt, rfl, rfl⟩
  · cases h

/-- The chunk that an iteration is in. -/
theorem LoopArgs.InInt.exists_chunk (h : a.InInt n) {x : Int} (hx : a.start ≤ x) :
    ∃ g, a.counter g ≤ x ∧ x < a.counter g + a.chunk := by
  have hpos := h.fits.chunk_pos
  have hdiv := Int.mul_ediv_add_emod (x - a.start) a.chunk
  have hmod := Int.emod_nonneg (x - a.start) (Int.ne_of_gt hpos)
  have hmod' := Int.emod_lt_of_pos (x - a.start) hpos
  have hnonneg : 0 ≤ (x - a.start) / a.chunk := Int.ediv_nonneg (by omega) (Int.le_of_lt hpos)
  refine ⟨((x - a.start) / a.chunk).toNat, ?_, ?_⟩ <;>
    rw [LoopArgs.counter, Int.toNat_of_nonneg hnonneg, Int.mul_comm] <;> omega

/-- A thread that has left the loop has ended each of its calls. -/
theorem exists_loopCall (hfit : a.InInt n) (hpos : 0 < n) (hlt : n < 2 ^ 32) {T : Nat}
    (hfinished : ∀ i < n, ((dynamicLoop n a).after works sched T).Finished i 0)
    (ht : t₀ < T) (hfetch : (dynamicLoop n a).fetchesAt works sched t₀ = true) :
    ∃ t₁ < T, (dynamicLoop n a).LoopCall works sched (sched t₀) t₀ t₁
      (a.rangeOf ((dynamicLoop n a).fetchCount works sched t₀)) := by
  rw [WorkRegion.fetchesAt, Bool.and_eq_true, decide_eq_true_iff] at hfetch
  obtain ⟨hi, hfetch⟩ := hfetch
  have hmoved : ∃ t, t₀ < t ∧ t < T ∧ sched t = sched t₀ := by
    by_contra hno
    have hat := fetched_after hfit hpos hlt hi rfl hfetch (T - (t₀ + 1))
      fun t h h' heq => hno ⟨t, h, by omega, heq⟩
    rw [Nat.add_sub_cancel' ht] at hat
    rcases hfinished _ hi with hpast | ⟨-, hbarrier⟩
    · have hover := (loopAt_after hfit hpos hlt works sched T).finished
        (List.ne_nil_of_length_pos hpast)
      rw [hover.1] at hat
      cases hat
    · rw [hbarrier] at hat
      cases hat
  obtain ⟨hlast, hle, hsched⟩ := Nat.find_spec hmoved
  have hleast := fun t ht => Nat.find_min (m := t) hmoved ht
  generalize Nat.find hmoved = t₁ at hlast hle hsched hleast
  have hbetween : ∀ t, t₀ < t → t < t₁ → sched t ≠ sched t₀ :=
    fun t h h' heq => hleast t h' ⟨h, by omega, heq⟩
  refine ⟨t₁, hle, hi, rfl, hfetch, hbetween, ⟨hlast, hsched⟩, ?_⟩
  have hat := fetched_after hfit hpos hlt hi rfl hfetch (t₁ - (t₀ + 1))
    fun t h h' => hbetween t h (by omega)
  rw [Nat.add_sub_cancel' hlast] at hat
  have hinv := regionInv_after (dynamicLoop_safe hfit hpos hlt) works sched t₁
  have hret := (loopAt_after hfit hpos hlt works sched t₁).fetched hfit hinv hi _ hat
  rw [WorkRegion.after, hsched]
  exact hret

end Calls

/-- The calls of one dynamic loop hand out its iterations, and a fair team gets through it. A call
is known by the step of its fetch-add. -/
structure LoopCovered (r : WorkRegion) (a : LoopArgs) (works : Works) (sched : Nat → Nat) :
    Prop where
  disjoint : ∀ {i t₀ t₁ lo hi i' t₀' t₁' lo' hi'},
    r.LoopCall works sched i t₀ t₁ (some (lo, hi)) →
    r.LoopCall works sched i' t₀' t₁' (some (lo', hi')) → t₀ ≠ t₀' → hi ≤ lo' ∨ hi' ≤ lo
  begins : ∀ {i t₀ t₁ lo hi}, r.LoopCall works sched i t₀ t₁ (some (lo, hi)) →
    ∃ k : Nat, lo = a.start + k * a.incr
  covered : ∀ T, (∀ i < r.nthreads, (r.after works sched T).Finished i 0) →
    ∀ k : Nat, a.start + k * a.incr < a.end_ → ∃! t₀, ∃ i, ∃ t₁ < T, ∃ lo hi,
      r.LoopCall works sched i t₀ t₁ (some (lo, hi)) ∧
        lo ≤ a.start + k * a.incr ∧ a.start + k * a.incr < hi
  ended : ∀ {i t₀ t₁ i' t₀' t₁' range}, r.LoopCall works sched i t₀ t₁ none →
    r.LoopCall works sched i' t₀' t₁' range → t₁ < t₀' → range = none
  finishes : r.Fair sched → ∃ T, ∀ i < r.nthreads, (r.after works sched T).Finished i 0

section Covered

variable {n i i' k t₀ t₁ t₀' t₁' T : Nat} {a : LoopArgs} {works : Works} {sched : Nat → Nat}
  {lo hi lo' hi' : Int} {range : Option (Int × Int)}

/-- A later fetch-add is for a later range. -/
theorem WorkRegion.LoopCall.le_of_lt
    (h : (dynamicLoop n a).LoopCall works sched i t₀ t₁ (some (lo, hi)))
    (h' : (dynamicLoop n a).LoopCall works sched i' t₀' t₁' (some (lo', hi')))
    (hlater : t₀ < t₀') (hfit : a.InInt n) (hpos : 0 < n) (hlt : n < 2 ^ 32) : hi ≤ lo' := by
  obtain ⟨-, -, rfl⟩ := LoopArgs.rangeOf_eq_some (h.range_eq hfit hpos hlt)
  obtain ⟨-, rfl, -⟩ := LoopArgs.rangeOf_eq_some (h'.range_eq hfit hpos hlt)
  have := hfit.counter_le (fetchCount_lt hlater h.fetchesAt)
  omega

theorem WorkRegion.LoopCall.disjoint
    (h : (dynamicLoop n a).LoopCall works sched i t₀ t₁ (some (lo, hi)))
    (h' : (dynamicLoop n a).LoopCall works sched i' t₀' t₁' (some (lo', hi')))
    (hne : t₀ ≠ t₀') (hfit : a.InInt n) (hpos : 0 < n) (hlt : n < 2 ^ 32) :
    hi ≤ lo' ∨ hi' ≤ lo := by
  rcases Nat.lt_or_gt_of_ne hne with hlater | hlater
  · exact .inl (h.le_of_lt h' hlater hfit hpos hlt)
  · exact .inr (h'.le_of_lt h hlater hfit hpos hlt)

theorem WorkRegion.LoopCall.begins
    (h : (dynamicLoop n a).LoopCall works sched i t₀ t₁ (some (lo, hi)))
    (hfit : a.InInt n) (hpos : 0 < n) (hlt : n < 2 ^ 32) :
    ∃ k : Nat, lo = a.start + k * a.incr := by
  obtain ⟨-, rfl, -⟩ := LoopArgs.rangeOf_eq_some (h.range_eq hfit hpos hlt)
  refine ⟨(dynamicLoop n a).fetchCount works sched t₀ * a.chunkSize.toNat, ?_⟩
  have hsize : (a.chunkSize.toNat : Int) = a.chunkSize :=
    Int.toNat_of_nonneg (by have := hfit.chunkSize; omega)
  rw [LoopArgs.counter, hfit.chunk_eq]
  push_cast
  rw [hsize, Int.mul_assoc]

theorem WorkRegion.LoopCall.ended
    (h : (dynamicLoop n a).LoopCall works sched i t₀ t₁ none)
    (h' : (dynamicLoop n a).LoopCall works sched i' t₀' t₁' range)
    (hlater : t₁ < t₀') (hfit : a.InInt n) (hpos : 0 < n) (hlt : n < 2 ^ 32) : range = none := by
  have hnone := h.range_eq hfit hpos hlt
  have hge : a.end_ ≤ a.counter ((dynamicLoop n a).fetchCount works sched t₀) := by
    by_contra hno
    rw [LoopArgs.rangeOf, if_pos (by omega)] at hnone
    cases hnone
  have hlast := h.last.1
  have := hfit.counter_le (fetchCount_lt (show t₀ < t₀' by omega) h.fetchesAt)
  have := hfit.fits.chunk_pos
  rw [h'.range_eq hfit hpos hlt]
  exact if_neg (by omega)

/-- When a thread has found nothing left, every chunk has been fetched. -/
theorem end_le_counter (hfit : a.InInt n) (hpos : 0 < n) (hlt : n < 2 ^ 32) (hi : i < n)
    (hfinished : ((dynamicLoop n a).after works sched T).Finished i 0) :
    a.end_ ≤ a.counter ((dynamicLoop n a).fetchCount works sched T) := by
  have hat := loopAt_after hfit hpos hlt works sched T
  rcases hfinished with hpast | ⟨hpast, hbarrier⟩
  · exact (hat.finished (List.ne_nil_of_length_pos hpast)).2
  · have hnil : ((dynamicLoop n a).after works sched T).past = [] :=
      List.eq_nil_of_length_eq_zero hpast.symm
    have hinv := regionInv_after (dynamicLoop_safe hfit hpos hlt) works sched T
    have hstage : Stage n (.loop a) _ := hinv.current (.loop a) (by rw [hnil]; rfl)
    exact (hat.counted hnil (hstage.inits_of_barrier hi hbarrier)).failed i hi
      (by rw [hbarrier]; rfl)

theorem exists_loopCall_covering (hfit : a.InInt n) (hpos : 0 < n) (hlt : n < 2 ^ 32)
    (hfinished : ∀ i < n, ((dynamicLoop n a).after works sched T).Finished i 0)
    {x : Int} (hstart : a.start ≤ x) (hend : x < a.end_) :
    ∃ t₀, ∃ t₁ < T, ∃ lo hi,
      (dynamicLoop n a).LoopCall works sched (sched t₀) t₀ t₁ (some (lo, hi)) ∧
        lo ≤ x ∧ x < hi := by
  obtain ⟨g, hlo, hhi⟩ := hfit.exists_chunk hstart
  have hall := end_le_counter hfit hpos hlt hpos (hfinished 0 hpos)
  have hg : g < (dynamicLoop n a).fetchCount works sched T := by
    by_contra hge
    have hchunk := hfit.fits.chunk_pos
    rcases Nat.eq_or_lt_of_not_lt hge with heq | hlt'
    · rw [← heq] at hall
      omega
    · have := hfit.counter_le hlt'
      omega
  obtain ⟨t₀, ht₀, hfetch, hcount⟩ := exists_fetch hg
  obtain ⟨t₁, ht₁, hcall⟩ := exists_loopCall hfit hpos hlt hfinished ht₀ hfetch
  rw [hcount, LoopArgs.rangeOf, if_pos (by omega)] at hcall
  exact ⟨t₀, t₁, ht₁, _, _, hcall, hlo, by omega⟩

end Covered

theorem dynamic_loop_covers (n : Nat) (a : LoopArgs) (hpos : 0 < n) (hlt : n < 2 ^ 32)
    (hfit : a.InInt n) (works : Works) (sched : Nat → Nat) :
    LoopCovered (dynamicLoop n a) a works sched where
  disjoint h h' hne := h.disjoint h' hne hfit hpos hlt
  begins h := h.begins hfit hpos hlt
  covered T hfinished k hk := by
    have hstart : a.start ≤ a.start + k * a.incr :=
      Int.le_add_of_nonneg_right (Int.mul_nonneg (by omega) (Int.le_of_lt hfit.incr))
    obtain ⟨t₀, t₁, ht₁, lo, hi, hcall, hlo, hhi⟩ :=
      exists_loopCall_covering hfit hpos hlt hfinished hstart hk
    refine ⟨t₀, ⟨sched t₀, t₁, ht₁, lo, hi, hcall, hlo, hhi⟩, ?_⟩
    rintro t₀' ⟨i', t₁', -, lo', hi', hcall', hlo', hhi'⟩
    by_contra hne
    have := hcall.disjoint hcall' (Ne.symm hne) hfit hpos hlt
    omega
  ended h h' hlater := h.ended h' hlater hfit hpos hlt
  finishes hfair := by
    obtain ⟨T, hT⟩ := region_completes (dynamicLoop_safe hfit hpos hlt) works hfair
    exact ⟨T, fun i _ => .inl hT⟩

/-- Seven iterations of stride 3 in chunks of two, for two threads. -/
def strideThree : LoopArgs := ⟨-4, 16, 3, 2⟩

theorem strideThree_inInt : strideThree.InInt 2 where
  start := by decide
  end_ := by decide
  start_le := by decide
  incr := by decide
  chunkSize := by decide
  chunk := by decide
  left := by decide
  overshoot := by decide

theorem dynamic_loop_covers_strideThree :
    (∀ i < 2, ((dynamicLoop 2 strideThree).after garbageWorks (· % 2) 60).Finished i 0) ∧
      LoopCovered (dynamicLoop 2 strideThree) strideThree garbageWorks (· % 2) :=
  ⟨by decide +kernel,
    dynamic_loop_covers 2 strideThree (by decide) (by decide) strideThree_inInt _ _⟩

end TeraNoC.Runtime
