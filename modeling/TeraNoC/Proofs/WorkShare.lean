import Mathlib.Tactic.Ring
import TeraNoC.Lib.Count
import TeraNoC.Runtime.WorkShare

/-!
# When work-sharing constructs are independent

The record `works` is set up by the first thread that finds `checkfirst` cleared, and
only a single ever clears it again. So a construct is set up when it is the first of
its region, or when all before it are singles; behind a loop or sections it runs on
what those left.

Within a construct the argument is a count. An iteration is with the record until the
counter `next` passes it, then with one thread, then executed; for every `x` the number
of executions plus the number of threads that owe one is therefore 1 once the counter
is behind `x`, and 0 before. The counter of a loop goes on after the last chunk, once
for each thread that finds nothing left, and must not wrap below `end` then.
-/

namespace TeraNoC.Runtime

open TeraNoC.Lib

/-- The number of chunks of a loop. -/
def LoopArgs.numChunks (a : LoopArgs) : Nat :=
  ((a.end_ - a.start + a.chunk - 1) / a.chunk).toNat

/-- The counter of the loop after `g` fetches, if it never wraps. -/
def LoopArgs.counter (a : LoopArgs) (g : Nat) : Int := a.start + g * a.chunk

def IsInt (x : Int) : Prop := -2 ^ 31 ≤ x ∧ x < 2 ^ 31

instance (x : Int) : Decidable (IsInt x) := inferInstanceAs (Decidable (_ ∧ _))

/-- The loop counts upwards, nothing overflows up to its end, and the counter does not
wrap below the end when each of `n` threads has looked for one chunk more than there
are. -/
structure LoopArgs.Fits (a : LoopArgs) (n : Nat) : Prop where
  start : IsInt a.start
  end_ : IsInt a.end_
  incr : 0 < a.incr
  chunkSize : 0 < a.chunkSize
  chunk : a.chunkSize * a.incr < 2 ^ 31
  left : a.end_ - a.start < 2 ^ 31
  wraps : ∀ g < a.numChunks + n, a.numChunks ≤ g → a.end_ ≤ i32 (a.counter g)

namespace Construct

/-- The arguments a team of `n` threads can work on. -/
def Fits (n : Nat) : Construct → Prop
  | loop a => a.Fits n
  | sections count => 0 ≤ count ∧ count + 1 < 2 ^ 31
  | single => True

/-- The record as the construct needs it. -/
def Initialised (w : Works) : Construct → Prop
  | loop a =>
      w.next = a.start ∧ w.end_ = a.end_ ∧ w.incr = a.incr ∧ w.chunkSize = a.chunkSize
  | sections count => w.next = 1 ∧ w.end_ = count + 1 ∧ w.incr = 1 ∧ w.chunkSize = 1
  | single => True

/-- The iterations a thread at `pc` was handed and has not executed yet. -/
def share (c : Construct) : WorkPc → Option (Int × Int)
  | .fetched start chunk =>
      match c with
      | loop a => if start < a.end_ then some (start, min (start + chunk) a.end_) else none
      | sections _ | single => none
  | .started true | .added true | .reset true =>
      match c with
      | single => some (0, 1)
      | loop _ | sections _ => none
  | .unlock after => c.share after
  | .body lo hi => some (lo, hi)
  | _ => none

/-- A thread at `pc` has to execute iteration `x`. -/
def owes (c : Construct) (x : Int) (pc : WorkPc) : Bool :=
  (c.share pc).any fun s => decide (c.Iterates s.1 s.2 x)

/-- How often iteration `x` was executed. -/
def runs (c : Construct) (l : ConstructLog) (x : Int) : Nat :=
  l.ran.countP fun e => decide (c.Iterates e.2.1 e.2.2 x)

/-- How often iteration `x` was handed out. -/
def given (c : Construct) (n : Nat) (s : WorkState) (x : Int) : Nat :=
  c.runs s.log x + tally (c.owes x) s.pc n

section Given

variable {c : Construct} {n i : Nat} {s s' : WorkState} {q : WorkPc} {x lo hi' : Int}

theorem given_move (hi : i < n) (hpc : s'.pc = Function.update s.pc i q)
    (hran : s'.log.ran = s.log.ran) (hshare : c.share q = c.share (s.pc i)) :
    c.given n s' x = c.given n s x := by
  rw [given, given, runs, runs, hran, hpc, tally_update_eq hi]
  rw [owes, owes, hshare]

theorem given_hand (hi : i < n) (hpc : s'.pc = Function.update s.pc i q)
    (hran : s'.log.ran = s.log.ran) (hnone : c.share (s.pc i) = none)
    (hsome : c.share q = some (lo, hi')) :
    c.given n s' x = c.given n s x + if c.Iterates lo hi' x then 1 else 0 := by
  have hupd := tally_update (c.owes x) s.pc q hi
  have hold : c.owes x (s.pc i) = false := by rw [owes, hnone]; rfl
  have hnew : c.owes x q = decide (c.Iterates lo hi' x) := by rw [owes, hsome]; rfl
  rw [hold, hnew] at hupd
  rw [given, given, runs, runs, hran, hpc]
  by_cases h : c.Iterates lo hi' x <;> simp [h] at hupd ⊢ <;> omega

theorem given_run (hi : i < n) (hbody : s.pc i = .body lo hi')
    (hpc : s'.pc = Function.update s.pc i q)
    (hran : s'.log.ran = s.log.ran ++ [(i, lo, hi')]) (hnone : c.share q = none) :
    c.given n s' x = c.given n s x := by
  have hupd := tally_update (c.owes x) s.pc q hi
  have hold : c.owes x (s.pc i) = decide (c.Iterates lo hi' x) := by rw [owes, hbody]; rfl
  have hnew : c.owes x q = false := by rw [owes, hnone]; rfl
  rw [hold, hnew] at hupd
  rw [given, given, runs, runs, hran, hpc, List.countP_append, List.countP_singleton]
  by_cases h : c.Iterates lo hi' x <;> simp [h] at hupd ⊢ <;> omega

end Given

end Construct

/-! ## The lock -/

def WorkPc.locked : WorkPc → Bool
  | .enter | .init _ | .started _ | .storeNext _ _ | .added _ | .reset _ | .unlock _
  | .sectionsLocked => true
  | _ => false

/-- At most one thread is between `gomp_hal_lock` and `gomp_hal_unlock`, and one is while the lock
is taken. -/
structure Locks (n : Nat) (s : WorkState) : Prop where
  held : ∀ i < n, (s.pc i).locked = true → s.works.lock = true
  taken : s.works.lock = true → ∃ i < n, (s.pc i).locked = true
  one : ∀ i < n, ∀ j < n, (s.pc i).locked = true → (s.pc j).locked = true → i = j
  after : ∀ i < n, ∀ q, s.pc i = .unlock q → q.locked = false

section Locks

variable {n i : Nat} {s s' : WorkState} {q : WorkPc}

/-- Where a step leaves the threads. -/
theorem pc_after (hpc : s'.pc = Function.update s.pc i q) (j : Nat) :
    j = i ∧ s'.pc j = q ∨ j ≠ i ∧ s'.pc j = s.pc j := by
  by_cases hj : j = i
  · exact .inl ⟨hj, by rw [hj, hpc, Function.update_self]⟩
  · exact .inr ⟨hj, by rw [hpc, Function.update_of_ne hj]⟩

theorem Locks.keep (h : Locks n s) (hi : i < n) (hpc : s'.pc = Function.update s.pc i q)
    (hlock : s'.works.lock = s.works.lock) (hq : q.locked = (s.pc i).locked)
    (hafter : ∀ q', q = .unlock q' → q'.locked = false) : Locks n s' := by
  have hlocked : ∀ j, (s'.pc j).locked = (s.pc j).locked := by
    intro j
    rcases pc_after hpc j with ⟨rfl, hjq⟩ | ⟨-, hjs⟩
    · rw [hjq, hq]
    · rw [hjs]
  refine ⟨fun j hj hl => ?_, fun hl => ?_, fun j hj k hk hl hl' => ?_, fun j hj q' hq' => ?_⟩
  · rw [hlock]
    exact h.held j hj (hlocked j ▸ hl)
  · obtain ⟨j, hj, hjl⟩ := h.taken (hlock ▸ hl)
    exact ⟨j, hj, (hlocked j).trans hjl⟩
  · exact h.one j hj k hk (hlocked j ▸ hl) (hlocked k ▸ hl')
  · rcases pc_after hpc j with ⟨-, hjq⟩ | ⟨-, hjs⟩
    · exact hafter q' (hjq ▸ hq')
    · exact h.after j hj q' (hjs ▸ hq')

theorem Locks.take (h : Locks n s) (hi : i < n) (hpc : s'.pc = Function.update s.pc i q)
    (hfree : s.works.lock = false) (hlock : s'.works.lock = true) (hq : q.locked = true)
    (hafter : ∀ q', q = .unlock q' → q'.locked = false) : Locks n s' := by
  have hown : ∀ j < n, (s'.pc j).locked = true → j = i := by
    intro j hj hl
    rcases pc_after hpc j with ⟨hji, -⟩ | ⟨-, hjs⟩
    · exact hji
    · rw [h.held j hj (hjs ▸ hl)] at hfree
      cases hfree
  refine ⟨fun _ _ _ => hlock, fun _ => ⟨i, hi, ?_⟩, fun j hj k hk hl hl' => ?_,
    fun j hj q' hq' => ?_⟩
  · rw [hpc, Function.update_self, hq]
  · rw [hown j hj hl, hown k hk hl']
  · rcases pc_after hpc j with ⟨-, hjq⟩ | ⟨-, hjs⟩
    · exact hafter q' (hjq ▸ hq')
    · exact h.after j hj q' (hjs ▸ hq')

theorem Locks.free (h : Locks n s) (hi : i < n) (hpc : s'.pc = Function.update s.pc i q)
    (hlock : s'.works.lock = false) (hl : (s.pc i).locked = true) (hq : q.locked = false) :
    Locks n s' := by
  have hnone : ∀ j < n, (s'.pc j).locked = false := by
    intro j hj
    rcases pc_after hpc j with ⟨-, hjq⟩ | ⟨hji, hjs⟩
    · rw [hjq, hq]
    · rw [hjs, ← Bool.not_eq_true]
      intro hl'
      exact hji (h.one j hj i hi hl' hl)
  refine ⟨fun j hj hl' => ?_, fun hl' => ?_, fun j hj _ _ hl' _ => ?_, fun j hj q' hq' => ?_⟩
  · rw [hnone j hj] at hl'
    cases hl'
  · rw [hlock] at hl'
    cases hl'
  · rw [hnone j hj] at hl'
    cases hl'
  · have := hnone j hj
    rw [hq'] at this
    cases this

variable {r : WorkRegion} {c : Construct}

theorem sectionPc_locked (v : Int) : (WorkRegion.sectionPc v).locked = false := by
  rw [WorkRegion.sectionPc]
  split <;> rfl

theorem singlePc_locked (b : Bool) : (WorkRegion.singlePc b).locked = false := by
  cases b <;> rfl

theorem afterBody_locked (c : Construct) : (WorkRegion.afterBody c).locked = false := by
  cases c <;> rfl

theorem Locks.step (h : Locks r.nthreads s) (hi : i < r.nthreads) (hbarrier : s.pc i ≠ .barrier) :
    Locks r.nthreads (r.stepIn c s i) := by
  generalize hat : s.pc i = pc at hbarrier
  cases pc with
  | start | sectionsNext =>
      simp only [WorkRegion.stepIn, hat]
      split
      · exact h
      · rename_i hfree
        exact h.take hi rfl (Bool.eq_false_iff.mpr hfree) rfl rfl nofun
  | enter =>
      simp only [WorkRegion.stepIn, hat]
      split <;> exact h.keep hi rfl rfl (by rw [hat]; rfl) nofun
  | init stores =>
      cases stores with
      | nil =>
          simp only [WorkRegion.stepIn, hat]
          exact h.keep hi rfl rfl (by rw [hat]; rfl) nofun
      | cons w stores =>
          simp only [WorkRegion.stepIn, hat]
          exact h.keep hi rfl (by cases w <;> rfl) (by rw [hat]; rfl) nofun
  | started ret =>
      cases c with
      | loop a =>
          simp only [WorkRegion.stepIn, hat]
          refine h.keep hi rfl rfl (by rw [hat]; rfl) ?_
          rintro _ ⟨⟩
          rfl
      | sections count =>
          simp only [WorkRegion.stepIn, hat]
          split
          · exact h.keep hi rfl rfl (by rw [hat]; rfl) nofun
          · refine h.keep hi rfl rfl (by rw [hat]; rfl) ?_
            rintro _ ⟨⟩
            rfl
      | single =>
          simp only [WorkRegion.stepIn, hat]
          exact h.keep hi rfl rfl (by rw [hat]; rfl) nofun
  | storeNext v w =>
      simp only [WorkRegion.stepIn, hat]
      refine h.keep hi rfl rfl (by rw [hat]; rfl) ?_
      rintro _ ⟨⟩
      exact sectionPc_locked v
  | added ret =>
      simp only [WorkRegion.stepIn, hat]
      split
      · exact h.keep hi rfl rfl (by rw [hat]; rfl) nofun
      · refine h.keep hi rfl rfl (by rw [hat]; rfl) ?_
        rintro _ ⟨⟩
        exact singlePc_locked ret
  | reset ret =>
      simp only [WorkRegion.stepIn, hat]
      refine h.keep hi rfl rfl (by rw [hat]; rfl) ?_
      rintro _ ⟨⟩
      exact singlePc_locked ret
  | unlock q =>
      simp only [WorkRegion.stepIn, hat]
      exact h.free hi rfl rfl (by rw [hat]; rfl) (h.after i hi q hat)
  | fetch chunk =>
      simp only [WorkRegion.stepIn, hat]
      exact h.keep hi rfl rfl (by rw [hat]; rfl) nofun
  | fetched v chunk =>
      simp only [WorkRegion.stepIn, hat]
      split <;> exact h.keep hi rfl rfl (by rw [hat]; rfl) nofun
  | body lo hi' =>
      simp only [WorkRegion.stepIn, hat]
      have hlocked := afterBody_locked c
      refine h.keep hi rfl rfl (by rw [hat, hlocked]; rfl) ?_
      intro q' hq'
      rw [hq'] at hlocked
      cases hlocked
  | loopNext =>
      simp only [WorkRegion.stepIn, hat]
      exact h.keep hi rfl rfl (by rw [hat]; rfl) nofun
  | sectionsLocked =>
      simp only [WorkRegion.stepIn, hat]
      split
      · refine h.keep hi rfl rfl (by rw [hat]; rfl) ?_
        rintro _ ⟨⟩
        rfl
      · exact h.keep hi rfl rfl (by rw [hat]; rfl) nofun
  | barrier => exact absurd rfl hbarrier

end Locks

/-! ## Loops -/

/-- A thread that has found no chunk left. -/
def LoopArgs.failed (a : LoopArgs) : WorkPc → Bool
  | .fetched v _ => decide (a.end_ ≤ v)
  | .barrier => true
  | _ => false

inductive LoopPc (a : LoopArgs) : WorkPc → Prop
  | start : LoopPc a .start
  | enter : LoopPc a .enter
  | started (ret : Bool) : LoopPc a (.started ret)
  | unlock : LoopPc a (.unlock (.fetch a.chunk))
  | fetch : LoopPc a (.fetch a.chunk)
  | fetched (v : Int) (hv : v < a.end_ → a.start ≤ v) : LoopPc a (.fetched v a.chunk)
  | body (lo hi : Int) : LoopPc a (.body lo hi)
  | loopNext : LoopPc a .loopNext
  | barrier : LoopPc a .barrier

/-- The counter has been fetched `g` times. -/
structure LoopCount (n : Nat) (a : LoopArgs) (s : WorkState) (g : Nat) : Prop where
  next : s.works.next = i32 (a.counter g)
  bound : g ≤ a.numChunks + tally a.failed s.pc n
  given : ∀ x, (Construct.loop a).given n s x
    = if (Construct.loop a).Has x ∧ x < a.counter g then 1 else 0
  failed : ∀ i < n, a.failed (s.pc i) = true → a.end_ ≤ a.counter g

structure LoopRunning (n : Nat) (a : LoopArgs) (s : WorkState) : Prop where
  checkfirst : s.works.checkfirst = wsInited
  end_ : s.works.end_ = a.end_
  incr : s.works.incr = a.incr
  chunkSize : s.works.chunkSize = a.chunkSize
  pcs : ∀ i < n, LoopPc a (s.pc i)
  count : ∃ g, LoopCount n a s g

section Loop

variable {n i g : Nat} {a : LoopArgs} {s s' : WorkState} {q : WorkPc}

theorem LoopArgs.Fits.chunk_eq (h : a.Fits n) : a.chunk = a.chunkSize * a.incr :=
  i32_eq (by have := Int.mul_pos h.chunkSize h.incr; omega) h.chunk

theorem LoopArgs.Fits.chunk_pos (h : a.Fits n) : 0 < a.chunk := by
  rw [h.chunk_eq]
  exact Int.mul_pos h.chunkSize h.incr

theorem LoopArgs.Fits.counter_lt (h : a.Fits n) : a.counter g < a.end_ ↔ g < a.numChunks := by
  rw [LoopArgs.numChunks, LoopArgs.counter, Int.lt_toNat, ← Int.add_one_le_iff (a := (g : Int)),
    Int.le_ediv_iff_mul_le h.chunk_pos, Int.add_mul, Int.one_mul]
  omega

theorem LoopArgs.counter_succ : a.counter (g + 1) = a.counter g + a.chunk := by
  rw [LoopArgs.counter, LoopArgs.counter]
  push_cast
  ring

/-- What a step of a loop keeps in any case: only the counter and the lock move. -/
theorem LoopRunning.keep (h : LoopRunning n a s) (hpc : s'.pc = Function.update s.pc i q)
    (hworks : { s'.works with lock := false, next := 0 }
      = { s.works with lock := false, next := 0 })
    (hq : LoopPc a q) (hcount : ∃ g, LoopCount n a s' g) : LoopRunning n a s' where
  checkfirst := (congrArg Works.checkfirst hworks).trans h.checkfirst
  end_ := (congrArg Works.end_ hworks).trans h.end_
  incr := (congrArg Works.incr hworks).trans h.incr
  chunkSize := (congrArg Works.chunkSize hworks).trans h.chunkSize
  pcs := by
    intro j hj
    rcases pc_after hpc j with ⟨-, hjq⟩ | ⟨-, hjs⟩
    · rw [hjq]
      exact hq
    · rw [hjs]
      exact h.pcs j hj
  count := hcount

/-- A step that fetches nothing. -/
theorem LoopCount.keep (h : LoopCount n a s g) (hi : i < n)
    (hpc : s'.pc = Function.update s.pc i q) (hnext : s'.works.next = s.works.next)
    (hgiven : ∀ x, (Construct.loop a).given n s' x = (Construct.loop a).given n s x)
    (hfailed : a.failed q = a.failed (s.pc i)) : LoopCount n a s' g where
  next := hnext.trans h.next
  bound := by
    rw [hpc, tally_update_eq hi hfailed]
    exact h.bound
  given x := (hgiven x).trans (h.given x)
  failed := by
    intro j hj hfail
    rcases pc_after hpc j with ⟨rfl, hjq⟩ | ⟨-, hjs⟩
    · rw [hjq, hfailed] at hfail
      exact h.failed j hj hfail
    · rw [hjs] at hfail
      exact h.failed j hj hfail

/-- A step that hands nothing out. -/
theorem LoopRunning.move (h : LoopRunning n a s) (hi : i < n)
    (hpc : s'.pc = Function.update s.pc i q) (hran : s'.log.ran = s.log.ran)
    (hworks : { s'.works with lock := false } = { s.works with lock := false })
    (hq : LoopPc a q)
    (hshare : (Construct.loop a).share q = (Construct.loop a).share (s.pc i))
    (hfailed : a.failed q = a.failed (s.pc i)) : LoopRunning n a s' := by
  obtain ⟨g, hg⟩ := h.count
  have hnext := congrArg Works.next hworks
  refine h.keep hpc (congrArg (fun w : Works => { w with next := 0 }) hworks) hq ⟨g, ?_⟩
  exact hg.keep hi hpc hnext (fun x => Construct.given_move hi hpc hran hshare) hfailed

theorem LoopArgs.Fits.counter_range (h : a.Fits n) (hg : g < a.numChunks) :
    i32 (a.counter g) = a.counter g ∧ a.start ≤ a.counter g := by
  have hlt := h.counter_lt.mpr hg
  have hle : a.start ≤ a.counter g :=
    Int.le_add_of_nonneg_right (Int.mul_nonneg (by omega) (Int.le_of_lt h.chunk_pos))
  exact ⟨i32_eq (Int.le_trans h.start.1 hle) (Int.lt_trans hlt h.end_.2), hle⟩

/-- The chunk handed out by fetch `g` is what the counter passes. -/
theorem LoopArgs.Fits.iterates_chunk (h : a.Fits n) (x : Int) :
    (Construct.loop a).Iterates (a.counter g) (min (a.counter g + a.chunk) a.end_) x
      ↔ (Construct.loop a).Has x ∧ a.counter g ≤ x ∧ x < a.counter (g + 1) := by
  have hstride : (Construct.loop a).stride ∣ a.counter g - a.start :=
    ⟨g * a.chunkSize, by rw [LoopArgs.counter, h.chunk_eq]; show _ = a.incr * _; ring⟩
  have hdvd : (Construct.loop a).stride ∣ x - a.counter g
      ↔ (Construct.loop a).stride ∣ x - a.start := by
    rw [← Int.dvd_add_left hstride (b := x - a.counter g)]
    ring_nf
  have hle : a.start ≤ a.counter g :=
    Int.le_add_of_nonneg_right (Int.mul_nonneg (by omega) (Int.le_of_lt h.chunk_pos))
  have hpos : 0 < (Construct.loop a).stride := h.incr
  rw [Construct.Has, Construct.Iterates, Construct.Iterates, if_pos hpos, if_pos hpos, hdvd,
    LoopArgs.counter_succ, Int.lt_min]
  show _ ↔ (_ ∧ a.start ≤ x ∧ x < a.end_) ∧ _
  constructor
  · rintro ⟨hd, hlo, hhi, hend⟩
    exact ⟨⟨hd, by omega, hend⟩, hlo, hhi⟩
  · rintro ⟨⟨hd, -, hend⟩, hlo, hhi⟩
    exact ⟨hd, hlo, hhi, hend⟩

/-- A fetch before the last chunk hands the next one out. -/
theorem LoopCount.hand (h : LoopCount n a s g) (hfit : a.Fits n) (hi : i < n)
    (hg : g < a.numChunks) (hpc : s'.pc = Function.update s.pc i (.fetched (a.counter g) a.chunk))
    (hran : s'.log.ran = s.log.ran) (hnext : s'.works.next = i32 (a.counter (g + 1)))
    (hnone : (Construct.loop a).share (s.pc i) = none) : LoopCount n a s' (g + 1) where
  next := hnext
  bound := Nat.le_trans hg (Nat.le_add_right _ _)
  given := by
    intro x
    have hlt := hfit.counter_lt.mpr hg
    have hsome : (Construct.loop a).share (.fetched (a.counter g) a.chunk)
        = some (a.counter g, min (a.counter g + a.chunk) a.end_) := if_pos hlt
    rw [Construct.given_hand hi hpc hran hnone hsome, h.given, if_congr (hfit.iterates_chunk x)
      rfl rfl]
    have hpos := hfit.chunk_pos
    have hsucc := a.counter_succ (g := g)
    by_cases hhas : (Construct.loop a).Has x
    · simp only [hhas, true_and]
      split <;> split <;> split <;> omega
    · simp only [hhas, false_and, if_false]
  failed := by
    intro j hj hfail
    have hlt := hfit.counter_lt.mpr hg
    rcases pc_after hpc j with ⟨-, hjq⟩ | ⟨-, hjs⟩
    · rw [hjq] at hfail
      have := of_decide_eq_true hfail
      omega
    · rw [hjs] at hfail
      have := h.failed j hj hfail
      omega

/-- A fetch behind the last chunk hands nothing out. -/
theorem LoopCount.pass (h : LoopCount n a s g) (hfit : a.Fits n) (hi : i < n)
    (hg : a.numChunks ≤ g)
    (hpc : s'.pc = Function.update s.pc i (.fetched (i32 (a.counter g)) a.chunk))
    (hran : s'.log.ran = s.log.ran) (hnext : s'.works.next = i32 (a.counter (g + 1)))
    (hnone : (Construct.loop a).share (s.pc i) = none) (hfailed : a.failed (s.pc i) = false) :
    LoopCount n a s' (g + 1) := by
  have hupd := tally_update a.failed s.pc (.fetched (i32 (a.counter g)) a.chunk) hi
  have hlt := tally_lt (p := a.failed) (f := s.pc) hi hfailed
  have hbound := h.bound
  have hend : a.end_ ≤ i32 (a.counter g) := hfit.wraps g (by omega) hg
  have hnew : a.failed (.fetched (i32 (a.counter g)) a.chunk) = true := decide_eq_true hend
  have hcounter : a.end_ ≤ a.counter g := by
    have := hfit.counter_lt (g := g)
    omega
  have hpos := hfit.chunk_pos
  have hsucc := a.counter_succ (g := g)
  rw [hnew, hfailed, ← hpc] at hupd
  refine ⟨hnext, ?_, fun x => ?_, fun j hj hfail => by omega⟩
  · rw [Bool.toNat_true, Bool.toNat_false] at hupd
    omega
  · have hshare : (Construct.loop a).share (.fetched (i32 (a.counter g)) a.chunk)
        = (Construct.loop a).share (s.pc i) := by
      rw [hnone]
      exact if_neg (by omega)
    rw [Construct.given_move hi hpc hran hshare, h.given]
    by_cases hhas : (Construct.loop a).Has x
    · have hx : x < a.end_ := by
        have := hhas.2
        rw [if_pos (show 0 < (Construct.loop a).stride from hfit.incr)] at this
        exact this.2
      rw [if_pos ⟨hhas, by omega⟩, if_pos ⟨hhas, by omega⟩]
    · simp only [hhas, false_and, if_false]

theorem LoopRunning.fetch (h : LoopRunning n a s) (hfit : a.Fits n) (hi : i < n)
    (hat : s.pc i = .fetch a.chunk)
    (hpc : s'.pc = Function.update s.pc i (.fetched s.works.next a.chunk))
    (hran : s'.log.ran = s.log.ran)
    (hworks : s'.works = { s.works with next := i32 (s.works.next + a.chunk) }) :
    LoopRunning n a s' := by
  obtain ⟨g, hg⟩ := h.count
  have hnext : s'.works.next = i32 (a.counter (g + 1)) := by
    rw [hworks]
    show i32 (s.works.next + a.chunk) = _
    rw [hg.next, i32_add, a.counter_succ]
  have hnone : (Construct.loop a).share (s.pc i) = none := by rw [hat]; rfl
  have hfailed : a.failed (s.pc i) = false := by rw [hat]; rfl
  have hkeep : { s'.works with lock := false, next := 0 }
      = { s.works with lock := false, next := 0 } := by rw [hworks]
  by_cases hlt : g < a.numChunks
  · obtain ⟨hval, hstart⟩ := hfit.counter_range hlt
    rw [hg.next, hval] at hpc
    exact h.keep hpc hkeep (.fetched _ fun _ => hstart)
      ⟨g + 1, hg.hand hfit hi hlt hpc hran hnext hnone⟩
  · rw [hg.next] at hpc
    have hend := hfit.wraps g
      (by have := tally_lt (p := a.failed) (f := s.pc) hi hfailed; have := hg.bound; omega)
      (by omega)
    exact h.keep hpc hkeep (.fetched _ fun hv => by omega)
      ⟨g + 1, hg.pass hfit hi (by omega) hpc hran hnext hnone hfailed⟩

/-- The end of the chunk fetched at `v`, as the code computes it. -/
theorem LoopArgs.Fits.chunk_end (h : a.Fits n) {v : Int} (hv : v < a.end_) (hstart : a.start ≤ v) :
    (if a.chunk > i32 (a.end_ - v) then a.end_ else i32 (v + a.chunk))
      = min (v + a.chunk) a.end_ := by
  have hleft : i32 (a.end_ - v) = a.end_ - v := i32_eq (by omega) (by have := h.left; omega)
  have hpos := h.chunk_pos
  have hlo := h.start.1
  have hhi := h.end_.2
  rw [hleft]
  split
  · omega
  · rw [i32_eq (by omega) (by omega)]
    omega

variable {r : WorkRegion}

theorem LoopRunning.step (h : LoopRunning r.nthreads a s) (hfit : a.Fits r.nthreads)
    (hi : i < r.nthreads) (hbarrier : s.pc i ≠ .barrier) :
    LoopRunning r.nthreads a (r.stepIn (.loop a) s i) := by
  have hleg := h.pcs i hi
  generalize hat : s.pc i = pc at hleg hbarrier
  cases hleg with
  | start =>
      simp only [WorkRegion.stepIn, hat]
      split
      · exact h
      · exact h.move hi rfl rfl rfl .enter (by rw [hat]; rfl) (by rw [hat]; rfl)
  | enter =>
      simp only [WorkRegion.stepIn, hat, h.checkfirst, ne_eq, not_true_eq_false, if_false]
      exact h.move hi rfl rfl rfl (.started false) (by rw [hat]; rfl) (by rw [hat]; rfl)
  | started ret =>
      simp only [WorkRegion.stepIn, hat]
      exact h.move hi rfl rfl rfl .unlock (by rw [hat]; cases ret <;> rfl) (by rw [hat]; rfl)
  | unlock =>
      simp only [WorkRegion.stepIn, hat]
      exact h.move hi rfl rfl rfl .fetch (by rw [hat]; rfl) (by rw [hat]; rfl)
  | fetch =>
      simp only [WorkRegion.stepIn, hat]
      exact h.fetch hfit hi hat rfl rfl rfl
  | fetched v hv =>
      simp only [WorkRegion.stepIn, hat, h.end_]
      split
      · rename_i hge
        refine h.move hi rfl rfl rfl .barrier ?_ ?_
        · rw [hat]
          exact (if_neg (by omega)).symm
        · rw [hat]
          exact (decide_eq_true hge).symm
      · rename_i hge
        have hlt : v < a.end_ := by omega
        rw [hfit.chunk_end hlt (hv hlt)]
        refine h.move hi rfl rfl rfl (.body _ _) ?_ ?_
        · rw [hat]
          exact (if_pos hlt).symm
        · rw [hat]
          exact (decide_eq_false hge).symm
  | body lo hi' =>
      simp only [WorkRegion.stepIn, hat]
      obtain ⟨g, hg⟩ := h.count
      refine h.keep rfl rfl .loopNext ⟨g, hg.keep hi rfl rfl (fun x => ?_) (by rw [hat]; rfl)⟩
      exact Construct.given_run hi hat rfl rfl rfl
  | loopNext =>
      simp only [WorkRegion.stepIn, hat, h.chunkSize, h.incr]
      exact h.move hi rfl rfl rfl .fetch (by rw [hat]; rfl) (by rw [hat]; rfl)
  | barrier => exact absurd rfl hbarrier

end Loop

/-! ## Sections -/

inductive SectionsPc (next end_ : Int) : WorkPc → Prop
  | start : SectionsPc next end_ .start
  | enter : SectionsPc next end_ .enter
  | started (ret : Bool) : SectionsPc next end_ (.started ret)
  | storeNext (h : next < end_) : SectionsPc next end_ (.storeNext next (next + 1))
  | unlock (v : Int) : SectionsPc next end_ (.unlock (.body v (v + 1)))
  | unlockEnd (h : next = end_) : SectionsPc next end_ (.unlock .barrier)
  | body (lo hi : Int) : SectionsPc next end_ (.body lo hi)
  | sectionsNext : SectionsPc next end_ .sectionsNext
  | sectionsLocked : SectionsPc next end_ .sectionsLocked
  | barrier (h : next = end_) : SectionsPc next end_ .barrier

structure SectionsRunning (n : Nat) (count : Int) (s : WorkState) : Prop where
  checkfirst : s.works.checkfirst = wsInited
  end_ : s.works.end_ = count + 1
  incr : s.works.incr = 1
  chunkSize : s.works.chunkSize = 1
  next_pos : 1 ≤ s.works.next
  next_le : s.works.next ≤ count + 1
  pcs : ∀ i < n, SectionsPc s.works.next (count + 1) (s.pc i)
  given : ∀ x, (Construct.sections count).given n s x = if 1 ≤ x ∧ x < s.works.next then 1 else 0

section Sections

variable {n i : Nat} {count : Int} {s s' : WorkState} {q : WorkPc} {r : WorkRegion}

theorem SectionsRunning.keep (h : SectionsRunning n count s)
    (hpc : s'.pc = Function.update s.pc i q)
    (hworks : { s'.works with lock := false } = { s.works with lock := false })
    (hq : SectionsPc s.works.next (count + 1) q)
    (hgiven : ∀ x,
      (Construct.sections count).given n s' x = (Construct.sections count).given n s x) :
    SectionsRunning n count s' := by
  have hnext : s'.works.next = s.works.next := by
    have := congrArg Works.next hworks
    exact this
  refine ⟨(congrArg Works.checkfirst hworks).trans h.checkfirst,
    (congrArg Works.end_ hworks).trans h.end_, (congrArg Works.incr hworks).trans h.incr,
    (congrArg Works.chunkSize hworks).trans h.chunkSize, ?_, ?_, fun j hj => ?_, fun x => ?_⟩
  · rw [hnext]
    exact h.next_pos
  · rw [hnext]
    exact h.next_le
  · rw [hnext]
    rcases pc_after hpc j with ⟨-, hjq⟩ | ⟨-, hjs⟩
    · rw [hjq]
      exact hq
    · rw [hjs]
      exact h.pcs j hj
  · rw [hgiven, h.given, hnext]

theorem SectionsRunning.move (h : SectionsRunning n count s) (hi : i < n)
    (hpc : s'.pc = Function.update s.pc i q) (hran : s'.log.ran = s.log.ran)
    (hworks : { s'.works with lock := false } = { s.works with lock := false })
    (hq : SectionsPc s.works.next (count + 1) q)
    (hshare : (Construct.sections count).share q = (Construct.sections count).share (s.pc i)) :
    SectionsRunning n count s' :=
  h.keep hpc hworks hq fun _ => Construct.given_move hi hpc hran hshare

theorem sections_iterates (v x : Int) :
    (Construct.sections count).Iterates v (v + 1) x ↔ x = v := by
  have hpos : 0 < (Construct.sections count).stride := Int.one_pos
  rw [Construct.Iterates, if_pos hpos]
  constructor
  · rintro ⟨-, hlo, hhi⟩
    omega
  · rintro rfl
    exact ⟨⟨0, by omega⟩, by omega, by omega⟩

theorem sections_has (x : Int) : (Construct.sections count).Has x ↔ 1 ≤ x ∧ x < count + 1 := by
  constructor
  · exact fun h => h.2
  · exact fun h => ⟨⟨x - 1, (Int.one_mul _).symm⟩, h⟩

/-- The counter passes one section, which goes to the thread that holds the lock. -/
theorem SectionsRunning.hand (h : SectionsRunning n count s) (hlocks : Locks n s) (hi : i < n)
    (hat : s.pc i = .storeNext s.works.next (s.works.next + 1)) (hlt : s.works.next < count + 1)
    (hpc : s'.pc = Function.update s.pc i (.unlock (.body s.works.next (s.works.next + 1))))
    (hran : s'.log.ran = s.log.ran)
    (hworks : s'.works = { s.works with next := s.works.next + 1 }) :
    SectionsRunning n count s' := by
  have hpos := h.next_pos
  have hlocked : (s.pc i).locked = true := by rw [hat]; rfl
  refine ⟨by rw [hworks]; exact h.checkfirst, by rw [hworks]; exact h.end_,
    by rw [hworks]; exact h.incr, by rw [hworks]; exact h.chunkSize,
    by rw [hworks]; show 1 ≤ s.works.next + 1; omega,
    by rw [hworks]; show s.works.next + 1 ≤ count + 1; omega, fun j hj => ?_, fun x => ?_⟩
  · rcases pc_after hpc j with ⟨-, hjq⟩ | ⟨hji, hjs⟩
    · rw [hjq]
      exact .unlock _
    · have hleg := h.pcs j hj
      rw [hjs]
      generalize hatj : s.pc j = pc at hleg
      -- another thread is not about to store, and has not found the sections used up
      cases hleg with
      | start => exact .start
      | enter => exact .enter
      | started ret => exact .started ret
      | storeNext _ => exact absurd (hlocks.one j hj i hi (by rw [hatj]; rfl) hlocked) hji
      | unlock v => exact .unlock v
      | unlockEnd hend => omega
      | body lo hi' => exact .body lo hi'
      | sectionsNext => exact .sectionsNext
      | sectionsLocked => exact .sectionsLocked
      | barrier hend => omega
  · rw [Construct.given_hand hi hpc hran (by rw [hat]; rfl) rfl, h.given,
      if_congr (sections_iterates _ _) rfl rfl, hworks]
    show _ = if 1 ≤ x ∧ x < s.works.next + 1 then 1 else 0
    split <;> split <;> split <;> omega

theorem SectionsRunning.step (h : SectionsRunning r.nthreads count s)
    (hfit : (Construct.sections count).Fits r.nthreads) (hlocks : Locks r.nthreads s)
    (hi : i < r.nthreads) (hbarrier : s.pc i ≠ .barrier) :
    SectionsRunning r.nthreads count (r.stepIn (.sections count) s i) := by
  obtain ⟨-, hcount⟩ := hfit
  have hpos := h.next_pos
  have hle := h.next_le
  have hleg := h.pcs i hi
  generalize hat : s.pc i = pc at hleg hbarrier
  cases hleg with
  | start =>
      simp only [WorkRegion.stepIn, hat]
      split
      · exact h
      · exact h.move hi rfl rfl rfl .enter (by rw [hat]; rfl)
  | enter =>
      simp only [WorkRegion.stepIn, hat, h.checkfirst, ne_eq, not_true_eq_false, if_false]
      exact h.move hi rfl rfl rfl (.started false) (by rw [hat]; rfl)
  | started ret =>
      simp only [WorkRegion.stepIn, hat]
      split
      · rename_i hne
        rw [h.end_] at hne
        rw [i32_eq (by omega) (by omega)]
        exact h.move hi rfl rfl rfl (.storeNext (by omega)) (by rw [hat]; cases ret <;> rfl)
      · rename_i heq
        rw [h.end_] at heq
        exact h.move hi rfl rfl rfl (.unlockEnd (by omega)) (by rw [hat]; cases ret <;> rfl)
  | storeNext hlt =>
      simp only [WorkRegion.stepIn, hat, WorkRegion.sectionPc]
      rw [if_neg (by omega)]
      exact h.hand hlocks hi hat hlt rfl rfl rfl
  | unlock v =>
      simp only [WorkRegion.stepIn, hat]
      exact h.move hi rfl rfl rfl (.body v (v + 1)) (by rw [hat]; rfl)
  | unlockEnd hend =>
      simp only [WorkRegion.stepIn, hat]
      exact h.move hi rfl rfl rfl (.barrier hend) (by rw [hat]; rfl)
  | body lo hi' =>
      simp only [WorkRegion.stepIn, hat]
      exact h.keep rfl rfl .sectionsNext fun _ => Construct.given_run hi hat rfl rfl rfl
  | sectionsNext =>
      simp only [WorkRegion.stepIn, hat]
      split
      · exact h
      · exact h.move hi rfl rfl rfl .sectionsLocked (by rw [hat]; rfl)
  | sectionsLocked =>
      simp only [WorkRegion.stepIn, hat, h.end_, h.chunkSize, h.incr]
      split
      · rename_i hend
        exact h.move hi rfl rfl rfl (.unlockEnd hend) (by rw [hat]; rfl)
      · rename_i hne
        have hleft : i32 (count + 1 - s.works.next) = count + 1 - s.works.next :=
          i32_eq (by omega) (by omega)
        rw [show i32 (1 * 1) = 1 from rfl, hleft, if_neg (by omega),
          i32_eq (by omega) (by omega)]
        exact h.move hi rfl rfl rfl (.storeNext (by omega)) (by rw [hat]; rfl)
  | barrier _ => exact absurd rfl hbarrier

end Sections

/-! ## Singles -/

/-- The thread has been counted in `completed`. -/
def WorkPc.counted : WorkPc → Bool
  | .added _ | .reset _ | .unlock _ | .body _ _ | .barrier => true
  | _ => false

inductive SinglePc (n completed : Nat) : WorkPc → Prop
  | start : SinglePc n completed .start
  | enter : SinglePc n completed .enter
  | started (ret : Bool) : SinglePc n completed (.started ret)
  | added (ret : Bool) : SinglePc n completed (.added ret)
  | reset (ret : Bool) (h : completed = n) : SinglePc n completed (.reset ret)
  | unlock (ret : Bool) : SinglePc n completed (.unlock (WorkRegion.singlePc ret))
  | body (lo hi : Int) : SinglePc n completed (.body lo hi)
  | barrier : SinglePc n completed .barrier

/-- The last thread counted clears `checkfirst`, before it leaves the construct. -/
structure SingleRunning (n : Nat) (s : WorkState) : Prop where
  completed : s.works.completed = tally WorkPc.counted s.pc n
  pcs : ∀ i < n, SinglePc n s.works.completed (s.pc i)
  checkfirst : s.works.completed < n → s.works.checkfirst = wsInited
  last : s.works.completed = n → s.works.checkfirst ≠ wsInited
    ∨ ∃ i < n, ∃ ret, s.pc i = .added ret ∨ s.pc i = .reset ret
  given : ∀ x, Construct.single.given n s x = if Construct.single.Has x then 1 else 0

section Single

variable {n i : Nat} {s s' : WorkState} {q : WorkPc} {r : WorkRegion}

/-- A step of a thread that is not, or no longer, about to clear `checkfirst`. -/
theorem SingleRunning.keep (h : SingleRunning n s) (hi : i < n)
    (hpc : s'.pc = Function.update s.pc i q)
    (hworks : { s'.works with lock := false } = { s.works with lock := false })
    (hq : SinglePc n s.works.completed q) (hcounted : q.counted = (s.pc i).counted)
    (hlast : s.works.completed = n → s.works.checkfirst ≠ wsInited ∨
      (∀ ret, s.pc i ≠ .added ret ∧ s.pc i ≠ .reset ret) ∨ ∃ ret, q = .reset ret)
    (hgiven : ∀ x, Construct.single.given n s' x = Construct.single.given n s x) :
    SingleRunning n s' := by
  have hcompleted : s'.works.completed = s.works.completed := by
    have := congrArg Works.completed hworks
    exact this
  have hcheck : s'.works.checkfirst = s.works.checkfirst := by
    have := congrArg Works.checkfirst hworks
    exact this
  refine ⟨?_, fun j hj => ?_, ?_, ?_, fun x => (hgiven x).trans (h.given x)⟩
  · rw [hcompleted, hpc, tally_update_eq hi hcounted]
    exact h.completed
  · rw [hcompleted]
    rcases pc_after hpc j with ⟨-, hjq⟩ | ⟨-, hjs⟩
    · rw [hjq]
      exact hq
    · rw [hjs]
      exact h.pcs j hj
  · rw [hcompleted, hcheck]
    exact h.checkfirst
  · rw [hcompleted, hcheck]
    intro hn
    rcases hlast hn with hclear | hother | ⟨ret, hret⟩
    · exact .inl hclear
    · rcases h.last hn with hclear | ⟨j, hj, ret, hat⟩
      · exact .inl hclear
      · have hji : j ≠ i := by
          rintro rfl
          rcases hat with hat | hat
          · exact (hother ret).1 hat
          · exact (hother ret).2 hat
        refine .inr ⟨j, hj, ret, ?_⟩
        rw [hpc, Function.update_of_ne hji]
        exact hat
    · refine .inr ⟨i, hi, ret, .inr ?_⟩
      rw [hpc, Function.update_self, hret]

theorem single_share (ret : Bool) :
    Construct.single.share (.unlock (WorkRegion.singlePc ret))
      = Construct.single.share (.added ret) := by
  cases ret <;> rfl

theorem SingleRunning.add (h : SingleRunning n s) (hlocks : Locks n s) (hn : n < 2 ^ 32)
    (hi : i < n) {ret : Bool} (hat : s.pc i = .started ret)
    (hpc : s'.pc = Function.update s.pc i (.added ret)) (hran : s'.log.ran = s.log.ran)
    (hworks : s'.works = { s.works with completed := u32 (s.works.completed + 1) }) :
    SingleRunning n s' := by
  have hlt := tally_lt (p := WorkPc.counted) (f := s.pc) hi (by rw [hat]; rfl)
  have hupd := tally_update WorkPc.counted s.pc (.added ret) hi
  have hcompleted : s'.works.completed = s.works.completed + 1 := by
    rw [hworks]
    exact u32_eq (by rw [h.completed]; omega)
  rw [hat, ← hpc] at hupd
  refine ⟨?_, fun j hj => ?_, fun _ => ?_, fun _ => .inr ⟨i, hi, ret, .inl ?_⟩, fun x => ?_⟩
  · rw [hcompleted, h.completed]
    exact hupd.symm
  · rcases pc_after hpc j with ⟨-, hjq⟩ | ⟨hji, hjs⟩
    · rw [hjq]
      exact .added ret
    · have hleg := h.pcs j hj
      rw [hjs]
      generalize hatj : s.pc j = pc at hleg
      cases hleg with
      | start => exact .start
      | enter => exact .enter
      | started ret => exact .started ret
      | added ret => exact .added ret
      | reset _ _ => exact absurd (hlocks.one j hj i hi (by rw [hatj]; rfl) (by rw [hat]; rfl)) hji
      | unlock ret => exact .unlock ret
      | body lo hi' => exact .body lo hi'
      | barrier => exact .barrier
  · rw [hworks]
    exact h.checkfirst (by rw [h.completed]; exact hlt)
  · rw [hpc, Function.update_self]
  · rw [Construct.given_move hi hpc hran (by rw [hat]; cases ret <;> rfl)]
    exact h.given x

theorem SingleRunning.clear (h : SingleRunning n s) (hi : i < n) {ret : Bool}
    (hat : s.pc i = .reset ret)
    (hpc : s'.pc = Function.update s.pc i (.unlock (WorkRegion.singlePc ret)))
    (hran : s'.log.ran = s.log.ran)
    (hworks : s'.works = { s.works with checkfirst := wsNotInited })
    (hdone : s.works.completed = n) : SingleRunning n s' := by
  have hcompleted : s'.works.completed = s.works.completed := by rw [hworks]
  refine ⟨?_, fun j hj => ?_, fun hlt => by omega, fun _ => .inl ?_, fun x => ?_⟩
  · rw [hcompleted, hpc, tally_update_eq hi (by rw [hat]; rfl)]
    exact h.completed
  · rw [hcompleted]
    rcases pc_after hpc j with ⟨-, hjq⟩ | ⟨-, hjs⟩
    · rw [hjq]
      exact .unlock ret
    · rw [hjs]
      exact h.pcs j hj
  · rw [hworks]
    exact nofun
  · rw [Construct.given_move hi hpc hran (by rw [hat, single_share]; cases ret <;> rfl)]
    exact h.given x

theorem SingleRunning.step (h : SingleRunning r.nthreads s) (hlocks : Locks r.nthreads s)
    (hn : r.nthreads < 2 ^ 32) (hi : i < r.nthreads) (hbarrier : s.pc i ≠ .barrier) :
    SingleRunning r.nthreads (r.stepIn .single s i) := by
  have hleg := h.pcs i hi
  generalize hat : s.pc i = pc at hleg hbarrier
  cases hleg with
  | start =>
      simp only [WorkRegion.stepIn, hat]
      split
      · exact h
      · exact h.keep hi rfl rfl .enter (by rw [hat]; rfl)
          (fun _ => .inr (.inl fun _ => by rw [hat]; exact ⟨nofun, nofun⟩))
          fun _ => Construct.given_move hi rfl rfl (by rw [hat]; rfl)
  | enter =>
      have hlt := tally_lt (p := WorkPc.counted) (f := s.pc) hi (by rw [hat]; rfl)
      have hcheck := h.checkfirst (by rw [h.completed]; exact hlt)
      simp only [WorkRegion.stepIn, hat, hcheck, ne_eq, not_true_eq_false, if_false]
      exact h.keep hi rfl rfl (.started false) (by rw [hat]; rfl)
        (fun _ => .inr (.inl fun _ => by rw [hat]; exact ⟨nofun, nofun⟩))
        fun _ => Construct.given_move hi rfl rfl (by rw [hat]; rfl)
  | started ret =>
      simp only [WorkRegion.stepIn, hat]
      exact h.add hlocks hn hi hat rfl rfl rfl
  | added ret =>
      simp only [WorkRegion.stepIn, hat]
      split
      · rename_i hdone
        exact h.keep hi rfl rfl (.reset ret hdone) (by rw [hat]; rfl)
          (fun _ => .inr (.inr ⟨ret, rfl⟩))
          fun _ => Construct.given_move hi rfl rfl (by rw [hat]; cases ret <;> rfl)
      · rename_i hmore
        exact h.keep hi rfl rfl (.unlock ret) (by rw [hat]; rfl) (fun hdone => absurd hdone hmore)
          fun _ => Construct.given_move hi rfl rfl (by rw [hat, single_share])
  | reset ret hdone =>
      simp only [WorkRegion.stepIn, hat]
      exact h.clear hi hat rfl rfl rfl hdone
  | unlock ret =>
      simp only [WorkRegion.stepIn, hat]
      exact h.keep hi rfl rfl (by cases ret <;> constructor) (by rw [hat]; cases ret <;> rfl)
        (fun _ => .inr (.inl fun _ => by rw [hat]; exact ⟨nofun, nofun⟩))
        fun _ => Construct.given_move hi rfl rfl (by rw [hat]; rfl)
  | body lo hi' =>
      simp only [WorkRegion.stepIn, hat]
      exact h.keep hi rfl rfl .barrier (by rw [hat]; rfl)
        (fun _ => .inr (.inl fun _ => by rw [hat]; exact ⟨nofun, nofun⟩))
        fun _ => Construct.given_run hi hat rfl rfl rfl
  | barrier => exact absurd rfl hbarrier

end Single

/-! ## The stages of a construct -/

/-- The record as the first thread leaves it. -/
structure Construct.Ready (c : Construct) (w : Works) : Prop where
  checkfirst : w.checkfirst = wsInited
  completed : w.completed = 0
  initialised : c.Initialised w

/-- The first thread that entered the construct, and nobody else, has set it up. -/
def Construct.SetUp (c : Construct) (l : ConstructLog) : Prop :=
  ∃ i w, l.inits = [(i, w)] ∧ l.entered.head? = some i ∧ c.Initialised w

/-- Thread `i` has taken the lock first, and the others have not taken it yet. -/
structure Alone (n : Nat) (s : WorkState) (i : Nat) (q : WorkPc) : Prop where
  lt : i < n
  pc : s.pc i = q
  others : ∀ j < n, j ≠ i → s.pc j = .start
  log : s.log = ⟨[i], [], []⟩

def WorkRunning (n : Nat) (s : WorkState) : Construct → Prop
  | .loop a => LoopRunning n a s
  | .sections count => SectionsRunning n count s
  | .single => SingleRunning n s

inductive Stage (n : Nat) (c : Construct) (s : WorkState) : Prop
  | fresh (hpcs : ∀ j < n, s.pc j = .start) (hlog : s.log = .empty)
      (hcheck : s.works.checkfirst ≠ wsInited)
  | entering (i : Nat) (h : Alone n s i .enter) (hcheck : s.works.checkfirst ≠ wsInited)
  | initing (i : Nat) (stores : List WorkStore) (h : Alone n s i (.init stores))
      (hready : c.Ready (stores.foldl WorkStore.apply s.works))
  | running (hsetUp : c.SetUp s.log) (hrun : WorkRunning n s c)

section Stages

variable {n i : Nat} {c : Construct} {s s' : WorkState} {q q' : WorkPc} {r : WorkRegion} {x : Int}

theorem Construct.Fits.ready (h : c.Fits n) (w : Works) :
    c.Ready (c.stores.foldl WorkStore.apply w) := by
  cases c with
  | loop a => exact ⟨rfl, rfl, rfl, rfl, rfl, rfl⟩
  | sections count => exact ⟨rfl, rfl, rfl, i32_eq (by have := h.1; omega) h.2, rfl, rfl⟩
  | single => exact ⟨rfl, rfl, trivial⟩

theorem Alone.move (h : Alone n s i q) (hpc : s'.pc = Function.update s.pc i q')
    (hlog : s'.log = s.log) : Alone n s' i q' where
  lt := h.lt
  pc := by rw [hpc, Function.update_self]
  others := by
    intro j hj hji
    rw [hpc, Function.update_of_ne hji]
    exact h.others j hj hji
  log := hlog.trans h.log

/-- When the record is set up nothing is handed out, except the body of a single. -/
theorem Alone.given (h : Alone n s i (.init []))
    (hpc : s'.pc = Function.update s.pc i (.started true))
    (hran : s'.log.ran = s.log.ran) (x : Int) :
    c.given n s' x = (c.owes x (.started true)).toNat := by
  have hzero : tally (c.owes x) s.pc n = 0 := by
    refine tally_eq_zero.mpr fun j hj => ?_
    by_cases hji : j = i
    · rw [hji, h.pc]
      rfl
    · rw [h.others j hj hji]
      rfl
  have hupd := tally_update (c.owes x) s.pc (.started true) h.lt
  have hnone : c.owes x (.init []) = false := rfl
  rw [h.pc, hnone, Bool.toNat_false, hzero] at hupd
  rw [Construct.given, Construct.runs, hran, h.log, hpc]
  show 0 + _ = _
  omega

theorem Alone.running (h : Alone n s i (.init [])) (hready : c.Ready s.works)
    (hpc : s'.pc = Function.update s.pc i (.started true)) (hran : s'.log.ran = s.log.ran)
    (hworks : s'.works = s.works) (hfit : c.Fits n) : WorkRunning n s' c := by
  have hpcs : ∀ j < n, s'.pc j = .started true ∨ s'.pc j = .start := by
    intro j hj
    rcases pc_after hpc j with ⟨-, hjq⟩ | ⟨hji, hjs⟩
    · exact .inl hjq
    · exact .inr (hjs.trans (h.others j hj hji))
  have hgiven := h.given (c := c) hpc hran
  have hcheck : s'.works.checkfirst = wsInited := hworks ▸ hready.checkfirst
  rw [← hworks] at hready
  cases c with
  | loop a =>
      obtain ⟨hnext, hend, hincr, hchunk⟩ := hready.initialised
      have hstart : a.counter 0 = a.start := by
        rw [LoopArgs.counter]
        omega
      refine ⟨hcheck, hend, hincr, hchunk, fun j hj => ?_, 0, ?_, Nat.zero_le _, fun x => ?_,
        fun j hj hfailed => ?_⟩
      · rcases hpcs j hj with hat | hat <;> rw [hat] <;> constructor
      · rw [hnext, hstart, i32_eq hfit.start.1 hfit.start.2]
      · rw [hgiven, if_neg]
        · rfl
        · rintro ⟨⟨-, hhas⟩, hlt⟩
          rw [if_pos (show 0 < (Construct.loop a).stride from hfit.incr)] at hhas
          have : a.start ≤ x := hhas.1
          omega
      · rcases hpcs j hj with hat | hat <;> rw [hat] at hfailed <;> cases hfailed
  | sections count =>
      obtain ⟨hnext, hend, hincr, hchunk⟩ := hready.initialised
      refine ⟨hcheck, hend, hincr, hchunk, by omega, by have := hfit.1; omega, fun j hj => ?_,
        fun x => ?_⟩
      · rcases hpcs j hj with hat | hat <;> rw [hat] <;> constructor
      · rw [hgiven, if_neg (by omega)]
        rfl
  | single =>
      have hzero : tally WorkPc.counted s'.pc n = 0 := by
        refine tally_eq_zero.mpr fun j hj => ?_
        rcases hpcs j hj with hat | hat <;> rw [hat] <;> rfl
      have hn := h.lt
      refine ⟨hready.completed.trans hzero.symm, fun j hj => ?_, fun _ => hcheck, ?_, fun x => ?_⟩
      · rcases hpcs j hj with hat | hat <;> rw [hat] <;> constructor
      · rw [hready.completed]
        omega
      · rw [hgiven]
        show (decide (Construct.single.Has x)).toNat = _
        by_cases hhas : Construct.single.Has x
        · rw [if_pos hhas, decide_eq_true hhas]
          rfl
        · rw [if_neg hhas, decide_eq_false hhas]
          rfl

theorem WorkRunning.step (h : WorkRunning r.nthreads s c) (hfit : c.Fits r.nthreads)
    (hn : r.nthreads < 2 ^ 32) (hlocks : Locks r.nthreads s) (hi : i < r.nthreads)
    (hbarrier : s.pc i ≠ .barrier) : WorkRunning r.nthreads (r.stepIn c s i) c := by
  cases c with
  | loop a => exact LoopRunning.step h hfit hi hbarrier
  | sections count => exact SectionsRunning.step h hfit hlocks hi hbarrier
  | single => exact SingleRunning.step h hlocks hn hi hbarrier

/-- Nothing is handed out that the construct does not have, or twice. -/
theorem WorkRunning.given_le (h : WorkRunning n s c)
    : c.given n s x ≤ if c.Has x then 1 else 0 := by
  cases c with
  | loop a =>
      obtain ⟨g, hg⟩ := h.count
      rw [hg.given]
      split
      · rename_i hhas
        rw [if_pos hhas.1]
      · exact Nat.zero_le _
  | sections count =>
      have hnext := h.next_le
      rw [h.given]
      split
      · rename_i hx
        rw [if_pos ((sections_has x).mpr (by omega))]
      · exact Nat.zero_le _
  | single => exact Nat.le_of_eq (h.given x)

/-- Once a thread waits at the barrier, everything has been handed out. -/
theorem WorkRunning.given_eq (h : WorkRunning n s c) (hfit : c.Fits n) (hi : i < n)
    (hat : s.pc i = .barrier) (x : Int) : c.given n s x = if c.Has x then 1 else 0 := by
  cases c with
  | loop a =>
      obtain ⟨g, hg⟩ := h.count
      have hend := hg.failed i hi (by rw [hat]; rfl)
      rw [hg.given]
      refine if_congr ⟨And.left, fun hhas => ⟨hhas, ?_⟩⟩ rfl rfl
      have hx := hhas.2
      rw [if_pos (show 0 < (Construct.loop a).stride from hfit.incr)] at hx
      have : x < a.end_ := hx.2
      omega
  | sections count =>
      have hleg := h.pcs i hi
      rw [hat] at hleg
      rw [h.given]
      cases hleg with
      | barrier hend => rw [hend, if_congr (sections_has x) rfl rfl]
  | single => exact h.given x

theorem WorkRunning.not_init (h : WorkRunning n s c) (hi : i < n) (stores : List WorkStore) :
    s.pc i ≠ .init stores := by
  intro hat
  cases c with
  | loop a | sections count | single =>
      have hleg := h.pcs i hi
      rw [hat] at hleg
      cases hleg

/-- Behind the initialisation, a step adds at most a thread that enters. -/
theorem SetUp.step (h : c.SetUp s.log) (hinit : ∀ stores, s.pc i ≠ .init stores)
    (hbarrier : s.pc i ≠ .barrier) : c.SetUp (r.stepIn c s i).log := by
  obtain ⟨j, w, hinits, hhead, hw⟩ := h
  generalize hat : s.pc i = pc at hinit hbarrier
  cases pc with
  | start =>
      simp only [WorkRegion.stepIn, hat]
      split
      · exact ⟨j, w, hinits, hhead, hw⟩
      · exact ⟨j, w, hinits, by rw [List.head?_append, hhead]; rfl, hw⟩
  | init stores => exact absurd rfl (hinit stores)
  | started ret =>
      cases c <;> simp only [WorkRegion.stepIn, hat] <;> try split
      all_goals exact ⟨j, w, hinits, hhead, hw⟩
  | barrier => exact absurd rfl hbarrier
  | enter | added ret | fetched v chunk | sectionsNext | sectionsLocked =>
      simp only [WorkRegion.stepIn, hat]
      split <;> exact ⟨j, w, hinits, hhead, hw⟩
  | storeNext v v' | reset ret | unlock q | fetch chunk | body lo hi' | loopNext =>
      simp only [WorkRegion.stepIn, hat]
      exact ⟨j, w, hinits, hhead, hw⟩

theorem Stage.step (h : Stage r.nthreads c s) (hfit : c.Fits r.nthreads)
    (hn : r.nthreads < 2 ^ 32) (hlocks : Locks r.nthreads s) (hi : i < r.nthreads)
    (hbarrier : s.pc i ≠ .barrier) : Stage r.nthreads c (r.stepIn c s i) := by
  -- while one thread is alone, the others find the lock taken
  have hspin : ∀ {j q}, Alone r.nthreads s j q → q.locked = true → i ≠ j →
      r.stepIn c s i = s := by
    intro j q halone hq hij
    have hlock := hlocks.held j halone.lt (by rw [halone.pc]; exact hq)
    simp only [WorkRegion.stepIn, halone.others i hi hij, hlock, if_true]
  cases h with
  | fresh hpcs hlog hcheck =>
      simp only [WorkRegion.stepIn, hpcs i hi]
      split
      · exact .fresh hpcs hlog hcheck
      · refine .entering i ⟨hi, Function.update_self .., fun j hj hji => ?_, ?_⟩ hcheck
        · exact (Function.update_of_ne hji ..).trans (hpcs j hj)
        · show ConstructLog.mk (s.log.entered ++ [i]) s.log.inits s.log.ran = _
          rw [hlog]
          rfl
  | entering j halone hcheck =>
      by_cases hij : i = j
      · subst hij
        simp only [WorkRegion.stepIn, halone.pc, hcheck, ne_eq, not_false_eq_true, if_true]
        exact .initing i _ (halone.move rfl rfl) (hfit.ready _)
      · rw [hspin halone rfl hij]
        exact .entering j halone hcheck
  | initing j stores halone hready =>
      by_cases hij : i = j
      · subst hij
        cases stores with
        | nil =>
            simp only [WorkRegion.stepIn, halone.pc]
            refine .running ⟨i, s.works, ?_, ?_, hready.initialised⟩
              (halone.running hready rfl rfl rfl hfit)
            · show s.log.inits ++ [(i, s.works)] = _
              rw [halone.log]
              rfl
            · show s.log.entered.head? = _
              rw [halone.log]
              rfl
        | cons w stores =>
            simp only [WorkRegion.stepIn, halone.pc]
            exact .initing i stores (halone.move rfl rfl) hready
      · rw [hspin halone rfl hij]
        exact .initing j stores halone hready
  | running hsetUp hrun =>
      exact .running (SetUp.step hsetUp (fun stores => hrun.not_init hi stores) hbarrier)
        (hrun.step hfit hn hlocks hi hbarrier)

end Stages

/-! ## The region -/

/-- Every construct of the region but the last is a single, and the arguments of each
are such that the team can work on them. -/
structure WorkRegion.Safe (r : WorkRegion) : Prop where
  nthreads_pos : 0 < r.nthreads
  nthreads_lt : r.nthreads < 2 ^ 32
  single : ∀ c ∈ r.prog.dropLast, c = .single
  fits : ∀ c ∈ r.prog, c.Fits r.nthreads

/-- A construct that everybody has left. -/
structure Construct.Complete (c : Construct) (l : ConstructLog) : Prop where
  setUp : c.SetUp l
  runs : ∀ x, c.runs l x = if c.Has x then 1 else 0

structure RegionInv (r : WorkRegion) (s : WorkState) : Prop where
  locks : Locks r.nthreads s
  past : ∀ (k : Nat) (l : ConstructLog), s.past[k]? = some l →
    ∃ c : Construct, r.prog[k]? = some c ∧ c.Complete l
  current : ∀ c, r.prog[s.past.length]? = some c → Stage r.nthreads c s

section Region

variable {r : WorkRegion} {s : WorkState} {c : Construct} {i k n : Nat}

theorem stepIn_past (hbarrier : s.pc i ≠ .barrier) : (r.stepIn c s i).past = s.past := by
  generalize hat : s.pc i = pc at hbarrier
  cases pc with
  | init stores => cases stores <;> simp only [WorkRegion.stepIn, hat] <;> rfl
  | started ret =>
      cases c <;> simp only [WorkRegion.stepIn, hat] <;> try split
      all_goals rfl
  | barrier => exact absurd rfl hbarrier
  | start | enter | added ret | fetched v chunk | sectionsNext | sectionsLocked =>
      simp only [WorkRegion.stepIn, hat]
      split <;> rfl
  | storeNext v v' | reset ret | unlock q | fetch chunk | body lo hi' | loopNext =>
      simp only [WorkRegion.stepIn, hat]
      rfl

theorem Stage.complete (h : Stage n c s) (hfit : c.Fits n) (hn : 0 < n)
    (hall : ∀ j < n, s.pc j = .barrier) : c.Complete s.log ∧ WorkRunning n s c := by
  have hnot : ∀ {j q}, Alone n s j q → q ≠ .barrier → False := by
    intro j q halone hq
    exact hq (halone.pc.symm.trans (hall j halone.lt))
  cases h with
  | fresh hpcs _ _ =>
      have := hpcs 0 hn
      rw [hall 0 hn] at this
      cases this
  | entering j halone _ => exact (hnot halone nofun).elim
  | initing j stores halone _ => exact (hnot halone nofun).elim
  | running hsetUp hrun =>
      refine ⟨⟨hsetUp, fun x => ?_⟩, hrun⟩
      have hgiven := hrun.given_eq hfit hn (hall 0 hn) x
      have hzero : tally (c.owes x) s.pc n = 0 :=
        tally_eq_zero.mpr fun j hj => by rw [hall j hj]; rfl
      rw [Construct.given, hzero] at hgiven
      exact hgiven

/-- A single leaves `checkfirst` as the next construct needs it. -/
theorem SingleRunning.cleared (h : SingleRunning n s) (hall : ∀ j < n, s.pc j = .barrier) :
    s.works.checkfirst ≠ wsInited := by
  have hdone : s.works.completed = n :=
    h.completed.trans (tally_eq_all.mpr fun j hj => by rw [hall j hj]; rfl)
  rcases h.last hdone with hclear | ⟨j, hj, ret, hat⟩
  · exact hclear
  · rw [hall j hj] at hat
    rcases hat with hat | hat <;> cases hat

theorem mem_dropLast_of_next {c c' : Construct} (hc : r.prog[k]? = some c)
    (hc' : r.prog[k + 1]? = some c') : c ∈ r.prog.dropLast := by
  have hlt : k + 1 < r.prog.length := (List.getElem?_eq_some_iff.mp hc').1
  refine List.mem_of_getElem? (i := k) ?_
  rw [List.getElem?_dropLast, if_pos (by omega)]
  exact hc

theorem RegionInv.release (h : RegionInv r s) (hr : r.Safe) (hc : r.prog[s.past.length]? = some c)
    (hall : ∀ j < r.nthreads, s.pc j = .barrier) :
    RegionInv r { s with pc := fun _ => .start, log := .empty, past := s.past ++ [s.log] } := by
  obtain ⟨hcomplete, hrun⟩ := (h.current c hc).complete
    (hr.fits c (List.mem_of_getElem? hc)) hr.nthreads_pos hall
  refine ⟨⟨nofun, fun hlock => ?_, nofun, nofun⟩, fun k l hl => ?_, fun c' hc' => ?_⟩
  · obtain ⟨j, hj, hlocked⟩ := h.locks.taken hlock
    rw [hall j hj] at hlocked
    cases hlocked
  · by_cases hk : k < s.past.length
    · rw [List.getElem?_append_left hk] at hl
      exact h.past k l hl
    · have hlt := (List.getElem?_eq_some_iff.mp hl).1
      rw [List.length_append, List.length_singleton] at hlt
      obtain rfl : k = s.past.length := by omega
      rw [List.getElem?_concat_length] at hl
      cases hl
      exact ⟨c, hc, hcomplete⟩
  · rw [List.length_append, List.length_singleton] at hc'
    obtain rfl := hr.single c (mem_dropLast_of_next hc hc')
    have hcheck : s.works.checkfirst ≠ wsInited := SingleRunning.cleared hrun hall
    exact .fresh (fun _ _ => rfl) rfl hcheck

theorem RegionInv.step (h : RegionInv r s) (hr : r.Safe) (i : Nat) : RegionInv r (r.step s i) := by
  rw [WorkRegion.step]
  split
  · rename_i c hc
    split
    · rename_i hi
      by_cases hbarrier : s.pc i = .barrier
      · simp only [WorkRegion.stepIn, hbarrier]
        split
        · rename_i hall
          exact h.release hr hc hall
        · exact h
      · refine ⟨h.locks.step hi hbarrier, ?_, ?_⟩
        · rw [stepIn_past hbarrier]
          exact h.past
        · intro c' hc'
          rw [stepIn_past hbarrier, hc] at hc'
          cases hc'
          exact (h.current c hc).step (hr.fits c (List.mem_of_getElem? hc)) hr.nthreads_lt h.locks
            hi hbarrier
    · exact h
  · exact h

theorem regionInv_after (hr : r.Safe) (works : Works) (sched : Nat → Nat) (t : Nat) :
    RegionInv r (r.after works sched t) := by
  induction t with
  | zero =>
      refine ⟨⟨nofun, nofun, nofun, nofun⟩, fun k l hl => ?_,
        fun c _ => .fresh (fun _ _ => rfl) rfl nofun⟩
      rw [show (r.after works sched 0).past = [] from rfl, List.getElem?_nil] at hl
      cases hl
  | succ t ih => exact ih.step hr (sched t)

/-- Construct `k` was set up at most once, by the first thread that entered it and with
its own bounds, and has been when a thread is through it; nothing but its iterations is
executed and none of them twice, and all are executed when every thread is through. -/
structure Independent (n : Nat) (c : Construct) (s : WorkState) (k : Nat) : Prop where
  init : (s.logOf k).inits = [] ∨ c.SetUp (s.logOf k)
  initialised : ∀ i < n, s.Finished i k → c.SetUp (s.logOf k)
  once : ∀ x, c.runs (s.logOf k) x ≤ if c.Has x then 1 else 0
  executed : (∀ i < n, s.Finished i k) →
    ∀ x, c.runs (s.logOf k) x = if c.Has x then 1 else 0

theorem Construct.Complete.independent (h : c.Complete (s.logOf k)) : Independent n c s k :=
  ⟨.inr h.setUp, fun _ _ _ => h.setUp, fun x => Nat.le_of_eq (h.runs x), fun _ => h.runs⟩

/-- A construct nobody has finished, with nothing executed. -/
theorem independent_of_empty (hn : 0 < n) (hinits : (s.logOf k).inits = [])
    (hran : (s.logOf k).ran = []) (hnot : ∀ i < n, ¬ s.Finished i k) : Independent n c s k := by
  have hzero : ∀ x, c.runs (s.logOf k) x = 0 := by
    intro x
    rw [Construct.runs, hran]
    rfl
  refine ⟨.inl hinits, fun i hi hfin => (hnot i hi hfin).elim, fun x => ?_, fun hall => ?_⟩
  · rw [hzero]
    exact Nat.zero_le _
  · exact (hnot 0 hn (hall 0 hn)).elim

theorem logOf_current (s : WorkState) : s.logOf s.past.length = s.log := by
  rw [WorkState.logOf, List.getD_eq_getElem?_getD, List.getElem?_concat_length]
  rfl

theorem finished_current : s.Finished i s.past.length ↔ s.pc i = .barrier := by
  constructor
  · rintro (hlt | ⟨-, hat⟩)
    · omega
    · exact hat
  · exact fun hat => .inr ⟨rfl, hat⟩

theorem Stage.independent (h : Stage n c s) (hfit : c.Fits n) (hn : 0 < n) :
    Independent n c s s.past.length := by
  have halone : ∀ {j q}, Alone n s j q → q ≠ .barrier → Independent n c s s.past.length := by
    intro j q halone hq
    refine independent_of_empty hn ?_ ?_ fun i hi hfin => ?_
    · rw [logOf_current, halone.log]
    · rw [logOf_current, halone.log]
    · rw [finished_current] at hfin
      by_cases hij : i = j
      · exact hq (halone.pc.symm.trans (hij ▸ hfin))
      · rw [halone.others i hi hij] at hfin
        cases hfin
  cases h with
  | fresh hpcs hlog _ =>
      refine independent_of_empty hn ?_ ?_ fun i hi hfin => ?_
      · rw [logOf_current, hlog]
        rfl
      · rw [logOf_current, hlog]
        rfl
      · rw [finished_current, hpcs i hi] at hfin
        cases hfin
  | entering j h _ => exact halone h nofun
  | initing j stores h _ => exact halone h nofun
  | running hsetUp hrun =>
      rw [← logOf_current s] at hsetUp
      refine ⟨.inr hsetUp, fun _ _ _ => hsetUp, fun x => ?_, fun hall => ?_⟩
      · rw [logOf_current]
        exact Nat.le_trans (Nat.le_add_right _ _) hrun.given_le
      · rw [logOf_current] at hsetUp ⊢
        exact ((Stage.running hsetUp hrun).complete hfit hn
          fun j hj => finished_current.mp (hall j hj)).1.runs

theorem work_share_independent (r : WorkRegion) (hr : r.Safe) (works : Works)
    (sched : Nat → Nat) (t k : Nat) (c : Construct) (hc : r.prog[k]? = some c) :
    Independent r.nthreads c (r.after works sched t) k := by
  have hinv := regionInv_after hr works sched t
  generalize r.after works sched t = s at hinv
  rcases Nat.lt_trichotomy k s.past.length with hlt | rfl | hgt
  · obtain ⟨c', hc', hcomplete⟩ := hinv.past k _ (List.getElem?_eq_getElem hlt)
    rw [hc] at hc'
    cases hc'
    have hlog : s.logOf k = s.past[k] := by
      rw [WorkState.logOf, List.getD_eq_getElem?_getD, List.getElem?_append_left hlt,
        List.getElem?_eq_getElem hlt]
      rfl
    rw [← hlog] at hcomplete
    exact hcomplete.independent
  · exact (hinv.current c hc).independent (hr.fits c (List.mem_of_getElem? hc)) hr.nthreads_pos
  · have hlog : s.logOf k = .empty := by
      rw [WorkState.logOf, List.getD_eq_getElem?_getD, List.getElem?_eq_none]
      · rfl
      · rw [List.length_append, List.length_singleton]
        omega
    refine independent_of_empty hr.nthreads_pos (by rw [hlog]; rfl) (by rw [hlog]; rfl) ?_
    rintro i - (hlt | ⟨heq, -⟩) <;> omega

/-- A record as it may be found in memory. -/
def garbageWorks : Works := ⟨-1, 7, 3, -2, true, wsInited, 9⟩

def singleThenLoop : WorkRegion := ⟨2, [.single, .loop ⟨0, 10, 1, 4⟩]⟩

theorem singleThenLoop_safe : singleThenLoop.Safe where
  nthreads_pos := by decide
  nthreads_lt := by decide
  single := by decide
  fits := by
    intro c hc
    rcases List.mem_cons.mp hc with rfl | hc
    · trivial
    · rw [List.mem_singleton.mp hc]
      exact ⟨by decide, by decide, by decide, by decide, by decide, by decide, by decide⟩

theorem work_share_independent_singleThenLoop :
    Independent 2 (.loop ⟨0, 10, 1, 4⟩) (singleThenLoop.after garbageWorks (fun t => t % 2) 80) 1 :=
  work_share_independent singleThenLoop singleThenLoop_safe garbageWorks (fun t => t % 2) 80 1 _ rfl

/-- A single behind a dynamic loop, as in `test_omp_many`. -/
def loopThenSingle : WorkRegion := ⟨2, [.loop ⟨0, 1, 1, 1⟩, .single]⟩

/-- Both threads get through the single, and neither of them has executed it. -/
theorem work_share_loop_then_single :
    (∀ i < 2, (loopThenSingle.after garbageWorks (fun t => t % 2) 60).Finished i 1) ∧
      ((loopThenSingle.after garbageWorks (fun t => t % 2) 60).logOf 1).inits = [] ∧
      ((loopThenSingle.after garbageWorks (fun t => t % 2) 60).logOf 1).ran = [] ∧
      ¬ Independent 2 .single (loopThenSingle.after garbageWorks (fun t => t % 2) 60) 1 := by
  have hfinished : ∀ i < 2,
      (loopThenSingle.after garbageWorks (fun t => t % 2) 60).Finished i 1 := by
    decide +kernel
  have hinits : ((loopThenSingle.after garbageWorks (fun t => t % 2) 60).logOf 1).inits = [] := by
    decide +kernel
  refine ⟨hfinished, hinits, by decide +kernel, fun h => ?_⟩
  obtain ⟨i, w, hw, -⟩ := h.initialised 0 (by decide) (hfinished 0 (by decide))
  rw [hinits] at hw
  cases hw

end Region

end TeraNoC.Runtime
