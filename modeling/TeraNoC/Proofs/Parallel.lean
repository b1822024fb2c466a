import TeraNoC.Lib.Count
import TeraNoC.Runtime.Parallel

/-!
# When a parallel region runs once on each member of its team

A region of `B` barriers wakes everybody `2 B + 1` times: once when it starts, and in
each `GOMP_barrier` once when core 0 has cleared the counter and once when the last
thread has arrived. A member of the team executes just as many WFIs, so it has used up
its wake-ups when the region ends. A core outside the team uses them up in its loop,
when it gets to it; what is left over then counts for the next region, and runs its
function when the core is in that team.

So the regions are right as long as every core of a new team has come to rest before
`set_event`. The proof counts, for each member, the WFIs it has behind it: with the
wake-ups it still has they are as many as there were wake-ups of the region.
-/

namespace TeraNoC.Runtime

open TeraNoC.Lib

def TaskPc.isWfi : TaskPc → Bool
  | .wfi _ => true
  | _ => false

def TaskPc.isWakeUp : TaskPc → Bool
  | .wakeUpAll _ => true
  | _ => false

/-- The last thread of a barrier, on its way to wake the others up. -/
def TaskPc.releases : TaskPc → Bool
  | .clear _ | .wakeUpAll _ => true
  | _ => false

/-- Not in the second half of a barrier, and not about to wait. -/
def TaskPc.plain : TaskPc → Bool
  | .wfi _ | .wakeUpAll _ | .fetchAdd _ _ | .clear _ => false
  | _ => true

/-- Where member `i` of a team of `n` can be in region `k`, with `B` barriers, when it
has a number of WFIs behind it. -/
inductive MemberPc (n B k i : Nat) : Nat → TaskPc → Prop
  | wait : MemberPc n B k i 0 (.wfi .test)
  | test : MemberPc n B k i 1 .test
  | loadFn : MemberPc n B k i 1 .loadFn
  | loadData : MemberPc n B k i 1 (.loadData k)
  | body (j : Nat) (hj : j ≤ B) : MemberPc n B k i (2 * j + 1) (.body ⟨k, k, B - j⟩)
  | gompStore (hi : i = 0) (j : Nat) (hj : j < B) :
      MemberPc n B k i (2 * j + 1) (.gompStore n ⟨k, k, B - (j + 1)⟩)
  | gompWake (hi : i = 0) (j : Nat) (hj : j < B) :
      MemberPc n B k i (2 * j + 1) (.wakeUpAll (.wfi (.fetchAdd n ⟨k, k, B - (j + 1)⟩)))
  | gompWait (j : Nat) (hj : j < B) :
      MemberPc n B k i (2 * j + 1) (.wfi (.fetchAdd n ⟨k, k, B - (j + 1)⟩))
  | add (j : Nat) (hj : j < B) :
      MemberPc n B k i (2 * j + 2) (.fetchAdd n ⟨k, k, B - (j + 1)⟩)
  | clear (j : Nat) (hj : j < B) : MemberPc n B k i (2 * j + 2) (.clear ⟨k, k, B - (j + 1)⟩)
  | wake (j : Nat) (hj : j < B) :
      MemberPc n B k i (2 * j + 2) (.wakeUpAll (.wfi (.body ⟨k, k, B - (j + 1)⟩)))
  | sleep (j : Nat) (hj : j < B) :
      MemberPc n B k i (2 * j + 2) (.wfi (.body ⟨k, k, B - (j + 1)⟩))
  | dec : MemberPc n B k i (2 * B + 1) .dec
  | spin (hi : i = 0) : MemberPc n B k i (2 * B + 1) .spin
  | back (hi : i ≠ 0) : MemberPc n B k i (2 * B + 1) (.wfi .test)

/-! ## The barriers of a region -/

/-- A member between the release of barrier `j - 1` and the start of barrier `j`. -/
structure IdleAt (j i : Nat) (x : Nat × TaskPc) : Prop where
  low : 2 * j ≤ x.1
  wfi : x.1 = 2 * j → x.2.isWfi = true
  master : i = 0 → x.1 = 2 * j + 1 → x.2.isWfi = false

/-- A member while barrier `j` gathers. -/
structure GatherAt (j i : Nat) (x : Nat × TaskPc) : Prop where
  low : 2 * j ≤ x.1
  wfi : x.1 = 2 * j → x.2.isWfi = true
  master : i = 0 → 2 * j < x.1 ∧ (x.1 = 2 * j + 1 → x.2.isWfi = true)
  inside : x.1 = 2 * j + 2 → x.2.isWfi = true ∨ ∃ m f, x.2 = .fetchAdd m f

/-- A member that has been counted in barrier `j`. -/
def arrived (j : Nat) (x : Nat × TaskPc) : Bool := decide (x.1 = 2 * j + 2) && x.2.isWfi

/-- How far the team is after a number of wake-ups: for each member the WFIs behind it
and where it is, and the shared counter. -/
inductive Phase (n B : Nat) (v : Nat → Nat × TaskPc) (barrier : Nat) : Nat → Prop
  | idle (j : Nat) (hj : j ≤ B) (hat : ∀ i < n, IdleAt j i (v i))
      (hstore : (v 0).2.isWakeUp = true → barrier = 0) : Phase n B v barrier (2 * j + 1)
  | gather (j : Nat) (hj : j < B) (hat : ∀ i < n, GatherAt j i (v i))
      (hcount : barrier = tally (arrived j) v n) (hlt : barrier < n) :
      Phase n B v barrier (2 * j + 2)
  | release (j i : Nat) (hj : j < B) (hi : i < n) (hwfis : (v i).1 = 2 * j + 2)
      (hpc : (v i).2.releases = true)
      (hothers : ∀ m < n, m ≠ i → (v m).1 = 2 * j + 2 ∧ (v m).2.isWfi = true) :
      Phase n B v barrier (2 * j + 2)

section Phases

variable {n B W i barrier barrier' : Nat} {v v' : Nat → Nat × TaskPc} {x : Nat × TaskPc}
  {q : TaskPc}

theorem plain_cases {pc : TaskPc} (h : pc.plain = true) :
    pc.isWfi = false ∧ pc.releases = false := by
  cases pc with
  | wfi _ | wakeUpAll _ | fetchAdd _ _ | clear _ => cases h
  | _ => exact ⟨rfl, rfl⟩

theorem Phase.low (h : Phase n B v barrier W) (hi : i < n) : W ≤ (v i).1 + 2 := by
  cases h with
  | idle j _ hat _ => have := (hat i hi).low; omega
  | gather j _ hat _ _ => have := (hat i hi).low; omega
  | release j m _ _ hwfis _ hothers =>
      by_cases him : i = m
      · rw [him, hwfis]
        omega
      · rw [(hothers i hi him).1]
        omega

theorem Phase.high (h : Phase n B v barrier W) : W ≤ 2 * B + 1 := by
  cases h <;> omega

theorem Phase.congr (h : Phase n B v barrier W) (hn : 0 < n) (hv : ∀ i < n, v' i = v i) :
    Phase n B v' barrier W := by
  cases h with
  | idle j hj hat hstore =>
      exact .idle j hj (fun i hi => hv i hi ▸ hat i hi) (by rw [hv 0 hn]; exact hstore)
  | gather j hj hat hcount hlt =>
      exact .gather j hj (fun i hi => hv i hi ▸ hat i hi) (by rw [tally_congr hv, hcount]) hlt
  | release j m hj hm hwfis hpc hothers =>
      exact .release j m hj hm (by rw [hv m hm]; exact hwfis) (by rw [hv m hm]; exact hpc)
        fun i hi him => by rw [hv i hi]; exact hothers i hi him

/-- What holds of every member holds after one has moved. -/
theorem forall_task_update {P : Nat → Nat × TaskPc → Prop} (h : ∀ m < n, P m (v m)) (hx : P i x) :
    ∀ m < n, P m (Function.update v i x m) := by
  intro m hm
  by_cases hmi : m = i
  · rw [hmi, Function.update_self]
    exact hx
  · rw [Function.update_of_ne hmi]
    exact h m hm

/-- A WFI ends. -/
theorem Phase.wfi (h : Phase n B v barrier W) (hi : i < n) (hlt : (v i).1 < W)
    (hwfi : (v i).2.isWfi = true) (hq : q.isWfi = false) (hwake : q.isWakeUp = false)
    (hadd : ∀ j, (v i).1 = 2 * j + 1 → ∃ m f, q = .fetchAdd m f) :
    Phase n B (Function.update v i ((v i).1 + 1, q)) barrier W := by
  cases h with
  | idle j hj hat hstore =>
      have hlow := (hat i hi).low
      have hc : (v i).1 = 2 * j := by omega
      refine .idle j hj (forall_task_update hat ⟨by omega, fun h => ?_, fun _ _ => hq⟩) ?_
      · simp only at h
        omega
      · by_cases h0 : i = 0
        · subst h0
          rw [Function.update_self]
          intro h
          rw [hwake] at h
          cases h
        · rw [Function.update_of_ne (Ne.symm h0)]
          exact hstore
  | gather j hj hat hcount hlt' =>
      have hlow := (hat i hi).low
      have hmaster := (hat i hi).master
      refine .gather j hj (forall_task_update hat ⟨by simp only; omega, fun h => ?_, fun h0 => ?_,
        fun h => .inr ?_⟩) ?_ hlt'
      · simp only at h
        omega
      · have := hmaster h0
        simp only
        constructor <;> omega
      · simp only at h
        exact hadd j (by omega)
      · rw [hcount, tally_update_eq hi]
        rw [arrived, arrived, hq, Bool.and_false, hwfi, Bool.and_true]
        exact (decide_eq_false (by omega)).symm
  | release j m _ _ hwfis _ hothers =>
      by_cases him : i = m
      · rw [him, hwfis] at hlt
        omega
      · rw [(hothers i hi him).1] at hlt
        omega

/-- A step outside the barrier, and core 0 clearing the counter. -/
theorem Phase.plain (h : Phase n B v barrier W) (hi : i < n) (hle : (v i).1 ≤ W)
    (hplain : (v i).2.plain = true)
    (hmaster : i = 0 → q.isWfi = false)
    (hbarrier : barrier' = barrier ∨ i = 0 ∧ barrier' = 0)
    (hwake : i = 0 → q.isWakeUp = true → barrier' = 0) :
    Phase n B (Function.update v i ((v i).1, q)) barrier' W := by
  obtain ⟨hwfi, hreleases⟩ := plain_cases hplain
  cases h with
  | idle j hj hat hstore =>
      have hne : (v i).1 ≠ 2 * j := by
        intro hc
        rw [(hat i hi).wfi hc] at hwfi
        cases hwfi
      refine .idle j hj (forall_task_update hat ⟨(hat i hi).low, fun h => (hne h).elim,
        fun h0 _ => hmaster h0⟩) ?_
      by_cases h0 : i = 0
      · subst h0
        rw [Function.update_self]
        exact hwake rfl
      · rw [Function.update_of_ne (Ne.symm h0)]
        rcases hbarrier with rfl | ⟨h, -⟩
        · exact hstore
        · exact (h0 h).elim
  | gather j hj hat hcount hlt =>
      have hne : (v i).1 ≠ 2 * j := by
        intro hc
        rw [(hat i hi).wfi hc] at hwfi
        cases hwfi
      have hne' : (v i).1 ≠ 2 * j + 2 := by
        intro hc
        rcases (hat i hi).inside hc with h | ⟨m, f, h⟩
        · rw [h] at hwfi
          cases hwfi
        · rw [h] at hplain
          cases hplain
      have h0 : i ≠ 0 := by
        intro h0
        obtain ⟨hlow, hwfi'⟩ := (hat i hi).master h0
        rw [hwfi' (by omega)] at hwfi
        cases hwfi
      obtain rfl : barrier' = barrier := hbarrier.resolve_right fun h => h0 h.1
      refine .gather j hj (forall_task_update hat ⟨(hat i hi).low, fun h => (hne h).elim,
        fun h => (h0 h).elim, fun h => (hne' h).elim⟩) ?_ hlt
      rw [hcount, tally_update_eq hi]
      rw [arrived, arrived, decide_eq_false hne', Bool.false_and, Bool.false_and]
  | release j m hj hm hwfis hpc hothers =>
      by_cases him : i = m
      · rw [him, hpc] at hreleases
        cases hreleases
      · rw [(hothers i hi him).2] at hwfi
        cases hwfi

/-- Core 0 has cleared the counter and wakes the team up. -/
theorem Phase.open {j : Nat} (h : Phase n B v barrier W) (hn : 0 < n)
    (hle : ∀ m < n, (v m).1 ≤ W) (hj : j < B) (hc : (v 0).1 = 2 * j + 1)
    (hwake : (v 0).2.isWakeUp = true) (hq : q.isWfi = true) :
    Phase n B (Function.update v 0 ((v 0).1, q)) barrier (W + 1) := by
  have hwfi : (v 0).2.isWfi = false := by
    generalize (v 0).2 = pc at hwake
    cases pc with
    | wakeUpAll next => rfl
    | _ => cases hwake
  have hle0 := hle 0 hn
  cases h with
  | idle j' hj' hat hstore =>
      have hlow := (hat 0 hn).low
      obtain rfl : j' = j := by omega
      refine .gather j' hj (fun m hm => ?_) ?_ (by rw [hstore hwake]; exact hn)
      · by_cases hm0 : m = 0
        · subst hm0
          rw [Function.update_self]
          exact ⟨by omega, fun h => hq, fun _ => ⟨by simp only; omega, fun _ => hq⟩,
            fun _ => .inl hq⟩
        · rw [Function.update_of_ne hm0]
          have := hle m hm
          exact ⟨(hat m hm).low, (hat m hm).wfi, fun h => (hm0 h).elim, fun h => by omega⟩
      · rw [hstore hwake]
        refine (tally_eq_zero.mpr fun m hm => ?_).symm
        by_cases hm0 : m = 0
        · subst hm0
          rw [Function.update_self, arrived, decide_eq_false (by omega), Bool.false_and]
        · have := hle m hm
          rw [Function.update_of_ne hm0, arrived, decide_eq_false (by omega), Bool.false_and]
  | gather j' hj' hat _ _ =>
      obtain ⟨hlow, hwfi'⟩ := (hat 0 hn).master rfl
      rw [hwfi' (by omega)] at hwfi
      cases hwfi
  | release j' m _ hm hwfis _ hothers =>
      by_cases h0 : 0 = m
      · rw [← h0] at hwfis
        omega
      · have := (hothers 0 hn h0).1
        omega

/-- A member counts itself; the last one goes on to clear the counter. -/
theorem Phase.add {j : Nat} {f : TaskFrame} (h : Phase n B v barrier W) (hi : i < n)
    (hle : (v i).1 ≤ W) (hc : (v i).1 = 2 * j + 2) (hpc : (v i).2 = .fetchAdd n f) :
    barrier < n ∧ Phase n B
      (Function.update v i ((v i).1, if n - 1 = barrier then .clear f else .wfi (.body f)))
      (barrier + 1) W := by
  cases h with
  | idle j' _ hat _ =>
      have hlow := (hat i hi).low
      have hwfi := (hat i hi).wfi (by omega)
      rw [hpc] at hwfi
      cases hwfi
  | gather j' hj' hat hcount hlt =>
      have hlow := (hat i hi).low
      obtain rfl : j' = j := by
        by_cases hcj : (v i).1 = 2 * j'
        · have hwfi := (hat i hi).wfi hcj
          rw [hpc] at hwfi
          cases hwfi
        · omega
      have hnot : arrived j' (v i) = false := by
        rw [arrived, hpc]
        exact Bool.and_false _
      have hupd := tally_update (arrived j') v ((v i).1, TaskPc.wfi (.body f)) hi
      have hnew : arrived j' ((v i).1, TaskPc.wfi (.body f)) = true := by
        rw [arrived, decide_eq_true hc]
        rfl
      rw [hnot, hnew, Bool.toNat_true, Bool.toNat_false] at hupd
      refine ⟨hlt, ?_⟩
      by_cases hlast : n - 1 = barrier
      · rw [if_pos hlast]
        have hall := tally_eq_all.mp (show tally (arrived j')
          (Function.update v i ((v i).1, TaskPc.wfi (.body f))) n = n by omega)
        refine .release j' i hj' hi (by rw [Function.update_self]; exact hc)
          (by rw [Function.update_self]; rfl) fun m hm hmi => ?_
        have harr := hall m hm
        rw [Function.update_of_ne hmi, arrived, Bool.and_eq_true, decide_eq_true_eq] at harr
        rw [Function.update_of_ne hmi]
        exact harr
      · rw [if_neg hlast]
        refine .gather j' hj' (forall_task_update hat ⟨by simp only; omega, fun h => rfl,
          fun _ => ⟨by simp only; omega, fun _ => rfl⟩, fun _ => .inl rfl⟩) ?_ (by omega)
        omega
  | release j' m _ _ _ hpc' hothers =>
      by_cases him : i = m
      · rw [← him, hpc] at hpc'
        cases hpc'
      · have hwfi := (hothers i hi him).2
        rw [hpc] at hwfi
        cases hwfi

/-- In the release of a barrier, everybody has been counted. -/
theorem Phase.releasing {j : Nat} (h : Phase n B v barrier W) (hi : i < n) (hle : (v i).1 ≤ W)
    (hc : (v i).1 = 2 * j + 2) (hpc : (v i).2.releases = true) :
    W = 2 * j + 2 ∧ j < B ∧ ∀ m < n, m ≠ i → (v m).1 = 2 * j + 2 ∧ (v m).2.isWfi = true := by
  have hwfi : (v i).2.isWfi = false := by
    generalize (v i).2 = pc at hpc
    cases pc with
    | wfi _ => cases hpc
    | _ => rfl
  cases h with
  | idle j' _ hat _ =>
      have hlow := (hat i hi).low
      rw [(hat i hi).wfi (by omega)] at hwfi
      cases hwfi
  | gather j' _ hat _ _ =>
      have hlow := (hat i hi).low
      by_cases hcj : (v i).1 = 2 * j'
      · rw [(hat i hi).wfi hcj] at hwfi
        cases hwfi
      · rcases (hat i hi).inside (by omega) with h | ⟨m, f, h⟩
        · rw [h] at hwfi
          cases hwfi
        · rw [h] at hpc
          cases hpc
  | release j' m hj' hm hwfis hpc' hothers =>
      by_cases him : i = m
      · subst him
        obtain rfl : j' = j := by omega
        exact ⟨rfl, hj', hothers⟩
      · rw [(hothers i hi him).2] at hwfi
        cases hwfi

theorem Phase.clear {j : Nat} (h : Phase n B v barrier W) (hi : i < n) (hle : (v i).1 ≤ W)
    (hc : (v i).1 = 2 * j + 2) (hpc : (v i).2.releases = true) (hq : q.releases = true) :
    Phase n B (Function.update v i ((v i).1, q)) barrier' W := by
  obtain ⟨rfl, hj, hothers⟩ := h.releasing hi hle hc hpc
  refine .release j i hj hi (by rw [Function.update_self]; exact hc)
    (by rw [Function.update_self]; exact hq) fun m hm hmi => ?_
  rw [Function.update_of_ne hmi]
  exact hothers m hm hmi

/-- The last member wakes the team up. -/
theorem Phase.close {j : Nat} (h : Phase n B v barrier W) (hi : i < n) (hle : (v i).1 ≤ W)
    (hc : (v i).1 = 2 * j + 2) (hpc : (v i).2.releases = true) (hq : q.isWfi = true) :
    Phase n B (Function.update v i ((v i).1, q)) barrier' (W + 1) := by
  obtain ⟨rfl, hj, hothers⟩ := h.releasing hi hle hc hpc
  have hall : ∀ m < n, (Function.update v i ((v i).1, q) m).1 = 2 * (j + 1)
      ∧ (Function.update v i ((v i).1, q) m).2.isWfi = true := by
    intro m hm
    by_cases hmi : m = i
    · rw [hmi, Function.update_self]
      exact ⟨by simp only; omega, hq⟩
    · rw [Function.update_of_ne hmi]
      exact hothers m hm hmi
  refine .idle (j + 1) hj (fun m hm => ?_) fun hwake => ?_
  · obtain ⟨hcm, hwfi⟩ := hall m hm
    exact ⟨by omega, fun _ => hwfi, fun _ h => by omega⟩
  · have hwfi := (hall 0 (by omega)).2
    generalize (Function.update v i ((v i).1, q) 0).2 = pc at hwake hwfi
    cases pc with
    | wfi _ => cases hwake
    | _ => cases hwfi

end Phases

/-! ## A region that runs -/

/-- Whether a member has called the function, returned from it, and been counted out. -/
def hasBegun : Nat × TaskPc → Bool
  | (c, .wfi .test) => decide (0 < c)
  | (_, .test) | (_, .loadFn) | (_, .loadData _) => false
  | _ => true

def hasEnded : Nat × TaskPc → Bool
  | (c, .wfi .test) => decide (0 < c)
  | (_, .dec) | (_, .spin) => true
  | _ => false

def hasLeft : Nat × TaskPc → Bool
  | (c, .wfi .test) => decide (0 < c)
  | (_, .spin) => true
  | _ => false

/-- How often core `i` has called the function of region `k`, and returned from it. -/
def TeamState.calls (s : TeamState) (i k : Nat) : Nat := s.begun.count (i, k, k)
def TeamState.returns (s : TeamState) (i k : Nat) : Nat := s.ended.count (i, k, k)

theorem calls_congr {s s' : TeamState} (h : s'.begun = s.begun) (i k : Nat) :
    s'.calls i k = s.calls i k := by rw [TeamState.calls, TeamState.calls, h]

theorem returns_congr {s s' : TeamState} (h : s'.ended = s.ended) (i k : Nat) :
    s'.returns i k = s.returns i k := by rw [TeamState.returns, TeamState.returns, h]

/-- A member that waits again has left the region. -/
theorem back_flags {c : Nat} (h : 0 < c) : hasBegun (c, .wfi .test) = true
    ∧ hasEnded (c, .wfi .test) = true ∧ hasLeft (c, .wfi .test) = true :=
  ⟨decide_eq_true h, decide_eq_true h, decide_eq_true h⟩

/-- `event` is as `set_event` leaves it, up to the counter. -/
structure Published (p : TeamProgram) (s : TeamState) : Prop where
  fn : s.event.fn = s.region
  data : s.event.data = s.region
  nthreads : s.event.nthreads = p.team s.region
  pool : ∀ i < p.numCores, s.event.threadPool i = if i < p.team s.region then 1 else 0

/-- Member `i` has `x.1` WFIs of the region behind it and is at `x.2`. -/
structure Member (p : TeamProgram) (s : TeamState) (W i : Nat) (x : Nat × TaskPc) : Prop where
  pc : MemberPc (p.team s.region) (p.barriersOf s.region) s.region i x.1 x.2
  at_ : (s.core i).pc = x.2
  tokens : (s.core i).wakeUp + (s.core i).inFlight + x.1 = W
  calls : s.calls i s.region = (hasBegun x).toNat
  returns : s.returns i s.region = (hasEnded x).toNat

/-- A core outside the team is in its loop. -/
structure Outside (s : TeamState) (i : Nat) : Prop where
  pc : (s.core i).pc = .wfi .test ∨ (s.core i).pc = .test
  calls : s.calls i s.region = 0
  returns : s.returns i s.region = 0

/-- After `W` wake-ups of the region. -/
structure Running (p : TeamProgram) (s : TeamState) (v : Nat → Nat × TaskPc) (W : Nat) :
    Prop where
  published : Published p s
  left : s.event.barrier + tally hasLeft v (p.team s.region) = p.team s.region
  members : ∀ i < p.team s.region, Member p s W i (v i)
  outside : ∀ i, p.team s.region ≤ i → i < p.numCores → Outside s i
  phase : Phase (p.team s.region) (p.barriersOf s.region) v s.barrier W

section Running

variable {p : TeamProgram} {s s' : TeamState} {v : Nat → Nat × TaskPc} {W i : Nat}
  {x : Nat × TaskPc} {q : TaskPc}

theorem core_goto (s : TeamState) (i : Nat) (q : TaskPc) :
    (s.goto i q).core i = { s.core i with pc := q } := Function.update_self ..

/-- What a step of core `i` leaves alone. -/
structure Frame (s s' : TeamState) (i : Nat) : Prop where
  region : s'.region = s.region
  fn : s'.event.fn = s.event.fn
  data : s'.event.data = s.event.data
  nthreads : s'.event.nthreads = s.event.nthreads
  pool : s'.event.threadPool = s.event.threadPool
  core : ∀ m, m ≠ i → s'.core m = s.core m
  calls : ∀ m, m ≠ i → s'.calls m s.region = s.calls m s.region
  returns : ∀ m, m ≠ i → s'.returns m s.region = s.returns m s.region

theorem Frame.goto (s : TeamState) (i : Nat) (c : TaskCore) : Frame s (s.setCore i c) i :=
  ⟨rfl, rfl, rfl, rfl, rfl, fun _ hm => Function.update_of_ne hm .., fun _ _ => rfl,
    fun _ _ => rfl⟩

theorem Frame.counter (s : TeamState) (i : Nat) (c : TaskCore) (b : Nat) :
    Frame s { s.setCore i c with event.barrier := b } i :=
  ⟨rfl, rfl, rfl, rfl, rfl, fun _ hm => Function.update_of_ne hm .., fun _ _ => rfl,
    fun _ _ => rfl⟩

theorem Frame.barrier (s : TeamState) (i : Nat) (c : TaskCore) (b : Nat) :
    Frame s { s.setCore i c with barrier := b } i :=
  ⟨rfl, rfl, rfl, rfl, rfl, fun _ hm => Function.update_of_ne hm .., fun _ _ => rfl,
    fun _ _ => rfl⟩

theorem Published.frame (h : Published p s) (hf : Frame s s' i) : Published p s' where
  fn := by rw [hf.fn, hf.region]; exact h.fn
  data := by rw [hf.data, hf.region]; exact h.data
  nthreads := by rw [hf.nthreads, hf.region]; exact h.nthreads
  pool := by rw [hf.pool, hf.region]; exact h.pool

theorem Member.frame (h : Member p s W i x) {m : Nat} (hf : Frame s s' m) (him : i ≠ m) :
    Member p s' W i x where
  pc := by rw [hf.region]; exact h.pc
  at_ := by rw [hf.core i him]; exact h.at_
  tokens := by rw [hf.core i him]; exact h.tokens
  calls := by rw [hf.region, hf.calls i him]; exact h.calls
  returns := by rw [hf.region, hf.returns i him]; exact h.returns

theorem Outside.frame (h : Outside s i) {m : Nat} (hf : Frame s s' m) (him : i ≠ m) :
    Outside s' i where
  pc := by rw [hf.core i him]; exact h.pc
  calls := by rw [hf.region, hf.calls i him]; exact h.calls
  returns := by rw [hf.region, hf.returns i him]; exact h.returns

/-- A member moves. -/
theorem Running.move (h : Running p s v W) (hi : i < p.team s.region) (hf : Frame s s' i)
    (hx : Member p s' W i x)
    (hleft : s'.event.barrier + tally hasLeft (Function.update v i x) (p.team s.region)
      = p.team s.region)
    (hphase : Phase (p.team s.region) (p.barriersOf s.region)
      (Function.update v i x) s'.barrier W) :
    Running p s' (Function.update v i x) W where
  published := h.published.frame hf
  left := by rw [hf.region]; exact hleft
  members := by
    intro m hm
    rw [hf.region] at hm
    by_cases hmi : m = i
    · rw [hmi, Function.update_self]
      exact hx
    · rw [Function.update_of_ne hmi]
      exact (h.members m hm).frame hf hmi
  outside := by
    intro m hm hmN
    rw [hf.region] at hm
    exact (h.outside m hm hmN).frame hf (by omega)
  phase := by rw [hf.region]; exact hphase

theorem Running.wfis_le (h : Running p s v W) (hi : i < p.team s.region) : (v i).1 ≤ W := by
  have := (h.members i hi).tokens
  omega

/-- A core outside the team moves. -/
theorem Running.outsider (h : Running p s v W) (hi : p.team s.region ≤ i) (hf : Frame s s' i)
    (hevent : s'.event.barrier = s.event.barrier) (hbarrier : s'.barrier = s.barrier)
    (hpc : (s'.core i).pc = .wfi .test ∨ (s'.core i).pc = .test)
    (hcalls : s'.calls i s.region = s.calls i s.region)
    (hreturns : s'.returns i s.region = s.returns i s.region) : Running p s' v W where
  published := h.published.frame hf
  left := by rw [hf.region, hevent]; exact h.left
  members := by
    intro m hm
    rw [hf.region] at hm
    exact (h.members m hm).frame hf (by omega)
  outside := by
    intro m hm hmN
    rw [hf.region] at hm
    by_cases hmi : m = i
    · subst hmi
      have hold := h.outside m hm hmN
      exact ⟨hpc, by rw [hf.region, hcalls]; exact hold.calls,
        by rw [hf.region, hreturns]; exact hold.returns⟩
    · exact (h.outside m hm hmN).frame hf hmi
  phase := by rw [hf.region, hbarrier]; exact h.phase

/-- A step of a member that is not counted, in the barrier or out of it. -/
theorem Running.goto (h : Running p s v W) (hi : i < p.team s.region)
    (hpc : MemberPc (p.team s.region) (p.barriersOf s.region) s.region i (v i).1 q)
    (hbegun : hasBegun ((v i).1, q) = hasBegun (v i))
    (hended : hasEnded ((v i).1, q) = hasEnded (v i))
    (hleft : hasLeft ((v i).1, q) = hasLeft (v i))
    (hphase : Phase (p.team s.region) (p.barriersOf s.region)
      (Function.update v i ((v i).1, q)) s.barrier W) :
    Running p (s.goto i q) (Function.update v i ((v i).1, q)) W := by
  have hm := h.members i hi
  have hcore := core_goto s i q
  refine h.move hi (Frame.goto s i _) ⟨hpc, by rw [hcore], by rw [hcore]; exact hm.tokens, ?_, ?_⟩
    ?_ hphase
  · rw [hbegun]
    exact hm.calls
  · rw [hended]
    exact hm.returns
  · rw [tally_update_eq hi hleft]
    exact h.left

/-- A member's WFI ends. -/
theorem Running.wake (h : Running p s v W) (hi : i < p.team s.region) (c : TaskCore)
    {next : TaskPc} (hwfi : (s.core i).pc = .wfi next) (hpc : c.pc = next)
    (htokens : c.wakeUp + c.inFlight + 1 = (s.core i).wakeUp + (s.core i).inFlight) :
    Running p (s.setCore i c) (Function.update v i ((v i).1 + 1, next)) W := by
  have hm := h.members i hi
  have hcore : (s.setCore i c).core i = c := Function.update_self ..
  have hlt : (v i).1 < W := by
    have := hm.tokens
    omega
  have hhigh := h.phase.high
  have hvwfi : (v i).2 = .wfi next := hm.at_.symm.trans hwfi
  have hleg := hm.pc
  rw [hvwfi] at hleg
  have hstep : MemberPc (p.team s.region) (p.barriersOf s.region) s.region i ((v i).1 + 1) next
      ∧ next.isWfi = false ∧ next.isWakeUp = false
      ∧ (∀ j, (v i).1 = 2 * j + 1 → ∃ m f, next = .fetchAdd m f)
      ∧ hasBegun ((v i).1 + 1, next) = hasBegun (v i)
      ∧ hasEnded ((v i).1 + 1, next) = hasEnded (v i)
      ∧ hasLeft ((v i).1 + 1, next) = hasLeft (v i) := by
    generalize hx : v i = x at hvwfi hleg hlt ⊢
    obtain ⟨c, pc⟩ := x
    simp only at hvwfi hleg hlt ⊢
    subst hvwfi
    cases hleg with
    | wait => exact ⟨.test, rfl, rfl, fun j hj => by omega, rfl, rfl, rfl⟩
    | gompWait j hj =>
        exact ⟨.add j hj, rfl, rfl, fun _ _ => ⟨_, _, rfl⟩, rfl, rfl, rfl⟩
    | sleep j hj =>
        exact ⟨.body (j + 1) hj, rfl, rfl, fun m hm => by omega, rfl, rfl, rfl⟩
    | back hi => omega
  obtain ⟨hnext, hq, hwake, hadd, hbegun, hended, hleft⟩ := hstep
  refine h.move hi (Frame.goto s i c) ⟨hnext, by rw [hcore]; exact hpc, ?_, ?_, ?_⟩ ?_ ?_
  · rw [hcore]
    have := hm.tokens
    simp only
    omega
  · rw [hbegun]
    exact hm.calls
  · rw [hended]
    exact hm.returns
  · rw [tally_update_eq hi hleft]
    exact h.left
  · exact h.phase.wfi hi hlt (by rw [hvwfi]; rfl) hq hwake hadd

/-- Somebody wakes everybody up. -/
theorem Running.wakeUpAll (h : Running p s v W) (hn : p.team s.region ≤ p.numCores)
    (hi : i < p.team s.region) {next : TaskPc} (hat : (s.core i).pc = .wakeUpAll next)
    (hpc : MemberPc (p.team s.region) (p.barriersOf s.region) s.region i (v i).1 next)
    (hbegun : hasBegun ((v i).1, next) = hasBegun (v i))
    (hended : hasEnded ((v i).1, next) = hasEnded (v i))
    (hleft : hasLeft ((v i).1, next) = hasLeft (v i))
    (hphase : Phase (p.team s.region) (p.barriersOf s.region)
      (Function.update v i ((v i).1, next)) s.barrier (W + 1)) :
    Running p (p.stepCore s i) (Function.update v i ((v i).1, next)) (W + 1) := by
  simp only [TeamProgram.stepCore, hat]
  refine ⟨⟨h.published.fn, h.published.data, h.published.nthreads, h.published.pool⟩, ?_, ?_, ?_,
    hphase⟩
  · show s.event.barrier + _ = _
    rw [tally_update_eq hi hleft]
    exact h.left
  · intro m hm
    have hmem := h.members m hm
    have hmN : m < p.numCores := Nat.lt_of_lt_of_le hm hn
    by_cases hmi : m = i
    · subst hmi
      rw [Function.update_self]
      refine ⟨hpc, ?_, ?_, ?_, ?_⟩
      · simp only [Function.update_self, hmN, if_true]
      · have := hmem.tokens
        simp only [Function.update_self, hmN, if_true]
        omega
      · rw [hbegun]
        exact hmem.calls
      · rw [hended]
        exact hmem.returns
    · rw [Function.update_of_ne hmi]
      refine ⟨hmem.pc, ?_, ?_, hmem.calls, hmem.returns⟩
      · simp only [Function.update_of_ne hmi, hmN, if_true]
        exact hmem.at_
      · have := hmem.tokens
        simp only [Function.update_of_ne hmi, hmN, if_true]
        omega
  · intro m hm hmN
    have hout := h.outside m hm hmN
    refine ⟨?_, hout.calls, hout.returns⟩
    have hmi : m ≠ i := by
      have : p.team s.region ≤ m := hm
      omega
    simp only [Function.update_of_ne hmi, hmN, if_true]
    exact hout.pc

/-- Nothing but the sleep of a core changes, or where its wake-ups are counted. -/
theorem Running.touch (h : Running p s v W) (hi : i < p.team s.region) (c : TaskCore)
    (hpc : c.pc = (s.core i).pc)
    (htokens : c.wakeUp + c.inFlight = (s.core i).wakeUp + (s.core i).inFlight) :
    Running p (s.setCore i c) v W := by
  have hm := h.members i hi
  have hcore : (s.setCore i c).core i = c := Function.update_self ..
  have hmove := h.move (x := v i) hi (Frame.goto s i c)
    ⟨hm.pc, by rw [hcore, hpc]; exact hm.at_, by rw [hcore, htokens]; exact hm.tokens,
      hm.calls, hm.returns⟩
    (by rw [Function.update_eq_self]; exact h.left) (by rw [Function.update_eq_self]; exact h.phase)
  rw [Function.update_eq_self] at hmove
  exact hmove

theorem calls_append (s s' : TeamState) (i m k : Nat) (hs : s'.begun = s.begun ++ [(i, k, k)]) :
    s'.calls m k = s.calls m k + if m = i then 1 else 0 := by
  rw [TeamState.calls, TeamState.calls, hs, List.count_append, List.count_singleton]
  by_cases hmi : m = i
  · simp [hmi]
  · simp [hmi, Ne.symm hmi]

theorem returns_append (s s' : TeamState) (i m k : Nat) (hs : s'.ended = s.ended ++ [(i, k, k)]) :
    s'.returns m k = s.returns m k + if m = i then 1 else 0 := by
  rw [TeamState.returns, TeamState.returns, hs, List.count_append, List.count_singleton]
  by_cases hmi : m = i
  · simp [hmi]
  · simp [hmi, Ne.symm hmi]

theorem Running.silent (h : Running p s v W) (hi : i < p.team s.region) (q : TaskPc)
    (hplain : (v i).2.plain = true) (hwfi : i = 0 → q.isWfi = false)
    (hwake : i = 0 → q.isWakeUp = false) :
    Phase (p.team s.region) (p.barriersOf s.region) (Function.update v i ((v i).1, q))
      s.barrier W :=
  h.phase.plain hi (h.wfis_le hi) hplain hwfi (.inl rfl) fun h0 h => by
    rw [hwake h0] at h
    cases h

/-- A member calls the function of the region. -/
theorem Running.call (h : Running p s v W) (hi : i < p.team s.region)
    (hx : v i = (1, .loadData s.region)) :
    Running p (p.stepCore s i)
      (Function.update v i (1, .body ⟨s.region, s.region, p.barriersOf s.region - 0⟩)) W := by
  have hm := h.members i hi
  have hat : (s.core i).pc = .loadData s.region := by rw [hm.at_, hx]
  have hcalls := hm.calls
  have hreturns := hm.returns
  have htokens := hm.tokens
  rw [hx] at hcalls hreturns htokens
  have hstep : p.stepCore s i
      = { s.goto i (.body ⟨s.region, s.region, p.barriersOf s.region - 0⟩) with
          begun := s.begun ++ [(i, s.region, s.region)] } := by
    simp only [TeamProgram.stepCore, hat, h.published.data]
    rfl
  have hcore : (p.stepCore s i).core i
      = { s.core i with pc := .body ⟨s.region, s.region, p.barriersOf s.region - 0⟩ } := by
    rw [hstep]
    exact Function.update_self ..
  have hadd := fun m => calls_append s (p.stepCore s i) i m s.region (by rw [hstep])
  have hf : Frame s (p.stepCore s i) i := by
    refine ⟨by rw [hstep]; rfl, by rw [hstep]; rfl, by rw [hstep]; rfl, by rw [hstep]; rfl,
      by rw [hstep]; rfl, fun m hmi => ?_, fun m hmi => ?_, fun m hmi => ?_⟩
    · rw [hstep]
      exact Function.update_of_ne hmi ..
    · rw [hadd, if_neg hmi]
      rfl
    · rw [hstep]
      rfl
  refine h.move hi hf ⟨?_, by rw [hcore], by rw [hcore]; exact htokens, ?_, ?_⟩ ?_ ?_
  · rw [hf.region]
    exact .body 0 (Nat.zero_le _)
  · rw [hf.region, hadd, hcalls, if_pos rfl]
    rfl
  · rw [hf.region, hstep]
    exact hreturns
  · rw [tally_update_eq hi (by rw [hx]; rfl), hstep]
    exact h.left
  · have hphase := h.silent hi (.body ⟨s.region, s.region, p.barriersOf s.region - 0⟩)
      (by rw [hx]; rfl) (fun _ => rfl) (fun _ => rfl)
    rw [hx] at hphase
    rw [hstep]
    exact hphase

/-- A member returns from the function. -/
theorem Running.return (h : Running p s v W) (hi : i < p.team s.region)
    (hx : v i = (2 * p.barriersOf s.region + 1, .body ⟨s.region, s.region, 0⟩)) :
    Running p (p.stepCore s i) (Function.update v i (2 * p.barriersOf s.region + 1, .dec)) W := by
  have hm := h.members i hi
  have hat : (s.core i).pc = .body ⟨s.region, s.region, 0⟩ := by rw [hm.at_, hx]
  have hcalls := hm.calls
  have hreturns := hm.returns
  have htokens := hm.tokens
  rw [hx] at hcalls hreturns htokens
  have hstep : p.stepCore s i
      = { s.goto i .dec with ended := s.ended ++ [(i, s.region, s.region)] } := by
    simp only [TeamProgram.stepCore, hat]
  have hcore : (p.stepCore s i).core i = { s.core i with pc := .dec } := by
    rw [hstep]
    exact Function.update_self ..
  have hadd := fun m => returns_append s (p.stepCore s i) i m s.region (by rw [hstep])
  have hf : Frame s (p.stepCore s i) i := by
    refine ⟨by rw [hstep]; rfl, by rw [hstep]; rfl, by rw [hstep]; rfl, by rw [hstep]; rfl,
      by rw [hstep]; rfl, fun m hmi => ?_, fun m hmi => ?_, fun m hmi => ?_⟩
    · rw [hstep]
      exact Function.update_of_ne hmi ..
    · rw [hstep]
      rfl
    · rw [hadd, if_neg hmi]
      rfl
  refine h.move hi hf ⟨?_, by rw [hcore], by rw [hcore]; exact htokens, ?_, ?_⟩ ?_ ?_
  · rw [hf.region]
    exact .dec
  · rw [hf.region, hstep]
    exact hcalls
  · rw [hf.region, hadd, hreturns, if_pos rfl]
    rfl
  · rw [tally_update_eq hi (by rw [hx]; rfl), hstep]
    exact h.left
  · have hphase := h.silent hi .dec (by rw [hx]; rfl) (fun _ => rfl) (fun _ => rfl)
    rw [hx] at hphase
    rw [hstep]
    exact hphase

/-- A member is counted out. -/
theorem Running.leave (h : Running p s v W) (hlt : p.team s.region < 2 ^ 32)
    (hi : i < p.team s.region) (hx : v i = (2 * p.barriersOf s.region + 1, .dec)) :
    Running p (p.stepCore s i)
      (Function.update v i (2 * p.barriersOf s.region + 1, TeamProgram.afterTask i)) W := by
  have hm := h.members i hi
  have hat : (s.core i).pc = .dec := by rw [hm.at_, hx]
  have hcalls := hm.calls
  have hreturns := hm.returns
  have htokens := hm.tokens
  rw [hx] at hcalls hreturns htokens
  have hstep : p.stepCore s i = { s.goto i (TeamProgram.afterTask i) with
      event.barrier := sub32 s.event.barrier 1 } := by
    simp only [TeamProgram.stepCore, hat]
  have hcore : (p.stepCore s i).core i = { s.core i with pc := TeamProgram.afterTask i } := by
    rw [hstep]
    exact Function.update_self ..
  have hf : Frame s (p.stepCore s i) i := by
    rw [hstep]
    exact Frame.counter s i _ _
  have hafter : MemberPc (p.team s.region) (p.barriersOf s.region) s.region i
        (2 * p.barriersOf s.region + 1) (TeamProgram.afterTask i)
      ∧ hasBegun (2 * p.barriersOf s.region + 1, TeamProgram.afterTask i) = true
      ∧ hasEnded (2 * p.barriersOf s.region + 1, TeamProgram.afterTask i) = true
      ∧ hasLeft (2 * p.barriersOf s.region + 1, TeamProgram.afterTask i) = true := by
    rw [TeamProgram.afterTask]
    split
    · rename_i h0
      exact ⟨.spin h0, rfl, rfl, rfl⟩
    · rename_i h0
      exact ⟨.back h0, back_flags (by omega)⟩
  obtain ⟨hpc, hbegun, hended, hleft⟩ := hafter
  refine h.move hi hf ⟨?_, by rw [hcore], by rw [hcore]; exact htokens, ?_, ?_⟩ ?_ ?_
  · rw [hf.region]
    exact hpc
  · rw [hf.region, calls_congr (s := s) (by rw [hstep]; rfl), hbegun]
    exact hcalls
  · rw [hf.region, returns_congr (s := s) (by rw [hstep]; rfl), hended]
    exact hreturns
  · have hupd := tally_update hasLeft v
      (2 * p.barriersOf s.region + 1, TeamProgram.afterTask i) hi
    have hold := h.left
    have hroom := tally_lt (p := hasLeft) (f := v) hi (by rw [hx]; rfl)
    rw [hleft, hx, show hasLeft (2 * p.barriersOf s.region + 1, .dec) = false from rfl,
      Bool.toNat_true, Bool.toNat_false] at hupd
    rw [hstep]
    show sub32 s.event.barrier 1 + _ = _
    rw [sub32_eq (by omega) (by omega)]
    omega
  · have hphase := h.silent hi (TeamProgram.afterTask i) (by rw [hx]; rfl)
      (fun h0 => by rw [TeamProgram.afterTask, if_pos h0]; rfl)
      (fun h0 => by rw [TeamProgram.afterTask, if_pos h0]; rfl)
    rw [hx] at hphase
    rw [hstep]
    exact hphase

/-- A step of a member that stores to the counter of the barrier. -/
theorem Running.store (h : Running p s v W) (hi : i < p.team s.region) (b : Nat)
    (hpc : MemberPc (p.team s.region) (p.barriersOf s.region) s.region i (v i).1 q)
    (hbegun : hasBegun ((v i).1, q) = hasBegun (v i))
    (hended : hasEnded ((v i).1, q) = hasEnded (v i))
    (hleft : hasLeft ((v i).1, q) = hasLeft (v i))
    (hphase : Phase (p.team s.region) (p.barriersOf s.region)
      (Function.update v i ((v i).1, q)) b W) :
    Running p { s.goto i q with barrier := b } (Function.update v i ((v i).1, q)) W := by
  have hm := h.members i hi
  have hcore := core_goto s i q
  refine h.move hi (Frame.barrier s i _ b)
    ⟨hpc, congrArg TaskCore.pc hcore, ?_, ?_, ?_⟩ ?_ hphase
  · show ((s.goto i q).core i).wakeUp + ((s.goto i q).core i).inFlight + _ = _
    rw [hcore]
    exact hm.tokens
  · rw [hbegun]
    exact hm.calls
  · rw [hended]
    exact hm.returns
  · rw [tally_update_eq hi hleft]
    exact h.left

/-- A WFI of a core that is awake. -/
theorem stepCore_wfi {next : TaskPc} (hat : (s.core i).pc = .wfi next) :
    p.stepCore s i =
      if 0 < (s.core i).wakeUp then
        s.setCore i { s.core i with pc := next, wakeUp := (s.core i).wakeUp - 1 }
      else s.setCore i { s.core i with asleep := true } := by
  simp only [TeamProgram.stepCore, hat]

theorem Running.stepWfi (h : Running p s v W) (hi : i < p.team s.region) {next : TaskPc}
    (hat : (s.core i).pc = .wfi next) : ∃ v' W', Running p (p.stepCore s i) v' W' := by
  rw [stepCore_wfi hat]
  split
  · exact ⟨_, _, h.wake hi _ hat rfl (by simp only; omega)⟩
  · exact ⟨_, _, h.touch hi _ rfl rfl⟩

theorem Running.stepMember (h : Running p s v W) (hn : p.team s.region ≤ p.numCores)
    (hN : p.numCores < 2 ^ 32) (hi : i < p.team s.region)
    (hspin : (s.core i).pc = .spin → 0 < s.event.barrier) :
    ∃ v' W', Running p (p.stepCore s i) v' W' := by
  have hm := h.members i hi
  have hle := h.wfis_le hi
  have hleg := hm.pc
  have hat := hm.at_
  generalize hc : (v i).1 = c at hleg
  generalize hv : (v i).2 = pc at hleg hat
  have hx : v i = (c, pc) := Prod.ext hc hv
  cases hleg with
  | wait => exact h.stepWfi hi hat
  | gompWait j hj => exact h.stepWfi hi hat
  | sleep j hj => exact h.stepWfi hi hat
  | back _ => exact h.stepWfi hi hat
  | test =>
      have hpool : s.event.threadPool i = 1 := by
        rw [h.published.pool i (by omega), if_pos hi]
      simp only [TeamProgram.stepCore, hat, hpool, ne_eq, one_ne_zero, not_false_eq_true, if_true]
      exact ⟨_, _, h.goto hi (by rw [hc]; exact .loadFn) (by rw [hx]; rfl) (by rw [hx]; rfl)
        (by rw [hx]; rfl) (h.silent hi _ (by rw [hx]; rfl) (fun _ => rfl) fun _ => rfl)⟩
  | loadFn =>
      simp only [TeamProgram.stepCore, hat, h.published.fn]
      exact ⟨_, _, h.goto hi (by rw [hc]; exact .loadData) (by rw [hx]; rfl) (by rw [hx]; rfl)
        (by rw [hx]; rfl) (h.silent hi _ (by rw [hx]; rfl) (fun _ => rfl) fun _ => rfl)⟩
  | loadData => exact ⟨_, _, h.call hi hx⟩
  | body j hj =>
      by_cases hlast : j = p.barriersOf s.region
      · subst hlast
        rw [Nat.sub_self] at hx
        exact ⟨_, _, h.return hi hx⟩
      · obtain ⟨b, hb⟩ : ∃ b, p.barriersOf s.region - j = b + 1 :=
          ⟨p.barriersOf s.region - j - 1, by omega⟩
        have hb' : b = p.barriersOf s.region - (j + 1) := by omega
        simp only [TeamProgram.stepCore, hat, hb, h.published.nthreads]
        rw [TeamProgram.gompBarrier, if_pos (show barrierInitGomp = 0 from rfl), hb']
        split
        · rename_i h0
          exact ⟨_, _, h.goto hi (by rw [hc]; exact .gompStore h0 j (by omega)) (by rw [hx]; rfl)
            (by rw [hx]; rfl) (by rw [hx]; rfl)
            (h.silent hi _ (by rw [hx]; rfl) (fun _ => rfl) fun _ => rfl)⟩
        · rename_i h0
          exact ⟨_, _, h.goto hi (by rw [hc]; exact .gompWait j (by omega)) (by rw [hx]; rfl)
            (by rw [hx]; rfl) (by rw [hx]; rfl)
            (h.silent hi _ (by rw [hx]; rfl) (fun h => (h0 h).elim) fun h => (h0 h).elim)⟩
  | gompStore h0 j hj =>
      simp only [TeamProgram.stepCore, hat]
      exact ⟨_, _, h.store hi 0 (by rw [hc]; exact .gompWake h0 j hj) (by rw [hx]; rfl)
        (by rw [hx]; rfl) (by rw [hx]; rfl)
        (h.phase.plain hi hle (by rw [hx]; rfl) (fun _ => rfl) (.inr ⟨h0, rfl⟩) fun _ _ => rfl)⟩
  | gompWake h0 j hj =>
      subst h0
      exact ⟨_, _, h.wakeUpAll hn hi hat (by rw [hc]; exact .gompWait j hj) (by rw [hx]; rfl)
        (by rw [hx]; rfl) (by rw [hx]; rfl)
        (h.phase.open hi (fun m hm => h.wfis_le hm) hj hc (by rw [hx]; rfl) rfl)⟩
  | add j hj =>
      obtain ⟨hlt, hphase⟩ := h.phase.add hi hle hc hv
      simp only [TeamProgram.stepCore, hat]
      rw [sub32_eq (by omega) (by omega), u32_eq (by omega)]
      refine ⟨_, _, h.store hi _ ?_ ?_ ?_ ?_ hphase⟩
      · rw [hc]
        split
        · exact .clear j hj
        · exact .sleep j hj
      · rw [hx]
        split <;> rfl
      · rw [hx]
        split <;> rfl
      · rw [hx]
        split <;> rfl
  | clear j hj =>
      simp only [TeamProgram.stepCore, hat]
      exact ⟨_, _, h.store hi 0 (by rw [hc]; exact .wake j hj) (by rw [hx]; rfl)
        (by rw [hx]; rfl) (by rw [hx]; rfl)
        (h.phase.clear hi hle hc (by rw [hx]; rfl) rfl)⟩
  | wake j hj =>
      exact ⟨_, _, h.wakeUpAll hn hi hat (by rw [hc]; exact .sleep j hj) (by rw [hx]; rfl)
        (by rw [hx]; rfl) (by rw [hx]; rfl)
        (h.phase.close hi hle hc (by rw [hx]; rfl) rfl)⟩
  | dec => exact ⟨_, _, h.leave (by omega) hi hx⟩
  | spin _ =>
      simp only [TeamProgram.stepCore, hat, gt_iff_lt, hspin hat, if_true]
      exact ⟨v, W, h⟩

/-- A wake-up reaches a member. -/
theorem Running.pulseMember (h : Running p s v W) (hi : i < p.team s.region)
    (hasleep : (s.core i).asleep = true → (s.core i).pc.isWfi = true) :
    ∃ v' W', Running p (s.setCore i (TeamProgram.pulse (s.core i))) v' W' := by
  have htokens := (h.members i hi).tokens
  have hlow := h.phase.low hi
  rw [TeamProgram.pulse]
  split
  · exact ⟨v, W, h.touch hi _ rfl rfl⟩
  · split
    · rename_i hsleep
      obtain ⟨next, hat⟩ : ∃ next, (s.core i).pc = .wfi next := by
        have hwfi := hasleep hsleep
        generalize (s.core i).pc = pc at hwfi
        cases pc with
        | wfi next => exact ⟨next, rfl⟩
        | _ => cases hwfi
      exact ⟨_, W, h.wake hi _ hat (by rw [hat]; rfl) (by simp only; omega)⟩
    · refine ⟨v, W, h.touch hi _ rfl ?_⟩
      simp only
      rw [Nat.mod_eq_of_lt (by rw [outstandingWfi]; omega)]
      omega

end Running

/-! ## Cores at rest -/

/-- The core waits for work, and no wake-up is on its way. -/
structure Resting (s : TeamState) (i : Nat) : Prop where
  pc : (s.core i).pc = .wfi .test
  wakeUp : (s.core i).wakeUp = 0
  inFlight : (s.core i).inFlight = 0

/-- A core that will not call a function: it rests, or is in its loop and not in the pool. -/
def Parked (s : TeamState) (i : Nat) : Prop :=
  Resting s i ∨ ((s.core i).pc = .wfi .test ∨ (s.core i).pc = .test) ∧ s.event.threadPool i = 0

section Parked

variable {p : TeamProgram} {s s' : TeamState} {i m : Nat}

theorem Resting.congr (h : Resting s i) (hcore : s'.core i = s.core i) : Resting s' i :=
  ⟨by rw [hcore]; exact h.pc, by rw [hcore]; exact h.wakeUp, by rw [hcore]; exact h.inFlight⟩

theorem Parked.congr (h : Parked s i) (hcore : s'.core i = s.core i)
    (hpool : s'.event.threadPool i = s.event.threadPool i) : Parked s' i := by
  rcases h with h | ⟨hpc, hout⟩
  · exact .inl (h.congr hcore)
  · exact .inr ⟨by rw [hcore]; exact hpc, by rw [hpool]; exact hout⟩

/-- The loop of a core that is not in the pool, one step. -/
theorem loop_step (hi : i ≠ 0) (hpc : (s.core i).pc = .wfi .test ∨ (s.core i).pc = .test)
    (hpool : s.event.threadPool i = 0) :
    ∃ c : TaskCore, p.stepCore s i = s.setCore i c ∧ (c.pc = .wfi .test ∨ c.pc = .test) := by
  rcases hpc with hat | hat
  · rw [stepCore_wfi hat]
    split
    · exact ⟨_, rfl, .inr rfl⟩
    · exact ⟨_, rfl, .inl hat⟩
  · simp only [TeamProgram.stepCore, hat, hpool, ne_eq, not_true_eq_false, if_false,
      TeamProgram.afterTask, if_neg hi]
    exact ⟨_, rfl, .inl rfl⟩

theorem Resting.step (h : Resting s i) :
    ∃ c : TaskCore, p.stepCore s i = s.setCore i c ∧ Resting (s.setCore i c) i := by
  rw [stepCore_wfi h.pc, h.wakeUp]
  refine ⟨_, rfl, ?_⟩
  have hcore : (s.setCore i { s.core i with asleep := true }).core i
      = { s.core i with asleep := true } := Function.update_self ..
  exact ⟨by rw [hcore]; exact h.pc, by rw [hcore]; exact h.wakeUp, by rw [hcore]; exact h.inFlight⟩

theorem Parked.step (h : Parked s i) (hi : i ≠ 0) :
    ∃ c : TaskCore, p.stepCore s i = s.setCore i c ∧ Parked (s.setCore i c) i := by
  rcases h with h | ⟨hpc, hpool⟩
  · obtain ⟨c, hc, hrest⟩ := h.step (p := p)
    exact ⟨c, hc, .inl hrest⟩
  · obtain ⟨c, hc, hpc'⟩ := loop_step (p := p) hi hpc hpool
    refine ⟨c, hc, .inr ⟨?_, hpool⟩⟩
    rw [show (s.setCore i c).core i = c from Function.update_self ..]
    exact hpc'

/-- A wake-up leaves the loop in the loop. -/
theorem loop_pulse {c : TaskCore} (hpc : c.pc = .wfi .test ∨ c.pc = .test) :
    (TeamProgram.pulse c).pc = .wfi .test ∨ (TeamProgram.pulse c).pc = .test := by
  rw [TeamProgram.pulse]
  split
  · exact hpc
  · split
    · rcases hpc with hat | hat
      · exact .inr (by simp only [hat]; rfl)
      · exact .inr (by simp only [hat]; rfl)
    · exact hpc

theorem Resting.pulse (h : Resting s i) : TeamProgram.pulse (s.core i) = s.core i := by
  rw [TeamProgram.pulse, if_pos h.inFlight]

theorem Parked.pulse (h : Parked s i) : Parked (s.setCore i (TeamProgram.pulse (s.core i))) i := by
  have hcore : (s.setCore i (TeamProgram.pulse (s.core i))).core i
      = TeamProgram.pulse (s.core i) := Function.update_self ..
  rcases h with h | ⟨hpc, hpool⟩
  · exact .inl (h.congr (hcore.trans h.pulse))
  · exact .inr ⟨by rw [hcore]; exact loop_pulse hpc, hpool⟩

end Parked

/-! ## From one region to the next -/

/-- Nobody has called the function of region `k`. -/
def Uncalled (s : TeamState) (k : Nat) : Prop := ∀ i, s.calls i k = 0 ∧ s.returns i k = 0

/-- Core `i` has been in the team before, or there was none. -/
def Before (p : TeamProgram) (k i : Nat) : Prop := k = 0 ∨ i < p.team (k - 1)

/-- No region runs. The cores of the team before rest; the others may still have to use
up wake-ups. -/
structure Between (p : TeamProgram) (s : TeamState) : Prop where
  pc : (s.core 0).pc = p.nextCall s.region
  wakeUp : (s.core 0).wakeUp = 0
  inFlight : (s.core 0).inFlight = 0
  others : ∀ i < p.numCores, i ≠ 0 → Parked s i
  rested : ∀ i < p.numCores, i ≠ 0 → Before p s.region i → Resting s i
  uncalled : Uncalled s s.region

/-- What `set_event` has stored when core 0 is at a point of it. -/
inductive SetPc (p : TeamProgram) (s : TeamState) : TaskPc → Prop
  | setData (hfn : s.event.fn = s.region) : SetPc p s .setData
  | setNthreads (hfn : s.event.fn = s.region) (hdata : s.event.data = s.region) :
      SetPc p s .setNthreads
  | setBarrier (hfn : s.event.fn = s.region) (hdata : s.event.data = s.region)
      (hn : s.event.nthreads = p.team s.region) : SetPc p s .setBarrier
  | setPool (j : Nat) (hj : j ≤ p.numCores) (hfn : s.event.fn = s.region)
      (hdata : s.event.data = s.region) (hn : s.event.nthreads = p.team s.region)
      (hbarrier : s.event.barrier = p.team s.region)
      (hpool : ∀ i < j, s.event.threadPool i = if i < p.team s.region then 1 else 0) :
      SetPc p s (.setPool j)
  | wakeUpAll (h : Published p s) (hbarrier : s.event.barrier = p.team s.region) :
      SetPc p s (.wakeUpAll (.wfi .test))

/-- Core 0 is in `set_event`, and the new team rests. -/
structure Setting (p : TeamProgram) (s : TeamState) : Prop where
  pc : SetPc p s (s.core 0).pc
  wakeUp : (s.core 0).wakeUp = 0
  inFlight : (s.core 0).inFlight = 0
  members : ∀ i, i ≠ 0 → i < p.team s.region → Resting s i
  outside : ∀ i, p.team s.region ≤ i → i < p.numCores → Parked s i
  uncalled : Uncalled s s.region

inductive TeamStage (p : TeamProgram) (s : TeamState) : Prop
  | between (h : Between p s)
  | setting (hk : s.region < p.calls.length) (h : Setting p s)
  | running (hk : s.region < p.calls.length) (v : Nat → Nat × TaskPc) (W : Nat)
      (h : Running p s v W)

section Stages

variable {p : TeamProgram} {s s' : TeamState} {v : Nat → Nat × TaskPc} {W i : Nat} {c : TaskCore}

theorem core_setCore (s : TeamState) (i m : Nat) (c : TaskCore) (hmi : m ≠ i) :
    (s.setCore i c).core m = s.core m := Function.update_of_ne hmi ..

theorem Between.other (h : Between p s) (hi : i ≠ 0) (hpark : Parked (s.setCore i c) i)
    (hrest : Before p s.region i → Resting (s.setCore i c) i) : Between p (s.setCore i c) where
  pc := by rw [core_setCore _ _ _ _ (Ne.symm hi)]; exact h.pc
  wakeUp := by rw [core_setCore _ _ _ _ (Ne.symm hi)]; exact h.wakeUp
  inFlight := by rw [core_setCore _ _ _ _ (Ne.symm hi)]; exact h.inFlight
  others := by
    intro m hm hm0
    by_cases hmi : m = i
    · rw [hmi]
      exact hpark
    · exact (h.others m hm hm0).congr (core_setCore s i m c hmi) rfl
  rested := by
    intro m hm hm0 hbefore
    by_cases hmi : m = i
    · subst hmi
      exact hrest hbefore
    · exact (h.rested m hm hm0 hbefore).congr (core_setCore s i m c hmi)
  uncalled := h.uncalled

theorem SetPc.congr {pc : TaskPc} (h : SetPc p s pc) (hevent : s'.event = s.event)
    (hregion : s'.region = s.region) : SetPc p s' pc := by
  cases h with
  | setData hfn => exact .setData (by rw [hevent, hregion]; exact hfn)
  | setNthreads hfn hdata =>
      exact .setNthreads (by rw [hevent, hregion]; exact hfn) (by rw [hevent, hregion]; exact hdata)
  | setBarrier hfn hdata hn =>
      exact .setBarrier (by rw [hevent, hregion]; exact hfn) (by rw [hevent, hregion]; exact hdata)
        (by rw [hevent, hregion]; exact hn)
  | setPool j hj hfn hdata hn hbarrier hpool =>
      exact .setPool j hj (by rw [hevent, hregion]; exact hfn)
        (by rw [hevent, hregion]; exact hdata) (by rw [hevent, hregion]; exact hn)
        (by rw [hevent, hregion]; exact hbarrier) (by rw [hevent, hregion]; exact hpool)
  | wakeUpAll h hbarrier =>
      exact .wakeUpAll ⟨by rw [hevent, hregion]; exact h.fn, by rw [hevent, hregion]; exact h.data,
        by rw [hevent, hregion]; exact h.nthreads, by rw [hevent, hregion]; exact h.pool⟩
        (by rw [hevent, hregion]; exact hbarrier)

theorem Setting.other (h : Setting p s) (hi : i ≠ 0)
    (hrest : i < p.team s.region → Resting (s.setCore i c) i)
    (hpark : p.team s.region ≤ i → Parked (s.setCore i c) i) : Setting p (s.setCore i c) where
  pc := by
    rw [core_setCore _ _ _ _ (Ne.symm hi)]
    exact h.pc.congr rfl rfl
  wakeUp := by rw [core_setCore _ _ _ _ (Ne.symm hi)]; exact h.wakeUp
  inFlight := by rw [core_setCore _ _ _ _ (Ne.symm hi)]; exact h.inFlight
  members := by
    intro m hm0 hm
    by_cases hmi : m = i
    · subst hmi
      exact hrest hm
    · exact (h.members m hm0 hm).congr (core_setCore s i m c hmi)
  outside := by
    intro m hm hmN
    by_cases hmi : m = i
    · subst hmi
      exact hpark hm
    · exact (h.outside m hm hmN).congr (core_setCore s i m c hmi) rfl
  uncalled := h.uncalled

/-- A store of `set_event`, behind which core 0 goes on. -/
theorem Setting.store {q : TaskPc} (h : Setting p s) (hn : 0 < p.team s.region)
    (hregion : s'.region = s.region) (hcore0 : s'.core 0 = { s.core 0 with pc := q })
    (hcore : ∀ m, m ≠ 0 → s'.core m = s.core m) (hbegun : s'.begun = s.begun)
    (hended : s'.ended = s.ended) (hpc : SetPc p s' q)
    (hpool : ∀ i, p.team s.region ≤ i → s'.event.threadPool i = s.event.threadPool i ∨
      s'.event.threadPool i = 0) : Setting p s' where
  pc := by rw [hcore0]; exact hpc
  wakeUp := by rw [hcore0]; exact h.wakeUp
  inFlight := by rw [hcore0]; exact h.inFlight
  members := by
    rw [hregion]
    exact fun m hm0 hm => (h.members m hm0 hm).congr (hcore m hm0)
  outside := by
    rw [hregion]
    intro m hm hmN
    have hm0 : m ≠ 0 := by omega
    rcases h.outside m hm hmN with hrest | ⟨hloop, hzero⟩
    · exact .inl (hrest.congr (hcore m hm0))
    · refine .inr ⟨by rw [hcore m hm0]; exact hloop, ?_⟩
      rcases hpool m hm with hsame | hclear
      · exact hsame.trans hzero
      · exact hclear
  uncalled := by
    rw [hregion]
    exact fun i => ⟨(calls_congr hbegun i _).trans (h.uncalled i).1,
      (returns_congr hended i _).trans (h.uncalled i).2⟩

/-- The team starts. -/
theorem Setting.start (h : Setting p s) (hn : 0 < p.team s.region)
    (hN : p.team s.region ≤ p.numCores) (hat : (s.core 0).pc = .wakeUpAll (.wfi .test))
    (hpub : Published p s) (hbarrier : s.event.barrier = p.team s.region) :
    Running p (p.stepCore s 0) (fun _ => (0, .wfi .test)) 1 := by
  simp only [TeamProgram.stepCore, hat]
  refine ⟨⟨hpub.fn, hpub.data, hpub.nthreads, hpub.pool⟩, ?_, ?_, ?_, ?_⟩
  · show s.event.barrier + _ = _
    rw [tally_eq_zero.mpr fun _ _ => rfl]
    exact hbarrier
  · intro m hm
    have hmN : m < p.numCores := Nat.lt_of_lt_of_le hm hN
    have hcalls := h.uncalled m
    by_cases hm0 : m = 0
    · subst hm0
      have hw := h.wakeUp
      have hf := h.inFlight
      refine ⟨.wait, ?_, ?_, hcalls.1, hcalls.2⟩
      · simp only [Function.update_self, hmN, if_true]
      · simp only [Function.update_self, hmN, if_true]
        omega
    · have hrest := h.members m hm0 hm
      have hw := hrest.wakeUp
      have hf := hrest.inFlight
      refine ⟨.wait, ?_, ?_, hcalls.1, hcalls.2⟩
      · simp only [Function.update_of_ne hm0, hmN, if_true]
        exact hrest.pc
      · simp only [Function.update_of_ne hm0, hmN, if_true]
        omega
  · intro m hm hmN
    have hm0 : m ≠ 0 := by
      have : p.team s.region ≤ m := hm
      omega
    have hcalls := h.uncalled m
    refine ⟨?_, hcalls.1, hcalls.2⟩
    simp only [Function.update_of_ne hm0, hmN, if_true]
    rcases h.outside m hm hmN with hrest | ⟨hloop, -⟩
    · exact .inl hrest.pc
    · exact hloop
  · exact .idle 0 (Nat.zero_le _)
      (fun _ _ => ⟨Nat.zero_le _, fun _ => rfl, fun _ h => absurd h (by simp)⟩) nofun

theorem Setting.stepMaster (h : Setting p s) (hk : s.region < p.calls.length)
    (hn : 0 < p.team s.region) (hN : p.team s.region ≤ p.numCores) :
    TeamStage p (p.stepCore s 0) := by
  have hset := h.pc
  generalize hat : (s.core 0).pc = pc at hset
  have hcore := core_goto s 0
  have hothers : ∀ q m, m ≠ 0 → (s.goto 0 q).core m = s.core m := fun _ _ hm =>
    Function.update_of_ne hm ..
  cases hset with
  | setData hfn =>
      simp only [TeamProgram.stepCore, hat]
      exact .setting hk (h.store hn rfl (hcore _) (hothers _) rfl rfl
        (.setNthreads hfn rfl) fun _ _ => .inl rfl)
  | setNthreads hfn hdata =>
      simp only [TeamProgram.stepCore, hat]
      exact .setting hk (h.store hn rfl (hcore _) (hothers _) rfl rfl
        (.setBarrier hfn hdata rfl) fun _ _ => .inl rfl)
  | setBarrier hfn hdata hnthreads =>
      simp only [TeamProgram.stepCore, hat]
      exact .setting hk (h.store hn rfl (hcore _) (hothers _) rfl rfl
        (.setPool 0 (Nat.zero_le _) hfn hdata hnthreads rfl nofun) fun _ _ => .inl rfl)
  | setPool j hj hfn hdata hnthreads hbarrier hpool =>
      simp only [TeamProgram.stepCore, hat]
      split
      · rename_i hlt
        refine .setting hk (h.store hn rfl (hcore _) (hothers _) rfl rfl
          (.setPool (j + 1) hlt hfn hdata hnthreads hbarrier fun m hm => ?_) fun m hm => ?_)
        · show Function.update s.event.threadPool j _ m = _
          by_cases hmj : m = j
          · rw [hmj, Function.update_self, hnthreads]
            rfl
          · rw [Function.update_of_ne hmj]
            exact hpool m (by omega)
        · show Function.update s.event.threadPool j _ m = _ ∨
            Function.update s.event.threadPool j _ m = 0
          by_cases hmj : m = j
          · rw [hmj, Function.update_self, hnthreads, if_neg (by omega)]
            exact .inr rfl
          · rw [Function.update_of_ne hmj]
            exact .inl rfl
      · have hall : ∀ i < p.numCores, s.event.threadPool i = if i < p.team s.region then 1 else 0 :=
          fun i hi => hpool i (by omega)
        exact .setting hk (h.store hn rfl (hcore _) (hothers _) rfl rfl
          (.wakeUpAll ⟨hfn, hdata, hnthreads, hall⟩ hbarrier) fun _ _ => .inl rfl)
  | wakeUpAll hpub hbarrier =>
      have hregion : (p.stepCore s 0).region = s.region := by
        simp only [TeamProgram.stepCore, hat]
      exact .running (by rw [hregion]; exact hk) _ _ (h.start hn hN hat hpub hbarrier)

theorem left_cases {n B k i c : Nat} {pc : TaskPc} (h : MemberPc n B k i c pc)
    (hleft : hasLeft (c, pc) = true) :
    c = 2 * B + 1 ∧ (if i = 0 then pc = .spin else pc = .wfi .test) := by
  cases h with
  | spin h0 => exact ⟨rfl, by rw [if_pos h0]⟩
  | back h0 => exact ⟨rfl, by rw [if_neg h0]⟩
  | wait | test | loadFn | loadData | body _ _ | gompStore _ _ _ | gompWake _ _ _ | gompWait _ _
  | add _ _ | clear _ _ | wake _ _ | sleep _ _ | dec => cases hleft

/-- Everybody has been counted out. -/
theorem Running.all_left (h : Running p s v W) (hzero : s.event.barrier = 0)
    (hi : i < p.team s.region) :
    hasLeft (v i) = true ∧ (v i).1 = 2 * p.barriersOf s.region + 1
      ∧ (s.core i).pc = TeamProgram.afterTask i
      ∧ (s.core i).wakeUp = 0 ∧ (s.core i).inFlight = 0 := by
  have hm := h.members i hi
  have hall := h.left
  rw [hzero, Nat.zero_add] at hall
  have hleft := tally_eq_all.mp hall i hi
  obtain ⟨hc, hpc⟩ := left_cases hm.pc hleft
  have hhigh := h.phase.high
  have htokens := hm.tokens
  refine ⟨hleft, hc, ?_, by omega, by omega⟩
  rw [hm.at_, TeamProgram.afterTask]
  split
  · rename_i h0
    rw [if_pos h0] at hpc
    exact hpc
  · rename_i h0
    rw [if_neg h0] at hpc
    exact hpc

/-- When everybody has been counted out, each member has called the function once. -/
theorem Running.once (h : Running p s v W) (hzero : s.event.barrier = 0)
    (hi : i < p.team s.region) : s.calls i s.region = 1 ∧ s.returns i s.region = 1 := by
  obtain ⟨-, hc, hpc, -⟩ := h.all_left hzero hi
  have hm := h.members i hi
  have hx : v i = (2 * p.barriersOf s.region + 1, TeamProgram.afterTask i) :=
    Prod.ext hc (hm.at_.symm.trans hpc)
  have hflags : hasBegun (v i) = true ∧ hasEnded (v i) = true := by
    rw [hx, TeamProgram.afterTask]
    split
    · exact ⟨rfl, rfl⟩
    · exact ⟨(back_flags (by omega)).1, (back_flags (by omega)).2.1⟩
  exact ⟨by rw [hm.calls, hflags.1]; rfl, by rw [hm.returns, hflags.2]; rfl⟩

theorem Running.rests (h : Running p s v W) (hzero : s.event.barrier = 0)
    (hi : i < p.team s.region) (h0 : i ≠ 0) : Resting s i := by
  obtain ⟨-, -, hpc, hw, hf⟩ := h.all_left hzero hi
  rw [TeamProgram.afterTask, if_neg h0] at hpc
  exact ⟨hpc, hw, hf⟩

theorem Running.finish (h : Running p s v W) (hn : 0 < p.team s.region)
    (hzero : s.event.barrier = 0) (huncalled : Uncalled s (s.region + 1)) :
    Between p { s.goto 0 (p.nextCall (s.region + 1)) with region := s.region + 1 } := by
  have hcore := core_goto s 0 (p.nextCall (s.region + 1))
  obtain ⟨-, -, -, hw, hf⟩ := h.all_left hzero hn
  refine ⟨congrArg TaskCore.pc hcore, (congrArg TaskCore.wakeUp hcore).trans hw,
    (congrArg TaskCore.inFlight hcore).trans hf, fun m hm hm0 => ?_, fun m hm hm0 hbefore => ?_,
    huncalled⟩
  · have hpark : Parked s m := by
      by_cases hmn : m < p.team s.region
      · exact .inl (h.rests hzero hmn hm0)
      · refine .inr ⟨(h.outside m (by omega) hm).pc, ?_⟩
        rw [h.published.pool m hm, if_neg hmn]
    exact hpark.congr (Function.update_of_ne hm0 ..) rfl
  · rcases hbefore with hfirst | hmn
    · exact absurd hfirst (Nat.succ_ne_zero _)
    · exact (h.rests hzero hmn hm0).congr (Function.update_of_ne hm0 ..)

/-- When core 0 calls `set_event`, the other cores of the new team rest. -/
def Drained (p : TeamProgram) (s : TeamState) : Prop :=
  ∀ i, i ≠ 0 → i < p.team s.region → Resting s i

/-- The condition on a step. -/
def StepOk (p : TeamProgram) (s : TeamState) : TeamEvent → Prop
  | .core i => i = 0 → (s.core 0).pc = .setFn → Drained p s
  | .pulse _ => True

theorem setCore_self (s : TeamState) (i : Nat) : s.setCore i (s.core i) = s := by
  rw [TeamState.setCore, Function.update_eq_self]

theorem Between.stepMaster (h : Between p s) (hn : s.region < p.calls.length → 0 < p.team s.region)
    (hok : StepOk p s (.core 0)) : TeamStage p (p.stepCore s 0) := by
  have hpc := h.pc
  rw [TeamProgram.nextCall] at hpc
  split at hpc
  · rename_i hk
    have hdrained := hok rfl hpc
    have hcore := core_goto s 0 .setData
    simp only [TeamProgram.stepCore, hpc]
    refine .setting hk ⟨?_, (congrArg TaskCore.wakeUp hcore).trans h.wakeUp,
      (congrArg TaskCore.inFlight hcore).trans h.inFlight, fun m hm0 hm => ?_, fun m hm hmN => ?_,
      h.uncalled⟩
    · rw [show (({ s.goto 0 .setData with event.fn := s.region } : TeamState).core 0).pc = .setData
        from congrArg TaskCore.pc hcore]
      exact .setData rfl
    · exact (hdrained m hm0 hm).congr (Function.update_of_ne hm0 ..)
    · have hm0 : m ≠ 0 := by
        have := hn hk
        have : p.team s.region ≤ m := hm
        omega
      exact (h.others m hmN hm0).congr (Function.update_of_ne hm0 ..) rfl
  · simp only [TeamProgram.stepCore, hpc]
    exact .between h

theorem stepCore_region (h : ¬ ((s.core i).pc = .spin ∧ s.event.barrier = 0)) :
    (p.stepCore s i).region = s.region := by
  generalize hat : (s.core i).pc = pc at h
  cases pc with
  | spin =>
      have hpos : 0 < s.event.barrier := Nat.pos_of_ne_zero fun hzero => h ⟨rfl, hzero⟩
      simp only [TeamProgram.stepCore, hat, gt_iff_lt, hpos, if_true]
  | setPool j =>
      simp only [TeamProgram.stepCore, hat]
      split <;> rfl
  | wfi next =>
      simp only [TeamProgram.stepCore, hat]
      split <;> rfl
  | body f =>
      simp only [TeamProgram.stepCore, hat]
      split <;> rfl
  | _ => simp only [TeamProgram.stepCore, hat] <;> rfl

theorem TeamStage.stepCore (h : TeamStage p s)
    (hn : s.region < p.calls.length → 0 < p.team s.region) (hteam : p.team s.region ≤ p.numCores)
    (hN : p.numCores < 2 ^ 32) (huncalled : Uncalled s (s.region + 1)) (hi : i < p.numCores)
    (hok : StepOk p s (.core i)) : TeamStage p (p.stepCore s i) := by
  cases h with
  | between h =>
      by_cases h0 : i = 0
      · subst h0
        exact h.stepMaster hn hok
      · by_cases hbefore : Before p s.region i
        · obtain ⟨c, hc, hrest⟩ := (h.rested i hi h0 hbefore).step (p := p)
          rw [hc]
          exact .between (h.other h0 (.inl hrest) fun _ => hrest)
        · obtain ⟨c, hc, hpark⟩ := (h.others i hi h0).step (p := p) h0
          rw [hc]
          exact .between (h.other h0 hpark fun h => (hbefore h).elim)
  | setting hk h =>
      by_cases h0 : i = 0
      · subst h0
        exact h.stepMaster hk (hn hk) hteam
      · by_cases hmem : i < p.team s.region
        · obtain ⟨c, hc, hrest⟩ := (h.members i h0 hmem).step (p := p)
          rw [hc]
          exact .setting hk (h.other h0 (fun _ => hrest) fun hge => by omega)
        · obtain ⟨c, hc, hpark⟩ := (h.outside i (by omega) hi).step (p := p) h0
          rw [hc]
          exact .setting hk (h.other h0 (fun hlt => by omega) fun _ => hpark)
  | running hk v W h =>
      by_cases hmem : i < p.team s.region
      · by_cases hspin : (s.core i).pc = .spin ∧ s.event.barrier = 0
        · obtain ⟨hat, hzero⟩ := hspin
          obtain ⟨-, -, hpc, -⟩ := h.all_left hzero hmem
          have h0 : i = 0 := by
            rw [hat, TeamProgram.afterTask] at hpc
            by_contra h0
            rw [if_neg h0] at hpc
            cases hpc
          subst h0
          simp only [TeamProgram.stepCore, hat, hzero, gt_iff_lt, lt_self_iff_false, if_false]
          exact .between (h.finish (hn hk) hzero huncalled)
        · obtain ⟨v', W', h'⟩ := h.stepMember hteam hN hmem fun hat =>
            Nat.pos_of_ne_zero fun hzero => hspin ⟨hat, hzero⟩
          exact .running (by rw [stepCore_region hspin]; exact hk) v' W' h'
      · have hout := h.outside i (by omega) hi
        have hpool : s.event.threadPool i = 0 := by
          rw [h.published.pool i hi, if_neg hmem]
        have h0 : i ≠ 0 := by
          have := hn hk
          omega
        obtain ⟨c, hc, hpc⟩ := loop_step (p := p) h0 hout.pc hpool
        rw [hc]
        refine .running hk v W (h.outsider (by omega) (Frame.goto s i c) rfl rfl ?_ rfl rfl)
        rw [show (s.setCore i c).core i = c from Function.update_self ..]
        exact hpc

theorem TeamStage.pulse (h : TeamStage p s) (hi : i < p.numCores)
    (hasleep : (s.core i).asleep = true → (s.core i).pc.isWfi = true) :
    TeamStage p (s.setCore i (TeamProgram.pulse (s.core i))) := by
  cases h with
  | between h =>
      by_cases h0 : i = 0
      · subst h0
        rw [TeamProgram.pulse, if_pos h.inFlight, setCore_self]
        exact .between h
      · refine .between (h.other h0 (h.others i hi h0).pulse fun hbefore => ?_)
        have hrest := h.rested i hi h0 hbefore
        rw [hrest.pulse, setCore_self]
        exact hrest
  | setting hk h =>
      by_cases h0 : i = 0
      · subst h0
        rw [TeamProgram.pulse, if_pos h.inFlight, setCore_self]
        exact .setting hk h
      · refine .setting hk (h.other h0 (fun hlt => ?_) fun hge => (h.outside i hge hi).pulse)
        have hrest := h.members i h0 hlt
        rw [hrest.pulse, setCore_self]
        exact hrest
  | running hk v W h =>
      by_cases hmem : i < p.team s.region
      · obtain ⟨v', W', h'⟩ := h.pulseMember hmem hasleep
        exact .running hk v' W' h'
      · refine .running hk v W (h.outsider (by omega) (Frame.goto s i _) rfl rfl ?_ rfl rfl)
        rw [show (s.setCore i (TeamProgram.pulse (s.core i))).core i
          = TeamProgram.pulse (s.core i) from Function.update_self ..]
        exact loop_pulse (h.outside i (by omega) hi).pc

/-- The function a core is about to call, or is in, is the one of the region. -/
theorem TeamStage.own (h : TeamStage p s) (hi : i < p.numCores) :
    (∀ fn, (s.core i).pc = .loadData fn → fn = s.region ∧ s.event.data = s.region) ∧
      ∀ f, (s.core i).pc = .body f → f.fn = s.region ∧ f.data = s.region := by
  have hloop : (s.core i).pc = .wfi .test ∨ (s.core i).pc = .test →
      (∀ fn, (s.core i).pc = .loadData fn → fn = s.region ∧ s.event.data = s.region) ∧
      ∀ f, (s.core i).pc = .body f → f.fn = s.region ∧ f.data = s.region := by
    rintro (hat | hat) <;> rw [hat] <;> exact ⟨nofun, nofun⟩
  have hpark : Parked s i → (s.core i).pc = .wfi .test ∨ (s.core i).pc = .test := by
    rintro (hrest | ⟨hpc, -⟩)
    · exact .inl hrest.pc
    · exact hpc
  cases h with
  | between h =>
      by_cases h0 : i = 0
      · subst h0
        rw [h.pc, TeamProgram.nextCall]
        split <;> exact ⟨nofun, nofun⟩
      · exact hloop (hpark (h.others i hi h0))
  | setting hk h =>
      by_cases h0 : i = 0
      · subst h0
        have hset := h.pc
        generalize (s.core 0).pc = pc at hset
        cases hset <;> exact ⟨nofun, nofun⟩
      · by_cases hmem : i < p.team s.region
        · exact hloop (.inl (h.members i h0 hmem).pc)
        · exact hloop (hpark (h.outside i (by omega) hi))
  | running hk v W h =>
      by_cases hmem : i < p.team s.region
      · have hm := h.members i hmem
        refine ⟨fun fn hat => ⟨?_, h.published.data⟩, fun f hat => ?_⟩
        · have hleg := hm.pc
          rw [hm.at_.symm.trans hat] at hleg
          generalize (v i).1 = c at hleg
          cases hleg with
          | loadData => rfl
        · have hleg := hm.pc
          rw [hm.at_.symm.trans hat] at hleg
          generalize (v i).1 = c at hleg
          cases hleg with
          | body j hj => exact ⟨rfl, rfl⟩
      · exact hloop (h.outside i (by omega) hi).pc

/-- When `GOMP_parallel_end` finds the counter at zero, the team has run the region. -/
theorem TeamStage.once (h : TeamStage p s) (hi : i < p.numCores) (hat : (s.core i).pc = .spin)
    (hzero : s.event.barrier = 0) (m : Nat) (hm : m < p.numCores) :
    s.calls m s.region = (if m < p.team s.region then 1 else 0) ∧
      s.returns m s.region = if m < p.team s.region then 1 else 0 := by
  have hnotLoop : ¬ ((s.core i).pc = .wfi .test ∨ (s.core i).pc = .test) := by
    rw [hat]
    rintro (h | h) <;> cases h
  have hnotParked : ¬ Parked s i := by
    rintro (hrest | ⟨hpc, -⟩)
    · exact hnotLoop (.inl hrest.pc)
    · exact hnotLoop hpc
  cases h with
  | between h =>
      by_cases h0 : i = 0
      · subst h0
        rw [h.pc, TeamProgram.nextCall] at hat
        split at hat <;> cases hat
      · exact (hnotParked (h.others i hi h0)).elim
  | setting hk h =>
      by_cases h0 : i = 0
      · subst h0
        have hset := h.pc
        rw [hat] at hset
        cases hset
      · by_cases hmem : i < p.team s.region
        · exact (hnotLoop (.inl (h.members i h0 hmem).pc)).elim
        · exact (hnotParked (h.outside i (by omega) hi)).elim
  | running hk v W h =>
      by_cases hmem : m < p.team s.region
      · rw [if_pos hmem]
        exact h.once hzero hmem
      · rw [if_neg hmem]
        have hout := h.outside m (by omega) hm
        exact ⟨hout.calls, hout.returns⟩

end Stages

/-! ## Whole runs -/

/-- The calls of the regions that are over, and of those that have not begun. -/
structure Logs (p : TeamProgram) (s : TeamState) : Prop where
  past : ∀ k < s.region, ∀ i < p.numCores,
    s.calls i k = (if i < p.team k then 1 else 0) ∧ s.returns i k = if i < p.team k then 1 else 0
  future : ∀ k, s.region < k → Uncalled s k
  whole : ∀ e ∈ s.begun, e.2.1 = e.2.2

structure TeamInv (p : TeamProgram) (s : TeamState) : Prop where
  stage : TeamStage p s
  logs : Logs p s
  asleep : ∀ i, (s.core i).asleep = true → (s.core i).pc.isWfi = true

section Runs

variable {p : TeamProgram} {s s' : TeamState} {i k : Nat}

/-- A step adds to the logs at most a call, or a return, of the core that makes it. -/
theorem stepCore_begun (p : TeamProgram) (s : TeamState) (i : Nat) :
    (p.stepCore s i).begun = s.begun ∨
      ∃ fn, (s.core i).pc = .loadData fn ∧
        (p.stepCore s i).begun = s.begun ++ [(i, fn, s.event.data)] := by
  generalize hat : (s.core i).pc = pc
  cases pc with
  | loadData fn => exact .inr ⟨fn, rfl, by simp only [TeamProgram.stepCore, hat]⟩
  | setPool j | wfi next | body f | spin =>
      simp only [TeamProgram.stepCore, hat]
      split <;> exact .inl rfl
  | _ =>
      refine .inl ?_
      simp only [TeamProgram.stepCore, hat] <;> rfl

theorem stepCore_ended (p : TeamProgram) (s : TeamState) (i : Nat) :
    (p.stepCore s i).ended = s.ended ∨
      ∃ f, (s.core i).pc = .body f ∧
        (p.stepCore s i).ended = s.ended ++ [(i, f.fn, f.data)] := by
  generalize hat : (s.core i).pc = pc
  cases pc with
  | body f =>
      simp only [TeamProgram.stepCore, hat]
      split
      · exact .inr ⟨f, rfl, rfl⟩
      · exact .inl rfl
  | setPool j | wfi next | spin =>
      simp only [TeamProgram.stepCore, hat]
      split <;> exact .inl rfl
  | _ =>
      refine .inl ?_
      simp only [TeamProgram.stepCore, hat] <;> rfl

/-- A core that a step puts to sleep is at a WFI. -/
theorem stepCore_asleep (hasleep : ∀ m, (s.core m).asleep = true → (s.core m).pc.isWfi = true)
    (hawake : (s.core i).asleep = false) (m : Nat)
    (hm : ((p.stepCore s i).core m).asleep = true) :
    ((p.stepCore s i).core m).pc.isWfi = true := by
  have hgoto : ∀ q m, ((s.goto i q).core m).asleep = true →
    ((s.goto i q).core m).pc.isWfi = true := by
    intro q m hm
    by_cases hmi : m = i
    · rw [hmi, core_goto] at hm
      exact absurd (hm.symm.trans hawake) (by decide)
    · rw [show (s.goto i q).core m = s.core m from Function.update_of_ne hmi ..] at hm ⊢
      exact hasleep m hm
  have hset : ∀ c : TaskCore, (c.asleep = true → c.pc.isWfi = true) →
      ((s.setCore i c).core m).asleep = true → ((s.setCore i c).core m).pc.isWfi = true := by
    intro c hc hm
    by_cases hmi : m = i
    · rw [hmi, show (s.setCore i c).core i = c from Function.update_self ..] at hm ⊢
      exact hc hm
    · rw [core_setCore s i m c hmi] at hm ⊢
      exact hasleep m hm
  generalize hat : (s.core i).pc = pc
  cases pc with
  | wfi next =>
      rw [stepCore_wfi hat] at hm ⊢
      split at hm
      · rename_i hpos
        rw [if_pos hpos]
        exact hset _ (fun h => absurd (h.symm.trans hawake) (by decide)) hm
      · rename_i hzero
        rw [if_neg hzero]
        exact hset _ (fun _ => by rw [hat]; rfl) hm
  | wakeUpAll next =>
      have hsame : ((p.stepCore s i).core m).asleep = ((s.goto i next).core m).asleep
          ∧ ((p.stepCore s i).core m).pc = ((s.goto i next).core m).pc := by
        simp only [TeamProgram.stepCore, hat]
        split <;> exact ⟨rfl, rfl⟩
      rw [hsame.1] at hm
      rw [hsame.2]
      exact hgoto next m hm
  | setPool j =>
      simp only [TeamProgram.stepCore, hat] at hm ⊢
      split at hm
      · rename_i hlt
        rw [if_pos hlt]
        exact hgoto _ m hm
      · rename_i hge
        rw [if_neg hge]
        exact hgoto _ m hm
  | body f =>
      obtain ⟨fn, data, barriers⟩ := f
      cases barriers with
      | zero | succ b =>
          simp only [TeamProgram.stepCore, hat] at hm ⊢
          exact hgoto _ m hm
  | spin =>
      simp only [TeamProgram.stepCore, hat] at hm ⊢
      split at hm
      · rename_i hpos
        rw [if_pos hpos]
        exact hasleep m hm
      · rename_i hzero
        rw [if_neg hzero]
        exact hgoto _ m hm
  | done =>
      simp only [TeamProgram.stepCore, hat] at hm ⊢
      exact hasleep m hm
  | _ =>
      simp only [TeamProgram.stepCore, hat] at hm ⊢
      exact hgoto _ m hm

theorem calls_step (hs : s'.begun = s.begun ∨ s'.begun = s.begun ++ [(i, s.region, s.region)])
    (hk : k ≠ s.region) (m : Nat) : s'.calls m k = s.calls m k := by
  rcases hs with hs | hs
  · exact calls_congr hs m k
  · rw [TeamState.calls, TeamState.calls, hs, List.count_append, List.count_singleton]
    simp [Ne.symm hk]

theorem returns_step (hs : s'.ended = s.ended ∨ s'.ended = s.ended ++ [(i, s.region, s.region)])
    (hk : k ≠ s.region) (m : Nat) : s'.returns m k = s.returns m k := by
  rcases hs with hs | hs
  · exact returns_congr hs m k
  · rw [TeamState.returns, TeamState.returns, hs, List.count_append, List.count_singleton]
    simp [Ne.symm hk]

/-- A step within a region leaves the logs of the others alone. -/
theorem Logs.step (h : Logs p s) (hregion : s'.region = s.region)
    (hbegun : s'.begun = s.begun ∨ s'.begun = s.begun ++ [(i, s.region, s.region)])
    (hended : s'.ended = s.ended ∨ s'.ended = s.ended ++ [(i, s.region, s.region)]) :
    Logs p s' where
  past := by
    intro k hk m hm
    rw [hregion] at hk
    rw [calls_step hbegun (by omega), returns_step hended (by omega)]
    exact h.past k hk m hm
  future := by
    intro k hk m
    rw [hregion] at hk
    rw [calls_step hbegun (by omega), returns_step hended (by omega)]
    exact h.future k hk m
  whole := by
    intro e he
    rcases hbegun with hs | hs
    · rw [hs] at he
      exact h.whole e he
    · rw [hs, List.mem_append, List.mem_singleton] at he
      rcases he with he | rfl
      · exact h.whole e he
      · rfl

/-- `GOMP_parallel` returns. -/
theorem Logs.finish (h : Logs p s) (hregion : s'.region = s.region + 1)
    (hbegun : s'.begun = s.begun)
    (hended : s'.ended = s.ended)
    (hdone : ∀ i < p.numCores, s.calls i s.region = (if i < p.team s.region then 1 else 0) ∧
      s.returns i s.region = if i < p.team s.region then 1 else 0) : Logs p s' where
  past := by
    intro k hk m hm
    rw [hregion] at hk
    rw [calls_congr hbegun, returns_congr hended]
    by_cases hlast : k = s.region
    · rw [hlast]
      exact hdone m hm
    · exact h.past k (by omega) m hm
  future := by
    intro k hk m
    rw [hregion] at hk
    rw [calls_congr hbegun, returns_congr hended]
    exact h.future k (by omega) m
  whole := by rw [hbegun]; exact h.whole

/-- The numbers of threads are possible on the machine. -/
structure TeamProgram.Valid (p : TeamProgram) : Prop where
  numCores_pos : 0 < p.numCores
  numCores_lt : p.numCores < 2 ^ 32
  numThreads_le : ∀ c ∈ p.calls, c.numThreads ≤ p.numCores

theorem TeamProgram.Valid.team_pos (hp : p.Valid) (hk : k < p.calls.length) : 0 < p.team k := by
  rw [TeamProgram.team, List.getElem?_eq_getElem hk]
  have := hp.numCores_pos
  show 0 < if _ then _ else _
  split <;> omega

theorem TeamProgram.Valid.team_le (hp : p.Valid) (k : Nat) : p.team k ≤ p.numCores := by
  rw [TeamProgram.team]
  split
  · rename_i c hc
    have := hp.numThreads_le c (List.mem_of_getElem? hc)
    split <;> omega
  · exact Nat.zero_le _

theorem TeamInv.stepCore (h : TeamInv p s) (hp : p.Valid) (hi : i < p.numCores)
    (hawake : (s.core i).asleep = false) (hok : StepOk p s (.core i)) :
    TeamInv p (p.stepCore s i) := by
  refine ⟨h.stage.stepCore hp.team_pos (hp.team_le _) hp.numCores_lt
    (h.logs.future _ (Nat.lt_succ_self _)) hi hok, ?_, stepCore_asleep h.asleep hawake⟩
  obtain ⟨hload, hbody⟩ := h.stage.own hi
  by_cases hspin : (s.core i).pc = .spin ∧ s.event.barrier = 0
  · obtain ⟨hat, hzero⟩ := hspin
    have hstep : p.stepCore s i
        = { s.goto i (p.nextCall (s.region + 1)) with region := s.region + 1 } := by
      simp only [TeamProgram.stepCore, hat, hzero, gt_iff_lt, lt_self_iff_false, if_false]
    exact h.logs.finish (by rw [hstep]) (by rw [hstep]; rfl) (by rw [hstep]; rfl)
      (h.stage.once hi hat hzero)
  · refine h.logs.step (i := i) (stepCore_region hspin) ?_ ?_
    · rcases stepCore_begun p s i with hs | ⟨fn, hat, hs⟩
      · exact .inl hs
      · obtain ⟨hfn, hdata⟩ := hload fn hat
        exact .inr (by rw [hs, hfn, hdata])
    · rcases stepCore_ended p s i with hs | ⟨f, hat, hs⟩
      · exact .inl hs
      · obtain ⟨hfn, hdata⟩ := hbody f hat
        exact .inr (by rw [hs, hfn, hdata])

theorem TeamInv.step (h : TeamInv p s) (hp : p.Valid) {e : TeamEvent} (hok : StepOk p s e) :
    TeamInv p (p.step s e) := by
  cases e with
  | core i =>
      rw [TeamProgram.step]
      split
      · rename_i hcond
        exact h.stepCore hp hcond.1 hcond.2 hok
      · exact h
  | pulse i =>
      rw [TeamProgram.step]
      split
      · rename_i hi
        refine ⟨h.stage.pulse hi (h.asleep i), h.logs.step (i := i) rfl (.inl rfl) (.inl rfl), ?_⟩
        intro m hm
        by_cases hmi : m = i
        · rw [hmi, show (s.setCore i (TeamProgram.pulse (s.core i))).core i
            = TeamProgram.pulse (s.core i) from Function.update_self ..] at hm ⊢
          rw [TeamProgram.pulse] at hm ⊢
          split at hm
          · rename_i hnone
            rw [if_pos hnone]
            exact h.asleep i hm
          · rename_i hsome
            rw [if_neg hsome]
            split at hm
            · cases hm
            · rename_i hawake
              exact absurd hm hawake
        · rw [core_setCore s i m _ hmi] at hm ⊢
          exact h.asleep m hm
      · exact h

/-- Every step of a run meets the condition. -/
def RunOk (p : TeamProgram) : TeamState → List TeamEvent → Prop
  | _, [] => True
  | s, e :: es => StepOk p s e ∧ RunOk p (p.step s e) es

theorem TeamInv.run (hp : p.Valid) (events : List TeamEvent) :
    ∀ {s}, TeamInv p s → RunOk p s events → TeamInv p (p.run s events) := by
  induction events with
  | nil => exact fun h _ => h
  | cons e es ih => exact fun h hok => ih (h.step hp hok.1) hok.2

theorem teamInv_start (p : TeamProgram) (event : TaskEvent) (barrier : Nat) :
    TeamInv p (p.start event barrier) := by
  have hrest : ∀ i, i ≠ 0 → Resting (p.start event barrier) i :=
    fun i h0 => ⟨if_neg h0, rfl, rfl⟩
  exact ⟨.between ⟨rfl, rfl, rfl, fun i _ h0 => .inl (hrest i h0), fun i _ h0 _ => hrest i h0,
    fun _ => ⟨rfl, rfl⟩⟩, ⟨nofun, fun _ _ _ => ⟨rfl, rfl⟩, nofun⟩, nofun⟩

/-- Region `k`: no core has called its function with another region's argument, only
members of its team have called it, none of them twice, and when `GOMP_parallel` has
returned each of them has called it and returned from it. -/
structure RunsOnce (p : TeamProgram) (s : TeamState) (k : Nat) : Prop where
  whole : ∀ e ∈ s.begun, e.2.1 = e.2.2
  calls : ∀ i < p.numCores, s.calls i k ≤ if i < p.team k then 1 else 0
  returned : k < s.region → ∀ i < p.numCores,
    s.calls i k = (if i < p.team k then 1 else 0) ∧ s.returns i k = if i < p.team k then 1 else 0

theorem TeamStage.calls_le (h : TeamStage p s) (hi : i < p.numCores) :
    s.calls i s.region ≤ if i < p.team s.region then 1 else 0 := by
  cases h with
  | between h => rw [(h.uncalled i).1]; exact Nat.zero_le _
  | setting _ h => rw [(h.uncalled i).1]; exact Nat.zero_le _
  | running _ v W h =>
      by_cases hmem : i < p.team s.region
      · rw [if_pos hmem, (h.members i hmem).calls]
        exact Bool.toNat_le _
      · rw [(h.outside i (by omega) hi).calls]
        exact Nat.zero_le _

theorem parallel_runs_once (p : TeamProgram) (hp : p.Valid) (event : TaskEvent) (barrier : Nat)
    (events : List TeamEvent) (hok : RunOk p (p.start event barrier) events) (k : Nat) :
    RunsOnce p (p.run (p.start event barrier) events) k := by
  have hinv := (teamInv_start p event barrier).run hp events hok
  generalize p.run (p.start event barrier) events = s at hinv
  refine ⟨hinv.logs.whole, fun i hi => ?_, fun hk => hinv.logs.past k hk⟩
  rcases Nat.lt_trichotomy k s.region with hlt | rfl | hgt
  · exact Nat.le_of_eq (hinv.logs.past k hlt i hi).1
  · exact hinv.stage.calls_le hi
  · rw [(hinv.logs.future k hgt i).1]
    exact Nat.zero_le _

/-! ## Teams that do not grow -/

/-- At `set_event` no region runs. -/
theorem TeamStage.drained (h : TeamStage p s) (hp : p.Valid) (hat : (s.core 0).pc = .setFn)
    (hbefore : ∀ i < p.team s.region, Before p s.region i) : Drained p s := by
  cases h with
  | between h =>
      intro i h0 hi
      exact h.rested i (Nat.lt_of_lt_of_le hi (hp.team_le _)) h0 (hbefore i hi)
  | setting hk h =>
      have hset := h.pc
      rw [hat] at hset
      cases hset
  | running hk v W h =>
      have hm := h.members 0 (hp.team_pos hk)
      have hleg := hm.pc
      rw [hm.at_.symm.trans hat] at hleg
      generalize (v 0).1 = c at hleg
      cases hleg

theorem runOk_of_shrinking (hp : p.Valid)
    (hshrink : ∀ k, k + 1 < p.calls.length → p.team (k + 1) ≤ p.team k) (events : List TeamEvent) :
    ∀ {s}, TeamInv p s → RunOk p s events := by
  have hbefore : ∀ k, ∀ i < p.team k, Before p k i := by
    intro k i hi
    cases k with
    | zero => exact .inl rfl
    | succ k =>
        refine .inr ?_
        by_cases hk : k + 1 < p.calls.length
        · exact Nat.lt_of_lt_of_le hi (hshrink k hk)
        · rw [TeamProgram.team, List.getElem?_eq_none (by omega)] at hi
          exact absurd hi (Nat.not_lt_zero _)
  induction events with
  | nil => exact fun _ => trivial
  | cons e es ih =>
      intro s h
      have hok : StepOk p s e := by
        cases e with
        | core i => exact fun _ hat => h.stage.drained hp hat (hbefore _)
        | pulse i => trivial
      exact ⟨hok, ih (h.step hp hok)⟩

/-- The event record before the first call. -/
def bootEvent : TaskEvent := ⟨0, 0, 0, 0, fun _ => 0⟩

/-- Two regions of one barrier, on two cores and then on one. -/
def shrinkingTeam : TeamProgram := ⟨2, [⟨0, 1⟩, ⟨1, 0⟩]⟩

theorem shrinkingTeam_valid : shrinkingTeam.Valid := ⟨by decide, by decide, by decide⟩

def cores (i n : Nat) : List TeamEvent := List.replicate n (.core i)

/-- The first of the two regions. -/
def shrinkingRun : List TeamEvent :=
  cores 0 8 ++ [.pulse 0, .pulse 1] ++ cores 0 7 ++ cores 1 5 ++ [.pulse 0, .pulse 1] ++
    cores 0 3 ++ cores 1 5 ++ [.pulse 0, .pulse 1] ++ cores 0 4 ++ cores 1 4 ++ cores 0 2

theorem parallel_runs_once_shrinkingTeam :
    (shrinkingTeam.run (shrinkingTeam.start bootEvent 0) shrinkingRun).region = 1 ∧
      RunsOnce shrinkingTeam (shrinkingTeam.run (shrinkingTeam.start bootEvent 0) shrinkingRun) 0 :=
  ⟨by decide +kernel, parallel_runs_once shrinkingTeam shrinkingTeam_valid bootEvent 0 shrinkingRun
    (runOk_of_shrinking shrinkingTeam_valid (fun k hk => by
      obtain rfl : k = 0 := by
        have : k + 1 < 2 := hk
        omega
      decide) _ (teamInv_start _ _ _)) 0⟩

/-- A region on one core, then one on both. -/
def growingTeam : TeamProgram := ⟨2, [⟨1, 0⟩, ⟨2, 0⟩]⟩

/-- Core 1 gets to the test of `run_task` for the first region when the second one has
been set up, and once more for the second. -/
def growingRun : List TeamEvent :=
  cores 0 8 ++ [.pulse 0, .pulse 1] ++ cores 0 7 ++ cores 1 1 ++ cores 0 7 ++ cores 1 5 ++
    cores 0 1 ++ [.pulse 0, .pulse 1] ++ cores 1 4 ++ cores 0 7

/-- Core 1 calls the function of the second region twice, and `GOMP_parallel` returns
during the second call. -/
theorem parallel_runs_twice :
    (growingTeam.run (growingTeam.start bootEvent 0) growingRun).region = 2 ∧
      (growingTeam.run (growingTeam.start bootEvent 0) growingRun).calls 1 1 = 2 ∧
      (growingTeam.run (growingTeam.start bootEvent 0) growingRun).returns 1 1 = 1 ∧
      ¬ RunsOnce growingTeam (growingTeam.run (growingTeam.start bootEvent 0) growingRun) 1 := by
  have hcalls : (growingTeam.run (growingTeam.start bootEvent 0) growingRun).calls 1 1 = 2 := by
    decide +kernel
  refine ⟨by decide +kernel, hcalls, by decide +kernel, fun h => ?_⟩
  have hle := h.calls 1 (by decide)
  rw [hcalls] at hle
  exact absurd hle (by decide)

end Runs

end TeraNoC.Runtime
