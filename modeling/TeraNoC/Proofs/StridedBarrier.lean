import TeraNoC.Proofs.PlainBarrier

/-!
# Strided barriers side by side

The classes of a stride have counters of their own, but the last core of a class
wakes it through registers that all classes share: it sets stride and offset, wakes
"all" cores, and sets the registers back. Two such sequences that overlap wake the
wrong cores. In a run in which no core begins its sequence while another is inside
its own (`Alone`), the classes are independent barriers: each is a counter barrier
on its own class, and the steps of the other classes do not touch it.
-/

namespace TeraNoC.Runtime

open TeraNoC.Hw TeraNoC.Lib.CounterBarrier

namespace StridedState

/-- Between the first and the last of the writes that wake a class. -/
def inSequence : StridedPc → Bool
  | .setWakeUpOffset | .wakeUpAll | .resetWakeUpStride | .resetWakeUpOffset => true
  | _ => false

/-- Core `i` does not begin to wake its class while another core is waking its own. -/
def Alone (w : WakeParams) (s : StridedState) (i : Nat) : Prop :=
  s.pc i = .setWakeUpStride → ∀ j < w.numCores, inSequence (s.pc j) = false

/-- The cores of every class are woken by the closings of their own class only, once
for each, and after all cores of the class have entered the episode. -/
structure Independent (w : WakeParams) (stride : Nat) (s : StridedState) : Prop where
  own : ∀ i < w.numCores, ∀ x ∈ s.taken i ++ s.tokens i, x.1 = i % stride
  once : ∀ i < w.numCores,
    (s.taken i ++ s.tokens i).map Prod.snd = List.range (s.wakes (i % stride))
  arrived : ∀ i < w.numCores, ∀ x ∈ s.taken i ++ s.tokens i,
    ∀ j ∈ classOf w stride x.1, x.2 < s.entered j
  current : ∀ i < w.numCores, s.entered i ≤ s.wakes (i % stride) + 1

def posOf : StridedPc → Pos
  | .idle => .idle
  | .fetchAdd => .add
  | .store => .clear
  | .setWakeUpStride | .setWakeUpOffset | .wakeUpAll => .wake
  | .resetWakeUpStride | .resetWakeUpOffset | .wfi => .wfi

/-- The state as one class sees it. -/
def abs (s : StridedState) (offset : Nat) : State Nat where
  pos i := posOf (s.pc i)
  tokens i := (s.tokens i).map Prod.snd
  taken i := (s.taken i).map Prod.snd
  count := s.barrier offset
  entered := s.entered
  wakes := s.wakes offset

variable {c : Cluster} {stride : Nat} {s : StridedState} {i : Nat}

theorem mem_classOf {offset j : Nat} :
    j ∈ classOf c.toWakeParams stride offset ↔ j < c.numCores ∧ j % stride = offset := by
  rw [classOf, Finset.mem_filter, Finset.mem_range]

/-- The selection of a stride and an offset below it is the class. -/
theorem strided_iff {offset j : Nat} (ho : offset < stride) :
    strided stride offset j = true ↔ j % stride = offset := by
  rw [strided, Bool.and_eq_true, decide_eq_true_eq, decide_eq_true_eq]
  constructor
  · rintro ⟨hle, hmod⟩
    obtain ⟨k, hk⟩ := Nat.dvd_of_mod_eq_zero hmod
    obtain rfl : j = offset + stride * k := by omega
    rw [Nat.add_mul_mod_self_left, Nat.mod_eq_of_lt ho]
  · intro h
    have hdiv := Nat.div_add_mod j stride
    rw [h] at hdiv
    refine ⟨by omega, ?_⟩
    rw [show j - offset = stride * (j / stride) by omega, Nat.mul_mod_right]

/-! ## Writes to the registers -/

theorem write_strd_tokens (offset v : Nat) :
    (s.write c.toWakeParams offset (.wakeUpStrd v)).tokens = s.tokens := by
  funext j
  simp only [write, WakeParams.wakeUpO_next]
  simp [WakeParams.wakes]

theorem write_offst_tokens (offset v : Nat) :
    (s.write c.toWakeParams offset (.wakeUpOffst v)).tokens = s.tokens := by
  funext j
  simp only [write, WakeParams.wakeUpO_next]
  simp [WakeParams.wakes]

/-- `wake_up_all` reaches the class that is selected. -/
theorem write_wakeUp_tokens {offset : Nat} (ho : offset < stride)
    (hmask : s.ctrl.nextMask = strided stride offset) (j : Nat) :
    (s.write c.toWakeParams offset (.wakeUp allCores)).tokens j =
      if j ∈ classOf c.toWakeParams stride offset then
        s.tokens j ++ [(offset, s.wakes offset)] else s.tokens j := by
  have hiff : (j < c.numCores ∧
      c.wakeUpO (s.ctrl.next (some (.wakeUp allCores))) j = true) ↔
        j ∈ classOf c.toWakeParams stride offset := by
    rw [WakeParams.wakeUpO_next, Option.any_some, PlainState.allCores_wakes, Bool.true_and, hmask,
      strided_iff ho, mem_classOf]
  simp only [write, hiff]

/-! ## The invariant -/

structure Inv (c : Cluster) (stride : Nat) (s : StridedState) : Prop where
  agrees : ∀ i < c.numCores,
    (s.abs (i % stride)).Agrees (classOf c.toWakeParams stride (i % stride))
  own : ∀ i < c.numCores, ∀ x ∈ s.taken i ++ s.tokens i, x.1 = i % stride
  unique : ∀ i < c.numCores, ∀ j < c.numCores, inSequence (s.pc i) = true →
    inSequence (s.pc j) = true → i = j
  strd : ∀ i < c.numCores, s.pc i = .setWakeUpOffset → s.ctrl.wakeUpStrd = stride
  mask : ∀ i < c.numCores, s.pc i = .wakeUpAll → s.ctrl.nextMask = strided stride (i % stride)

/-- What a step of core `i` leaves alone. -/
structure Frame (c : Cluster) (stride : Nat) (s s' : StridedState) (i : Nat) : Prop where
  pc : ∀ j, j ≠ i → s'.pc j = s.pc j
  taken : ∀ j, j ≠ i → s'.taken j = s.taken j
  entered : ∀ j, j ≠ i → s'.entered j = s.entered j
  tokens : ∀ j < c.numCores, j % stride ≠ i % stride → s'.tokens j = s.tokens j
  barrier : ∀ o, o ≠ i % stride → s'.barrier o = s.barrier o
  wakes : ∀ o, o ≠ i % stride → s'.wakes o = s.wakes o

/-- The other classes are not affected, so a step is one of its own class. -/
theorem Frame.agrees {s' : StridedState} (hf : Frame c stride s s' i) (hi : i < c.numCores)
    (h : ∀ k < c.numCores, (s.abs (k % stride)).Agrees (classOf c.toWakeParams stride (k % stride)))
    (hown : s'.abs (i % stride) = s.abs (i % stride) ∨ s'.abs (i % stride)
      = (s.abs (i % stride)).step (classOf c.toWakeParams stride (i % stride)) i)
    (k : Nat) (hk : k < c.numCores) :
    (s'.abs (k % stride)).Agrees (classOf c.toWakeParams stride (k % stride)) := by
  by_cases hki : k % stride = i % stride
  · rw [hki]
    rcases hown with hown | hown
    · rw [hown]
      exact h i hi
    · rw [hown]
      exact (h i hi).step (mem_classOf.mpr ⟨hi, rfl⟩)
  · have hne : ∀ j ∈ classOf c.toWakeParams stride (k % stride), j ≠ i := by
      rintro j hj rfl
      exact hki (mem_classOf.mp hj).2.symm
    refine (h k hk).congr (fun j hj => ?_) (fun j hj => ?_) (fun j hj => ?_) (fun j hj => ?_)
      (hf.barrier _ hki) (hf.wakes _ hki)
    · exact congrArg posOf (hf.pc j (hne j hj))
    · obtain ⟨hjn, hjk⟩ := mem_classOf.mp hj
      exact congrArg (List.map Prod.snd) (hf.tokens j hjn (by rw [hjk]; exact hki))
    · exact congrArg (List.map Prod.snd) (hf.taken j (hne j hj))
    · exact hf.entered j (hne j hj)

section Step

variable (hstride : 0 < stride)

include hstride in
theorem Inv.frame (h : Inv c stride s) (hi : i < c.numCores) :
    Frame c stride s (step c.toWakeParams stride s i) i := by
  have ho := Nat.mod_lt i hstride
  simp only [step]
  cases hp : s.pc i with
  | idle | fetchAdd | store =>
      refine ⟨fun j hj => ?_, fun _ _ => rfl, fun j hj => ?_, fun _ _ _ => rfl, fun o ho => ?_,
        fun _ _ => rfl⟩ <;> simp [*]
  | setWakeUpStride | resetWakeUpStride =>
      refine ⟨fun j hj => Function.update_of_ne hj _ _, fun _ _ => rfl, fun _ _ => rfl,
        fun j _ _ => ?_, fun _ _ => rfl, fun _ _ => rfl⟩
      exact congrFun (write_strd_tokens _ _) j
  | setWakeUpOffset | resetWakeUpOffset =>
      refine ⟨fun j hj => Function.update_of_ne hj _ _, fun _ _ => rfl, fun _ _ => rfl,
        fun j _ _ => ?_, fun _ _ => rfl, fun _ _ => rfl⟩
      exact congrFun (write_offst_tokens _ _) j
  | wakeUpAll =>
      refine ⟨fun j hj => Function.update_of_ne hj _ _, fun _ _ => rfl, fun _ _ => rfl,
        fun j hjn hj => ?_, fun _ _ => rfl, fun o ho => Function.update_of_ne ho _ _⟩
      refine (write_wakeUp_tokens ho (h.mask i hi hp) j).trans (if_neg fun hm => hj ?_)
      exact (mem_classOf.mp hm).2
  | wfi =>
      cases s.tokens i with
      | nil => exact ⟨fun _ _ => rfl, fun _ _ => rfl, fun _ _ => rfl, fun _ _ _ => rfl,
          fun _ _ => rfl, fun _ _ => rfl⟩
      | cons t ts =>
          refine ⟨fun j hj => Function.update_of_ne hj _ _,
            fun j hj => Function.update_of_ne hj _ _,
            fun _ _ => rfl, fun j _ hj => Function.update_of_ne ?_ _ _, fun _ _ => rfl,
            fun _ _ => rfl⟩
          rintro rfl
          exact hj rfl

/-- A write that wakes nobody leaves the class as it was. -/
theorem abs_quiet {s' : StridedState} {pc : StridedPc} {offset : Nat}
    (hpc : posOf pc = posOf (s.pc i)) (hs' : s'.pc = Function.update s.pc i pc)
    (htok : s'.tokens = s.tokens) (htak : s'.taken = s.taken) (hcnt : s'.barrier = s.barrier)
    (hent : s'.entered = s.entered) (hwk : s'.wakes = s.wakes) :
    s'.abs offset = s.abs offset := by
  simp only [abs, hs', Function.apply_update fun _ => posOf, htok, htak, hcnt, hent, hwk, hpc]
  rw [Function.update_eq_self i fun j => posOf (s.pc j)]

include hstride in
theorem Inv.abs_step (h : Inv c stride s) (hi : i < c.numCores) :
    (step c.toWakeParams stride s i).abs (i % stride) = s.abs (i % stride) ∨
      (step c.toWakeParams stride s i).abs (i % stride)
        = (s.abs (i % stride)).step (classOf c.toWakeParams stride (i % stride)) i := by
  have ho := Nat.mod_lt i hstride
  have hmem : i ∈ classOf c.toWakeParams stride (i % stride) := mem_classOf.mpr ⟨hi, rfl⟩
  simp only [step]
  cases hp : s.pc i with
  | idle =>
      have habs : (s.abs (i % stride)).pos i = .idle := congrArg posOf hp
      refine .inr ?_
      rw [State.step, habs]
      simp only [abs, Function.apply_update fun _ => posOf]
      rfl
  | store =>
      have habs : (s.abs (i % stride)).pos i = .clear := congrArg posOf hp
      refine .inr ?_
      rw [State.step, habs]
      simp only [abs, Function.apply_update fun _ => posOf, Function.update_self]
      rfl
  | setWakeUpStride =>
      refine .inl (abs_quiet (by rw [hp]; rfl) rfl (write_strd_tokens _ _) rfl rfl rfl rfl)
  | resetWakeUpStride =>
      refine .inl (abs_quiet (by rw [hp]; rfl) rfl (write_strd_tokens _ _) rfl rfl rfl rfl)
  | setWakeUpOffset =>
      refine .inl (abs_quiet (by rw [hp]; rfl) rfl (write_offst_tokens _ _) rfl rfl rfl rfl)
  | resetWakeUpOffset =>
      refine .inl (abs_quiet (by rw [hp]; rfl) rfl (write_offst_tokens _ _) rfl rfl rfl rfl)
  | wakeUpAll =>
      have habs : (s.abs (i % stride)).pos i = .wake := congrArg posOf hp
      refine .inr ?_
      rw [State.step, habs]
      simp only [abs, Function.apply_update fun _ => posOf, Function.update_self,
        write_wakeUp_tokens ho (h.mask i hi hp)]
      refine congrArg (fun tok => State.mk _ tok _ _ _ _) (funext fun j => ?_)
      split
      · rw [List.map_append]
        rfl
      · rfl
  | wfi =>
      have habs : (s.abs (i % stride)).pos i = .wfi := congrArg posOf hp
      refine .inr ?_
      rw [State.step, habs]
      have htok : (s.abs (i % stride)).tokens i = (s.tokens i).map Prod.snd := rfl
      rw [htok]
      cases s.tokens i with
      | nil => rfl
      | cons t ts =>
          have hmap : ∀ (f : Nat → List (Nat × Nat)) (x : List (Nat × Nat)),
              (fun j => (Function.update f i x j).map Prod.snd)
                = Function.update (fun j => (f j).map Prod.snd) i (x.map Prod.snd) := by
            intro f x
            funext j
            rcases eq_or_ne j i with rfl | hne
            · simp
            · simp [hne]
          simp only [abs, Function.apply_update fun _ => posOf, hmap, List.map_cons,
            List.map_append]
          rfl
  | fetchAdd =>
      have habs : (s.abs (i % stride)).pos i = .add := congrArg posOf hp
      have hfits := c.fits
      have hag := h.agrees i hi
      have hout : (s.abs (i % stride)).Out i := by
        have := hag.member i hmem
        rwa [State.MemberOk, habs] at this
      have hnone := hag.not_closing hmem hout.1 (by rw [State.Closing, habs]; simp)
      have hlt : s.barrier (i % stride) < (classOf c.toWakeParams stride (i % stride)).card :=
        (hag.count hnone).2
      have hcard : (classOf c.toWakeParams stride (i % stride)).card ≤ c.numCores := by
        have := Finset.card_filter_le (Finset.range c.numCores) fun c => c % stride = i % stride
        rwa [Finset.card_range] at this
      have hlast : sub32 (classOf c.toWakeParams stride (i % stride)).card 1
          = s.barrier (i % stride) ↔
          s.barrier (i % stride) + 1 = (classOf c.toWakeParams stride (i % stride)).card := by
        rw [sub32_eq (by omega) (by omega)]
        omega
      refine .inr ?_
      rw [State.step, habs]
      dsimp only
      by_cases hl : (s.abs (i % stride)).count + 1
          = (classOf c.toWakeParams stride (i % stride)).card
      · rw [if_pos hl, if_pos (hlast.mpr hl)]
        simp only [abs, Function.apply_update fun _ => posOf, Function.update_self,
          u32_eq (show s.barrier (i % stride) + 1 < 2 ^ 32 by omega)]
        rfl
      · rw [if_neg hl, if_neg (mt hlast.mp hl)]
        simp only [abs, Function.apply_update fun _ => posOf, Function.update_self,
          u32_eq (show s.barrier (i % stride) + 1 < 2 ^ 32 by omega)]
        rfl

/-- Whose tokens a step hands out. -/
theorem Inv.own_step (h : Inv c stride s) (hstride : 0 < stride) (hi : i < c.numCores) :
    ∀ j < c.numCores, ∀ x ∈ (step c.toWakeParams stride s i).taken j ++
      (step c.toWakeParams stride s i).tokens j, x.1 = j % stride := by
  have ho := Nat.mod_lt i hstride
  simp only [step]
  cases hp : s.pc i with
  | idle | fetchAdd | store => exact h.own
  | setWakeUpStride | resetWakeUpStride =>
      simp only [write_strd_tokens]
      exact h.own
  | setWakeUpOffset | resetWakeUpOffset =>
      simp only [write_offst_tokens]
      exact h.own
  | wakeUpAll =>
      intro j hj x hx
      simp only [write_wakeUp_tokens ho (h.mask i hi hp)] at hx
      split at hx
      · rename_i hm
        rw [← List.append_assoc, List.mem_append, List.mem_singleton] at hx
        rcases hx with hx | rfl
        · exact h.own j hj x hx
        · exact (mem_classOf.mp hm).2.symm
      · exact h.own j hj x hx
  | wfi =>
      intro j hj x hx
      cases htok : s.tokens i with
      | nil =>
          rw [htok] at hx
          exact h.own j hj x hx
      | cons t ts =>
          rw [htok] at hx
          by_cases hji : j = i
          · subst hji
            refine h.own j hj x ?_
            rw [htok]
            simpa using hx
          · simp only [Function.update_of_ne hji] at hx
            exact h.own j hj x hx

/-- The position of a core after a step of core `i`. -/
theorem pc_step_other {j : Nat} (hji : j ≠ i) :
    (step c.toWakeParams stride s i).pc j = s.pc j := by
  simp only [step]
  cases hp : s.pc i with
  | wfi =>
      cases s.tokens i with
      | nil => rfl
      | cons t ts => exact Function.update_of_ne hji _ _
  | _ => exact Function.update_of_ne hji _ _

/-- A core is in its sequence after a step only if it was, or has just begun it. -/
theorem inSequence_step (h : inSequence ((step c.toWakeParams stride s i).pc i) = true) :
    inSequence (s.pc i) = true ∨ s.pc i = .setWakeUpStride := by
  simp only [step] at h
  cases hp : s.pc i with
  | fetchAdd =>
      simp only [hp, Function.update_self] at h
      split at h <;> cases h
  | wfi =>
      simp only [hp] at h
      cases htok : s.tokens i with
      | nil => simp [htok, hp, inSequence] at h
      | cons t ts => simp [htok, inSequence] at h
  | setWakeUpStride => exact .inr rfl
  | idle | store => simp [hp, inSequence] at h
  | setWakeUpOffset | wakeUpAll | resetWakeUpStride | resetWakeUpOffset => exact .inl rfl

theorem Inv.unique_step (h : Inv c stride s) (hi : i < c.numCores)
    (halone : Alone c.toWakeParams s i) :
    ∀ j < c.numCores, ∀ k < c.numCores,
      inSequence ((step c.toWakeParams stride s i).pc j) = true →
      inSequence ((step c.toWakeParams stride s i).pc k) = true → j = k := by
  -- nobody else is in a sequence when `i` is in one afterwards
  have hone : ∀ j < c.numCores, j ≠ i → inSequence (s.pc j) = true →
      inSequence ((step c.toWakeParams stride s i).pc i) = true → False := by
    intro j hj hji hsj hsi
    rcases inSequence_step hsi with hin | hbegin
    · exact hji (h.unique j hj i hi hsj hin)
    · rw [halone hbegin j hj] at hsj
      cases hsj
  intro j hj k hk hsj hsk
  by_cases hji : j = i
  · by_cases hki : k = i
    · rw [hji, hki]
    · rw [pc_step_other hki] at hsk
      exact (hone k hk hki hsk (hji ▸ hsj)).elim
  · rw [pc_step_other hji] at hsj
    by_cases hki : k = i
    · exact (hone j hj hji hsj (hki ▸ hsk)).elim
    · rw [pc_step_other hki] at hsk
      exact h.unique j hj k hk hsj hsk

/-- Only the writes of a sequence touch the registers. -/
theorem ctrl_step (hseq : inSequence (s.pc i) = false) (hbegin : s.pc i ≠ .setWakeUpStride) :
    (step c.toWakeParams stride s i).ctrl = s.ctrl := by
  simp only [step]
  cases hp : s.pc i with
  | idle | fetchAdd | store => rfl
  | wfi => cases s.tokens i <;> rfl
  | setWakeUpStride => exact absurd hp hbegin
  | setWakeUpOffset | wakeUpAll | resetWakeUpStride | resetWakeUpOffset =>
      rw [hp] at hseq
      cases hseq

/-- While core `j` is in its sequence, no other core touches them. -/
theorem Inv.ctrl_step_other (h : Inv c stride s) (hi : i < c.numCores)
    (halone : Alone c.toWakeParams s i) {j : Nat} (hj : j < c.numCores) (hji : j ≠ i)
    (hsj : inSequence (s.pc j) = true) : (step c.toWakeParams stride s i).ctrl = s.ctrl := by
  refine ctrl_step ?_ ?_
  · rw [← Bool.not_eq_true]
    exact fun hsi => hji (h.unique j hj i hi hsj hsi)
  · intro hbegin
    rw [halone hbegin j hj] at hsj
    cases hsj

theorem pc_of_step_offset (h : (step c.toWakeParams stride s i).pc i = .setWakeUpOffset) :
    s.pc i = .setWakeUpStride ∧
      (step c.toWakeParams stride s i).ctrl = s.ctrl.next (some (.wakeUpStrd stride)) := by
  simp only [step] at h ⊢
  cases hp : s.pc i with
  | setWakeUpStride => exact ⟨rfl, rfl⟩
  | fetchAdd =>
      simp only [hp, Function.update_self] at h
      split at h <;> cases h
  | wfi =>
      simp only [hp] at h
      cases htok : s.tokens i with
      | nil => simp [htok, hp] at h
      | cons t ts => simp [htok] at h
  | _ => simp [hp] at h

theorem pc_of_step_wakeUpAll (h : (step c.toWakeParams stride s i).pc i = .wakeUpAll) :
    s.pc i = .setWakeUpOffset ∧ (step c.toWakeParams stride s i).ctrl
      = s.ctrl.next (some (.wakeUpOffst (i % stride))) := by
  simp only [step] at h ⊢
  cases hp : s.pc i with
  | setWakeUpOffset => exact ⟨rfl, rfl⟩
  | fetchAdd =>
      simp only [hp, Function.update_self] at h
      split at h <;> cases h
  | wfi =>
      simp only [hp] at h
      cases htok : s.tokens i with
      | nil => simp [htok, hp] at h
      | cons t ts => simp [htok] at h
  | _ => simp [hp] at h

theorem Inv.step (h : Inv c stride s) (hstride : 0 < stride) (hi : i < c.numCores)
    (halone : Alone c.toWakeParams s i) : Inv c stride (step c.toWakeParams stride s i) where
  agrees k hk := (h.frame hstride hi).agrees hi h.agrees (h.abs_step hstride hi) k hk
  own := h.own_step hstride hi
  unique := h.unique_step hi halone
  strd j hj hp := by
    by_cases hji : j = i
    · subst hji
      rw [(pc_of_step_offset hp).2]
      rfl
    · rw [pc_step_other hji] at hp
      rw [h.ctrl_step_other hi halone hj hji (by rw [hp]; rfl)]
      exact h.strd j hj hp
  mask j hj hp := by
    by_cases hji : j = i
    · subst hji
      obtain ⟨hq, hctrl⟩ := pc_of_step_wakeUpAll hp
      rw [hctrl, nextMask_next, h.strd j hj hq]
    · rw [pc_step_other hji] at hp
      rw [h.ctrl_step_other hi halone hj hji (by rw [hp]; rfl)]
      exact h.mask j hj hp

end Step

theorem inv_start (c : Cluster) (stride : Nat) : Inv c stride start where
  agrees i hi := by
    refine ⟨fun _ _ => ⟨rfl, rfl, rfl⟩, fun j _ hc => ?_, fun _ => ⟨?_, ?_⟩, fun j _ hp => ?_⟩
    · rcases hc with hc | hc <;> cases hc
    · simp [abs, start]
    · exact Finset.card_pos.mpr ⟨i, mem_classOf.mpr ⟨hi, rfl⟩⟩
    · cases hp
  own i _ x hx := by cases hx
  unique i _ j _ hi := by cases hi
  strd i _ hp := by cases hp
  mask i _ hp := by cases hp

theorem inv_after (c : Cluster) {sched : Nat → Nat} (hstride : 0 < stride)
    (hsched : ∀ t, sched t < c.numCores)
    (halone : ∀ t, Alone c.toWakeParams (after c.toWakeParams stride sched t) (sched t)) (t : Nat) :
    Inv c stride (after c.toWakeParams stride sched t) := by
  induction t with
  | zero => exact inv_start c stride
  | succ t ih => exact ih.step hstride (hsched t) (halone t)

theorem Inv.independent (h : Inv c stride s) : Independent c.toWakeParams stride s := by
  have hmem : ∀ {i}, i < c.numCores → i ∈ classOf c.toWakeParams stride (i % stride) :=
    fun hi => mem_classOf.mpr ⟨hi, rfl⟩
  have honce : ∀ i < c.numCores,
      (s.taken i ++ s.tokens i).map Prod.snd = List.range (s.wakes (i % stride)) := by
    intro i hi
    rw [List.map_append]
    show (s.abs (i % stride)).taken i ++ (s.abs (i % stride)).tokens i
      = List.range (s.abs (i % stride)).wakes
    rcases (h.agrees i hi).cases (hmem hi) with ⟨-, htok, htak⟩ | ⟨-, htok, htak⟩
      | ⟨-, e, hw, htok, htak⟩
    · rw [htok, htak, List.append_nil]
    · rw [htok, htak, List.append_nil]
    · rw [htok, htak, hw, List.range_succ]
  refine ⟨h.own, honce, ?_, ?_⟩
  · intro i hi x hx j hj
    rw [h.own i hi x hx] at hj
    have hle := (h.agrees i hi).wakes_le_entered hj
    have he : x.2 ∈ List.range (s.wakes (i % stride)) := by
      rw [← honce i hi]
      exact List.mem_map_of_mem hx
    exact Nat.lt_of_lt_of_le (List.mem_range.mp he) hle
  · intro i hi
    show (s.abs (i % stride)).entered i ≤ (s.abs (i % stride)).wakes + 1
    rcases (h.agrees i hi).cases (hmem hi) with hok | hok | hok <;> have := hok.1 <;> omega

end StridedState

/-- In every run in which no core begins to wake its class while another is waking its
own, strided barriers are independent. -/
theorem strided_barrier (c : Cluster) (stride : Nat) (hstride : 0 < stride) (sched : Nat → Nat)
    (hsched : ∀ t, sched t < c.numCores)
    (halone : ∀ t, StridedState.Alone c.toWakeParams
      (StridedState.after c.toWakeParams stride sched t) (sched t)) (t : Nat) :
    StridedState.Independent c.toWakeParams stride
      (StridedState.after c.toWakeParams stride sched t) :=
  (StridedState.inv_after c hstride hsched halone t).independent

/-- Two cores, each a class of its own. -/
def twoCores : Cluster where
  numCoresPerTile := 2
  numTilesPerGroup := 1
  numGroups := 1
  numCores_pos := by decide
  fits := by decide

/-- Core 0 has selected its class when core 1 selects its own; then core 0 wakes. -/
def overlapped (t : Nat) : Nat := [0, 0, 0, 0, 0, 1, 1, 1, 1, 1, 0].getD t 0

theorem strided_overlap_wakes_other :
    ¬ StridedState.Independent twoCores.toWakeParams 2
      (StridedState.after twoCores.toWakeParams 2 overlapped 11) := by
  intro h
  exact absurd (h.own 1 (by decide) (0, 0) (by decide +kernel)) (by decide)

instance (w : WakeParams) (s : StridedState) (i : Nat) :
    Decidable (StridedState.Alone w s i) :=
  inferInstanceAs (Decidable (_ → ∀ j < _, _ = _))

/-- Cores 0 and 2 go through one episode of their class, and core 0 into the next. -/
def oneEpisode (t : Nat) : Nat := [0, 0, 2, 2, 2, 2, 2, 2, 2, 2, 2].getD t 0

theorem oneEpisode_add (d : Nat) : oneEpisode (14 + d) = 0 :=
  List.getD_eq_default _ _ (by simp only [List.length_cons, List.length_nil]; omega)

theorem strided_barrier_oneEpisode :
    StridedState.Independent fourCores.toWakeParams 2
      (StridedState.after fourCores.toWakeParams 2 oneEpisode 20) := by
  -- from then on core 0 sleeps
  have hstays : ∀ d, StridedState.after fourCores.toWakeParams 2 oneEpisode (14 + d)
      = StridedState.after fourCores.toWakeParams 2 oneEpisode 14 := by
    intro d
    induction d with
    | zero => rfl
    | succ d ih =>
        show StridedState.step _ 2 (StridedState.after _ 2 oneEpisode (14 + d))
          (oneEpisode (14 + d)) = _
        rw [ih, oneEpisode_add, StridedState.step]
        have hpc : (StridedState.after fourCores.toWakeParams 2 oneEpisode 14).pc 0 = .wfi := by
          decide +kernel
        have htok : (StridedState.after fourCores.toWakeParams 2 oneEpisode 14).tokens 0 = [] := by
          decide +kernel
        rw [hpc]
        dsimp only
        rw [htok]
  refine strided_barrier fourCores 2 (by decide) oneEpisode (fun t => ?_) (fun t => ?_) 20
  · rw [oneEpisode, List.getD_eq_getElem?_getD]
    rcases Nat.lt_or_ge t 11 with h | h
    · exact (by decide : ∀ t < 11, ([0, 0, 2, 2, 2, 2, 2, 2, 2, 2, 2][t]?).getD 0 < 4) t h
    · rw [List.getElem?_eq_none h]
      decide
  · rcases Nat.lt_or_ge t 14 with h | h
    · exact (by decide +kernel : ∀ t < 14, StridedState.Alone fourCores.toWakeParams
        (StridedState.after fourCores.toWakeParams 2 oneEpisode t) (oneEpisode t)) t h
    · obtain ⟨d, rfl⟩ : ∃ d, t = 14 + d := ⟨t - 14, by omega⟩
      rw [hstays, oneEpisode_add]
      intro hp
      exact absurd hp (by decide +kernel)

end TeraNoC.Runtime
