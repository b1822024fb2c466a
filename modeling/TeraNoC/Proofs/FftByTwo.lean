import TeraNoC.Proofs.FftSerial

/-!
# The transforms of twice a power of four

The loops before and after the two columns go through independent pairs of numbers, and the
columns are radix-4 transforms, the second one of the array from its middle on. For no length do
the two kernels agree on every input: the columns have modifier 2.
-/

namespace TeraNoC.Kernels

open TeraNoC.Lib TeraNoC.Runtime

/-! ## Loops over independent tasks -/

section Chunks

variable {T : Nat → FftLoc → Prop} {body : Nat → Prog FftLoc V2s Unit} {nPE total fuel : Nat}

/-- The tasks of a loop: each has its own locations, and may load twiddle factors. -/
structure Tasks (total : Nat) (T : Nat → FftLoc → Prop) (body : Nat → Prog FftLoc V2s Unit) :
    Prop where
  runs : ∀ i < total, ∀ mem,
    (body i).Runs (fun a => Coef a ∨ T i a) (T i) mem () ((body i).after mem)
  apart : ∀ i < total, ∀ j < total, ∀ a, T i a → T j a → i = j
  noCoef : ∀ i < total, ∀ a, Coef a → ¬T i a

theorem Tasks.effect (h : Tasks total T body) : ∀ i ∈ List.range total,
    Local (fun a => Coef a ∨ T i a) (T i) (body i).after := fun i hi =>
  Local.of_runs (fun _ => Or.inr) fun mem => ⟨_, h.runs i (List.mem_range.mp hi) mem⟩

theorem Tasks.pairwise (h : Tasks total T body) : ∀ i ∈ List.range total,
    ∀ j ∈ List.range total, i ≠ j → Apart (fun i a => Coef a ∨ T i a) T i j := by
  intro i hi j hj hne a ha
  have hother : ¬T j a := fun ha' =>
    hne (h.apart i (List.mem_range.mp hi) j (List.mem_range.mp hj) a ha ha')
  refine ⟨?_, hother⟩
  rintro (hcoef | ha')
  · exact h.noCoef i (List.mem_range.mp hi) a hcoef ha
  · exact hother ha'

theorem Tasks.each (h : Tasks total T body) {is : List Nat} (his : ∀ i ∈ is, i < total)
    (mem : FftLoc → V2s) : (Prog.each body is).Runs (fun a => Coef a ∨ ∃ i ∈ is, Coef a ∨ T i a)
      (fun a => ∃ i ∈ is, T i a) mem () (is.foldl (fun mem i => (body i).after mem) mem) := by
  refine Prog.Runs.each (fun i hi mem => (h.runs i (his i hi) mem).mono ?_ fun a ha => ⟨i, hi, ha⟩)
    mem
  rintro a (ha | ha)
  · exact Or.inl ha
  · exact Or.inr ⟨i, hi, Or.inr ha⟩

/-- The cores share a loop by chunks. -/
theorem Tasks.sharing (h : Tasks total T body) (htotal : 0 < total) (hnPE : 0 < nPE)
    (hfit : total + nPE < 2 ^ 32) (hfuel : total ≤ fuel) :
    Team.Sharing (n := nPE) Coef (fun i a => Coef a ∨ T i a) T (fun i => (body i).after)
      (chunk total nPE) (List.range total)
      fun core => chunkLoop fuel core (ceilStep total nPE) total body where
  effect := h.effect
  nodup := List.nodup_range
  apart := h.pairwise
  common i hi := h.noCoef i (List.mem_range.mp hi)
  once := by
    refine perm_of_owner (fun i => i / ((total + nPE - 1) / nPE)) List.nodup_range
      (fun _ _ => nodup_chunk) (fun core _ i => ?_)
      fun i hi => chunk_owner hnPE (List.mem_range.mp hi)
    rw [mem_chunk htotal hnPE, List.mem_range]
  runs core mem := by
    rw [ceilStep_eq hnPE hfit, chunkLoop_eq (chunk_fits core.isLt hfit) (by omega) hfuel]
    exact h.each (fun i hi => ((mem_chunk htotal hnPE).mp hi).1) mem

/-- The memory after all tasks. -/
def allTasks (total : Nat) (body : Nat → Prog FftLoc V2s Unit) (mem : FftLoc → V2s) :
    FftLoc → V2s :=
  (List.range total).foldl (fun mem i => (body i).after mem) mem

/-- What a task leaves in its locations, whoever does it. -/
theorem Tasks.allTasks (h : Tasks total T body) (mem : FftLoc → V2s) (a : FftLoc) :
    (∀ i ∈ List.range total, T i a → Kernels.allTasks total body mem a = (body i).after mem a) ∧
      ((∀ i ∈ List.range total, ¬T i a) → Kernels.allTasks total body mem a = mem a) :=
  foldl_local h.effect List.nodup_range h.pairwise

/-- A single core does them one after the other. -/
theorem Tasks.loop (h : Tasks total T body) (htotal : total < 2 ^ 31) (hfuel : total ≤ fuel)
    (mem : FftLoc → V2s) :
    (countLoop fuel total body).Runs (fun _ => True) (fun _ => True) mem ()
      (Kernels.allTasks total body mem) := by
  rw [countLoop, loop_eq body (d := 1) (n := total) (fun k hk => by omega) (by omega)
    (by omega) hfuel,
    Prog.each_map]
  simp only [Nat.zero_add, Nat.mul_one]
  exact (h.each (fun i hi => List.mem_range.mp hi) mem).mono (fun _ _ => trivial)
    fun _ _ => trivial

end Chunks

/-! ## The loops before and after the columns -/

section Loops

variable {n2 i : Nat} {rotate : V2s → V2s → V2s} {mem : FftLoc → V2s}

/-- The numbers of a turn of the first loop. -/
def FirstTouched (n2 i : Nat) (a : FftLoc) : Prop :=
  a = .src (2 * i) ∨ a = .src (2 * (i + n2))

/-- The numbers of a turn of the last one. -/
def LastTouched (i : Nat) (a : FftLoc) : Prop := a = .src (4 * i) ∨ a = .src (4 * i + 2)

section Runs

variable {R W : FftLoc → Prop}

theorem by2First_runs (hi : i < n2) (hn2 : n2 ≤ 2 ^ 29) (hcoef : R (.coefSrc (2 * i)))
    (hR0 : R (.src (2 * i))) (hR1 : R (.src (2 * (i + n2)))) (hW0 : W (.src (2 * i)))
    (hW1 : W (.src (2 * (i + n2)))) (mem : FftLoc → V2s) :
    let a := sraH (mem (.src (2 * i))) 0x00010001
    let b := sraH (mem (.src (2 * (i + n2)))) 0x00010001
    (by2First rotate n2 i).Runs R W mem ()
      (Function.update (Function.update mem (.src (2 * i)) (sraH (addH a b) 0x00010001))
        (.src (2 * (i + n2))) (rotate (subH a b) (mem (.coefSrc (2 * i))))) := by
  have hindex : u32 (i * 2) = 2 * i := by rw [u32_eq (by omega), Nat.mul_comm]
  have hlower : u32 (2 * i) = 2 * i := u32_eq (by omega)
  have hsum : u32 (i + n2) = i + n2 := u32_eq (by omega)
  have hupper : u32 (2 * (i + n2)) = 2 * (i + n2) := u32_eq (by omega)
  unfold by2First
  dsimp only
  rw [hindex, hlower, hsum, hupper, Nat.mul_comm (i + n2) 2, hupper]
  exact (Prog.Runs.get hcoef mem).bind ((Prog.Runs.get hR0 mem).bind
    ((Prog.Runs.get hR1 mem).bind ((Prog.Runs.set hW0 _ mem).bind (Prog.Runs.set hW1 _ _))))

theorem doubleVectors_runs (hi : i ≤ 2 ^ 29) (hR0 : R (.src (4 * i))) (hR1 : R (.src (4 * i + 2)))
    (hW0 : W (.src (4 * i))) (hW1 : W (.src (4 * i + 2))) (mem : FftLoc → V2s) :
    (doubleVectors i).Runs R W mem ()
      (Function.update (Function.update mem (.src (4 * i)) (sllH (mem (.src (4 * i))) 0x00010001))
        (.src (4 * i + 2)) (sllH (mem (.src (4 * i + 2))) 0x00010001)) := by
  have hlower : u32 (4 * i) = 4 * i := u32_eq (by omega)
  have hupper : u32 (4 * i + 2) = 4 * i + 2 := u32_eq (by omega)
  unfold doubleVectors
  dsimp only
  rw [hlower, hupper]
  exact (Prog.Runs.get hR0 mem).bind ((Prog.Runs.get hR1 mem).bind
    ((Prog.Runs.set hW0 _ mem).bind (Prog.Runs.set hW1 _ _)))

theorem getLane_runs {a : FftLoc} (ha : R a) (k : Nat) (mem : FftLoc → V2s) :
    (getLane a k).Runs R W mem (lane (mem a) k) mem :=
  (Prog.Runs.get ha mem).bind (Prog.Runs.ret _ mem)

theorem setLane_runs {a : FftLoc} (hR : R a) (hW : W a) (k : Nat) (v : BitVec 16)
    (mem : FftLoc → V2s) : (setLane a k v).Runs R W mem () (Function.update mem a
      (if k = 0 then lane (mem a) 1 ++ v else v ++ lane (mem a) 0)) :=
  (Prog.Runs.get hR mem).bind (Prog.Runs.set hW _ mem)

/-- Both halfwords of a number, one after the other. -/
theorem setLanes_runs {a : FftLoc} (hR : R a) (hW : W a) (v0 v1 : BitVec 16)
    (mem : FftLoc → V2s) : (setLane a 0 v0 >>= fun _ => setLane a 1 v1).Runs R W mem ()
      (Function.update mem a (v1 ++ v0)) := by
  have hlower : lane (lane (mem a) 1 ++ v0) 0 = v0 := BitVec.extractLsb'_append_eq_right
  have hupdate : Function.update (Function.update mem a (lane (mem a) 1 ++ v0)) a
      (v1 ++ lane (Function.update mem a (lane (mem a) 1 ++ v0) a) 0) =
        Function.update mem a (v1 ++ v0) := by
    rw [Function.update_self, Function.update_idem, hlower]
  rw [← hupdate]
  exact (setLane_runs hR hW 0 v0 mem).bind (setLane_runs hR hW 1 v1 _)

/-- Numbers are doubled as well by halfwords. -/
theorem doubleLanes_runs (hi : i ≤ 2 ^ 29) (hR0 : R (.src (4 * i))) (hR1 : R (.src (4 * i + 2)))
    (hW0 : W (.src (4 * i))) (hW1 : W (.src (4 * i + 2))) (mem : FftLoc → V2s) :
    (doubleLanes i).Runs R W mem ()
      (Function.update (Function.update mem (.src (4 * i)) (sllH (mem (.src (4 * i))) 0x00010001))
        (.src (4 * i + 2)) (sllH (mem (.src (4 * i + 2))) 0x00010001)) := by
  have hlower : u32 (4 * i) = 4 * i := u32_eq (by omega)
  have hupper : u32 (4 * i + 2) = 4 * i + 2 := u32_eq (by omega)
  have hdouble : ∀ x : V2s, sllH x 0x00010001 = lane x 1 <<< 1 ++ lane x 0 <<< 1 := fun _ => rfl
  unfold doubleLanes
  dsimp only
  rw [hlower, hupper, hdouble, hdouble]
  have hstores := (setLanes_runs hR0 hW0 (lane (mem (.src (4 * i))) 0 <<< 1)
    (lane (mem (.src (4 * i))) 1 <<< 1) mem).bind (f := fun _ =>
      setLane (.src (4 * i + 2)) 0 (lane (mem (.src (4 * i + 2))) 0 <<< 1) >>= fun _ =>
        setLane (.src (4 * i + 2)) 1 (lane (mem (.src (4 * i + 2))) 1 <<< 1))
    (setLanes_runs hR1 hW1 _ _ _)
  rw [bind_assoc] at hstores
  exact (getLane_runs hR0 0 mem).bind ((getLane_runs hR0 1 mem).bind ((getLane_runs hR1 0 mem).bind
    ((getLane_runs hR1 1 mem).bind hstores)))

end Runs

theorem by2First_tasks (hn2 : n2 ≤ 2 ^ 29) :
    Tasks n2 (FirstTouched n2) (by2First rotate n2) where
  runs i hi mem := by
    have hruns := @by2First_runs n2 i rotate (fun a => Coef a ∨ FirstTouched n2 i a)
      (FirstTouched n2 i) hi hn2 (Or.inl ⟨_, rfl⟩) (Or.inr (Or.inl rfl)) (Or.inr (Or.inr rfl))
      (Or.inl rfl) (Or.inr rfl) mem
    dsimp only at hruns
    rwa [hruns.after]
  apart i hi j hj a := by
    rintro (rfl | rfl) (heq | heq)
    · have := FftLoc.src.inj heq
      omega
    · have := FftLoc.src.inj heq
      omega
    · have := FftLoc.src.inj heq
      omega
    · have := FftLoc.src.inj heq
      omega
  noCoef i _ a := by
    rintro ⟨k, rfl⟩ (heq | heq)
    · cases heq
    · cases heq

theorem lastTouched_apart {j : Nat} {a : FftLoc} (hi : LastTouched i a) (hj : LastTouched j a) :
    i = j := by
  rcases hi with rfl | rfl
  · rcases hj with heq | heq
    · have := FftLoc.src.inj heq
      omega
    · have := FftLoc.src.inj heq
      omega
  · rcases hj with heq | heq
    · have := FftLoc.src.inj heq
      omega
    · have := FftLoc.src.inj heq
      omega

theorem lastTouched_coef {a : FftLoc} (ha : Coef a) : ¬LastTouched i a := by
  obtain ⟨k, rfl⟩ := ha
  rintro (heq | heq)
  · cases heq
  · cases heq

theorem doubleVectors_tasks (hn2 : n2 ≤ 2 ^ 29) : Tasks n2 LastTouched doubleVectors where
  runs i hi mem := by
    have hruns := @doubleVectors_runs i (fun a => Coef a ∨ LastTouched i a) (LastTouched i)
      (by omega) (Or.inr (Or.inl rfl)) (Or.inr (Or.inr rfl)) (Or.inl rfl) (Or.inr rfl) mem
    rwa [hruns.after]
  apart i _ j _ _ := lastTouched_apart
  noCoef i _ _ := lastTouched_coef

theorem doubleLanes_tasks (hn2 : n2 ≤ 2 ^ 29) : Tasks n2 LastTouched doubleLanes where
  runs i hi mem := by
    have hruns := @doubleLanes_runs i (fun a => Coef a ∨ LastTouched i a) (LastTouched i)
      (by omega) (Or.inr (Or.inl rfl)) (Or.inr (Or.inr rfl)) (Or.inl rfl) (Or.inr rfl) mem
    rwa [hruns.after]
  apart i _ j _ _ := lastTouched_apart
  noCoef i _ _ := lastTouched_coef

theorem doubleLanes_after (hi : i ≤ 2 ^ 29) (mem : FftLoc → V2s) :
    (doubleLanes i).after mem = (doubleVectors i).after mem :=
  (@doubleLanes_runs i (fun _ => True) (fun _ => True) hi trivial trivial trivial trivial
    mem).after.trans
    (@doubleVectors_runs i (fun _ => True) (fun _ => True) hi trivial trivial trivial trivial
      mem).after.symm

end Loops

/-! ## The columns -/

section Columns

variable {m p fuel : Nat} {mem : FftLoc → V2s}

theorem advance_injective (d : Nat) : (FftLoc.advance d).Injective := by
  intro a b heq
  cases a with
  | src i =>
      cases b with
      | src j => exact congrArg FftLoc.src (Nat.add_left_cancel (FftLoc.src.inj heq))
      | dst j => cases heq
      | coefSrc j => cases heq
      | coefDst j => cases heq
  | dst i => cases b <;> first | exact heq | cases heq
  | coefSrc i => cases b <;> first | exact heq | cases heq
  | coefDst i => cases b <;> first | exact heq | cases heq

/-- Both columns, one after the other. -/
noncomputable def columns (m : Nat) (stage : Nat → Work → Prog FftLoc V2s Unit)
    (mem : FftLoc → V2s) : FftLoc → V2s :=
  let left := sequential 4 m stage mem m
  Function.extend (FftLoc.advance (2 * 4 ^ m))
    (sequential 4 m stage (left ∘ FftLoc.advance (2 * 4 ^ m)) m) left

variable {P : Team FftLoc V2s Unit (2 ^ p) → Prop} {K : Fin (2 ^ p) → Prog FftLoc V2s Unit}

theorem column_perm {s : Nat} (hs : s < m) :
    ((List.range (2 ^ p)).flatMap fun core => (cfftWork 4 m (2 ^ p) s core).butterflies).Perm
      (stageButterflies 4 m s) :=
  @cfftWork_perm 4 m s 2 p rfl hs

theorem column_eq (hm : 2 ≤ m) (hlen : 4 ^ m ≤ 2 ^ 30) (hcores : 2 ^ p * 4 ≤ 2 ^ 30)
    (hfuel : 4 ^ m ≤ fuel) (core : Fin (2 ^ p)) :
    mempoolRadix4CfftQ16pXpulpimg (4 ^ m) 2 (2 ^ p) core fuel =
      Prog.stages (fun s => radix4Stage m 2 s (cfftWork 4 m (2 ^ p) s core)) m 0 := by
  rw [mempoolRadix4CfftQ16pXpulpimg, Nat.mod_eq_of_lt core.isLt]
  exact cfft_eq rfl hlen hcores core.isLt hfuel (by decide) hm

/-- A column of the parallel kernel, with something to follow. -/
theorem column_finally (hm : 2 ≤ m) (hlen : 4 ^ m ≤ 2 ^ 30) (hcores : 2 ^ p * 4 ≤ 2 ^ 30)
    (hfuel : 4 ^ m ≤ fuel)
    (h : Team.Finally P ⟨sequential 4 m (radix4Stage m 2) mem m, K⟩) :
    Team.Finally P ⟨mem, fun core =>
      mempoolRadix4CfftQ16pXpulpimg (4 ^ m) 2 (2 ^ p) core fuel >>= fun _ => K core⟩ := by
  simp only [column_eq hm hlen hcores hfuel]
  refine @Team.Finally.stages_bind _ _ _ _ _ _ (fun core s => radix4Stage m 2 s (cfftWork 4 m
    (2 ^ p) s core)) K (sequential 4 m (radix4Stage m 2) mem) m 0 (fun s hs K h => ?_)
    ((Nat.zero_add m).symm ▸ h)
  rw [Nat.zero_add] at hs
  exact stage_finally radix4_inPlace hlen hs (column_perm hs) h

/-- A column somewhere else in the memory. -/
theorem column_rename {g : FftLoc → FftLoc} (hg : g.Injective) (hm : 2 ≤ m) (hlen : 4 ^ m ≤ 2 ^ 30)
    (hcores : 2 ^ p * 4 ≤ 2 ^ 30) (hfuel : 4 ^ m ≤ fuel)
    (h : Team.Finally P
      ⟨Function.extend g (sequential 4 m (radix4Stage m 2) (mem ∘ g) m) mem, K⟩) :
    Team.Finally P ⟨mem, fun core =>
      (mempoolRadix4CfftQ16pXpulpimg (4 ^ m) 2 (2 ^ p) core fuel).rename g >>=
        fun _ => K core⟩ := by
  have hstages : ∀ core : Fin (2 ^ p),
      (mempoolRadix4CfftQ16pXpulpimg (4 ^ m) 2 (2 ^ p) core fuel).rename g =
        Prog.stages (fun s => (radix4Stage m 2 s (cfftWork 4 m (2 ^ p) s core)).rename g) m 0 :=
    fun core => by rw [column_eq hm hlen hcores hfuel, Prog.rename_stages]
  simp only [hstages]
  have hbefore : mem = Function.extend g (sequential 4 m (radix4Stage m 2) (mem ∘ g) 0) mem :=
    (extend_view g mem).symm
  rw [hbefore]
  refine @Team.Finally.stages_bind _ _ _ _ _ _ (fun core s => (radix4Stage m 2 s (cfftWork 4 m
    (2 ^ p) s core)).rename g) K (fun s => Function.extend g
      (sequential 4 m (radix4Stage m 2) (mem ∘ g) s) mem) m 0 (fun s hs K h => ?_)
    ((Nat.zero_add m).symm ▸ h)
  rw [Nat.zero_add] at hs
  refine ((stage_sharing radix4_inPlace hlen hs (column_perm hs)).rename hg).finally ?_
  rw [Team.foldl_rename hg, view_extend hg, extend_extend, foldl_single radix4_inPlace hlen hs]
  exact h

end Columns

/-! ## The transforms -/

section Transforms

variable {m p fuel : Nat} {mem : FftLoc → V2s}

/-- What the transform of a single core leaves. -/
noncomputable def by2Serial (m : Nat) (mem : FftLoc → V2s) : FftLoc → V2s :=
  allTasks (4 ^ m) doubleVectors
    (columns m (serialStage m 2) (allTasks (4 ^ m) (by2First rotateSerial (4 ^ m)) mem))

/-- What the parallel one leaves. -/
noncomputable def by2Parallel (m : Nat) (mem : FftLoc → V2s) : FftLoc → V2s :=
  allTasks (4 ^ m) doubleLanes
    (columns m (radix4Stage m 2) (allTasks (4 ^ m) (by2First rotateParallel (4 ^ m)) mem))

theorem half_length (m : Nat) : (2 * 4 ^ m) >>> 1 = 4 ^ m := by
  rw [Nat.shiftRight_eq_div_pow, Nat.pow_one, Nat.mul_comm, Nat.mul_div_cancel _ (by decide)]

theorem by2_serial_runs (hm : 2 ≤ m) (hlen : 4 ^ m ≤ 2 ^ 29) (hfuel : 4 ^ m ≤ fuel) :
    (mempoolCfftRadix4by2Q16sXpulpimg (2 * 4 ^ m) fuel).Runs (fun _ => True) (fun _ => True) mem ()
      (by2Serial m mem) := by
  have hcolumn := fun mem => @serial_runs m 2 fuel hm (by omega) hfuel mem
  have hsecond : ∀ mem : FftLoc → V2s,
      ((mempoolRadix4CfftQ16sXpulpimg (4 ^ m) 2 fuel).rename (FftLoc.advance (2 * 4 ^ m))).Runs
        (fun _ => True) (fun _ => True) mem () (Function.extend (FftLoc.advance (2 * 4 ^ m))
          (sequential 4 m (serialStage m 2) (mem ∘ FftLoc.advance (2 * 4 ^ m)) m) mem) :=
    fun mem => ((hcolumn _).rename (advance_injective _)).mono (fun _ _ => trivial)
      fun _ _ => trivial
  have hfirst := (@by2First_tasks (4 ^ m) rotateSerial hlen).loop (by omega) hfuel mem
  have hlast := fun mem => (doubleVectors_tasks hlen).loop (by omega) hfuel mem
  unfold mempoolCfftRadix4by2Q16sXpulpimg
  rw [half_length]
  exact hfirst.bind ((hcolumn _).bind ((hsecond _).bind (hlast _)))

theorem by2_parallel_finally (hm : 2 ≤ m) (hlen : 4 ^ m ≤ 2 ^ 29) (hcores : 2 ^ p * 4 ≤ 2 ^ 30)
    (hfuel : 4 ^ m ≤ fuel) : Team.Finally
      (fun t => t.Returned (fun _ => ()) ∧ t.mem = by2Parallel m mem)
      (⟨mem, fun core => mempoolRadix4by2CfftQ16p (2 * 4 ^ m) (2 ^ p) core fuel⟩ :
        Team FftLoc V2s Unit (2 ^ p)) := by
  have hpos : 0 < 4 ^ m := Nat.pow_pos (by decide)
  have hPE : 0 < 2 ^ p := Nat.two_pow_pos p
  unfold mempoolRadix4by2CfftQ16p
  rw [half_length]
  refine ((@by2First_tasks (4 ^ m) rotateParallel hlen).sharing hpos hPE
    (by omega) hfuel).finally ?_
  refine column_finally hm (by omega) hcores hfuel ?_
  refine column_rename (advance_injective _) hm (by omega) hcores hfuel ?_
  refine ((doubleLanes_tasks hlen).sharing hpos hPE (by omega) hfuel).finally ?_
  exact Team.Finally.returned hPE ⟨fun _ => rfl, rfl⟩

/-- The two transforms of an array of `2 * 4 ^ m` numbers. -/
def By2Agrees (m nPE : Nat) (mem : FftLoc → V2s) : Prop :=
  SameArray (2 * 4 ^ m) nPE (mempoolCfftRadix4by2Q16sXpulpimg (2 * 4 ^ m))
    (mempoolRadix4by2CfftQ16p (2 * 4 ^ m) nPE) mem

theorem by2Agrees_iff (hm : 2 ≤ m) (hlen : 4 * (2 * 4 ^ m) ≤ 2 ^ 32)
    (hbanks : 16 * 2 ^ p ≤ 2 ^ 32) :
    By2Agrees m (2 ^ p) mem ↔
      ∀ e < 2 * 4 ^ m, by2Parallel m mem (.src (e * 2)) = by2Serial m mem (.src (e * 2)) :=
  sameArray_iff (fun _ hfuel => (by2_serial_runs hm (by omega) hfuel).run) fun _ hfuel =>
    by2_parallel_finally hm (by omega) (by omega) hfuel

/-! ## An input on which they differ -/

/-- A number at the same place in both columns, and the twiddle factor with index 1. -/
def by2Probe (n2 : Nat) : FftLoc → V2s
  | .src i => if i = 2 ∨ i = 2 * (1 + n2) then 0x0000FFF8 else 0
  | .coefSrc i => if i = 2 then 1 else 0
  | _ => 0

/-- The difference is zero, whatever becomes of it. -/
theorem first_by2Probe {n2 : Nat} {rotate : V2s → V2s → V2s} (hrotate : ∀ CoSi, rotate 0 CoSi = 0)
    (hlow : 1 < n2) (hn2 : n2 ≤ 2 ^ 29) :
    allTasks n2 (by2First rotate n2) (by2Probe n2) = probe := by
  funext a
  obtain ⟨hin, hout⟩ := (@by2First_tasks n2 rotate hn2).allTasks (by2Probe n2) a
  by_cases htouched : ∃ i ∈ List.range n2, FirstTouched n2 i a
  · obtain ⟨i, hi, ha⟩ := htouched
    have hlt := List.mem_range.mp hi
    have hruns := @by2First_runs n2 i rotate (fun _ => True) (fun _ => True) hlt hn2 trivial trivial
      trivial trivial trivial (by2Probe n2)
    dsimp only at hruns
    have hlower : by2Probe n2 (.src (2 * i)) = if i = 1 then 0x0000FFF8 else 0 :=
      if_congr (by omega) rfl rfl
    have hupper : by2Probe n2 (.src (2 * (i + n2))) = if i = 1 then 0x0000FFF8 else 0 :=
      if_congr (by omega) rfl rfl
    rw [hin i hi ha, hruns.after, hlower, hupper]
    rcases ha with rfl | rfl
    · have hne : FftLoc.src (2 * i) ≠ .src (2 * (i + n2)) := fun heq => by
        have := FftLoc.src.inj heq
        omega
      have hprobe : probe (.src (2 * i)) = if i = 1 then 0x0000FFFC else 0 :=
        if_congr (by omega) rfl rfl
      rw [Function.update_of_ne hne, Function.update_self, hprobe]
      split
      · decide
      · decide
    · have hprobe : probe (.src (2 * (i + n2))) = 0 := if_neg (by omega)
      have hzero : subH (sraH (if i = 1 then 0x0000FFF8 else 0) 0x00010001)
          (sraH (if i = 1 then 0x0000FFF8 else 0) 0x00010001) = 0 := by
        split
        · decide
        · decide
      rw [Function.update_self, hprobe, hzero, hrotate]
  · have hno : ∀ i ∈ List.range n2, ¬FirstTouched n2 i a := fun i hi ha => htouched ⟨i, hi, ha⟩
    rw [hout hno]
    cases a with
    | src k =>
        have h1 := hno 1 (List.mem_range.mpr hlow)
        have hk2 : k ≠ 2 := fun heq => h1 (Or.inl (congrArg FftLoc.src heq))
        have hkn : k ≠ 2 * (1 + n2) := fun heq => h1 (Or.inr (congrArg FftLoc.src heq))
        exact (if_neg (not_or.mpr ⟨hk2, hkn⟩)).trans (if_neg hk2).symm
    | dst k => rfl
    | coefSrc k => rfl
    | coefDst k => rfl

theorem columns_lower {stage : Nat → Work → Prog FftLoc V2s Unit} {i : Nat} (hi : i < 2 * 4 ^ m) :
    columns m stage mem (.src i) = sequential 4 m stage mem m (.src i) := by
  refine Function.extend_apply' _ _ _ ?_
  rintro ⟨a, heq⟩
  cases a with
  | src j =>
      have := FftLoc.src.inj heq
      omega
  | dst j => cases heq
  | coefSrc j => cases heq
  | coefDst j => cases heq

/-- The number in question after the columns, and what the last loop makes of it. -/
theorem double_probe {stage : Nat → Work → Prog FftLoc V2s Unit} (hm : 0 < m)
    (hlen : 4 ^ m ≤ 2 ^ 29) :
    allTasks (4 ^ m) doubleVectors (columns m stage mem) (.src (2 * 4 ^ (m - 1) * 2)) =
      sllH (sequential 4 m stage mem m (.src (2 * 4 ^ (m - 1) * 2))) 0x00010001 := by
  have hpow : 4 ^ m = 4 * 4 ^ (m - 1) := by
    rw [← Nat.pow_succ']
    congr 1
    omega
  have hpos : 0 < 4 ^ (m - 1) := Nat.pow_pos (by decide)
  have hindex : 2 * 4 ^ (m - 1) * 2 = 4 * 4 ^ (m - 1) := by omega
  have hne : FftLoc.src (4 * 4 ^ (m - 1)) ≠ .src (4 * 4 ^ (m - 1) + 2) := fun heq => by
    have := FftLoc.src.inj heq
    omega
  have hruns := @doubleVectors_runs (4 ^ (m - 1)) (fun _ => True) (fun _ => True) (by omega) trivial
    trivial trivial trivial (columns m stage mem)
  rw [hindex, ((doubleVectors_tasks hlen).allTasks _ _).1 (4 ^ (m - 1))
    (List.mem_range.mpr (by omega)) (Or.inl rfl), hruns.after, Function.update_of_ne hne,
    Function.update_self, columns_lower (by omega)]

theorem doubleLanes_all (hlen : 4 ^ m ≤ 2 ^ 29) :
    allTasks (4 ^ m) doubleLanes mem = allTasks (4 ^ m) doubleVectors mem :=
  List.foldl_ext _ _ _ fun mem _ hi =>
    doubleLanes_after ((List.mem_range.mp hi).le.trans hlen) mem

theorem zero_dotspH (x : V2s) : dotspH 0 x = 0 := by
  rw [dotspH, extractH_zero, extractH_zero, BitVec.zero_mul, BitVec.zero_mul, BitVec.add_zero]
  rfl

/-- For no length do the transforms agree on every input. -/
theorem by2_disagrees (hm : 2 ≤ m) (hlen : 4 * (2 * 4 ^ m) ≤ 2 ^ 32)
    (hbanks : 16 * 2 ^ p ≤ 2 ^ 32) : ¬By2Agrees m (2 ^ p) (by2Probe (4 ^ m)) := by
  intro h
  have hpow : 4 ^ m = 4 * 4 ^ (m - 1) := by
    rw [← Nat.pow_succ']
    congr 1
    omega
  have hpos : 0 < 4 ^ (m - 1) := Nat.pow_pos (by decide)
  have hserial : ∀ CoSi, rotateSerial 0 CoSi = 0 := fun _ => by
    rw [rotateSerial, zero_dotspH, zero_dotspH]
    rfl
  have hparallel : ∀ CoSi, rotateParallel 0 CoSi = 0 := fun _ => by
    rw [rotateParallel, zero_dotspH, zero_dotspH]
    rfl
  have heq := (by2Agrees_iff hm hlen hbanks).mp h (2 * 4 ^ (m - 1)) (by omega)
  rw [by2Parallel, by2Serial, doubleLanes_all (by omega),
    first_by2Probe hparallel (by omega) (by omega), first_by2Probe hserial (by omega) (by omega),
    double_probe (by omega) (by omega), double_probe (by omega) (by omega),
    serial_probe hm (by omega), parallel_probe hm (by omega)] at heq
  exact absurd heq (by decide)

/-! ## An input on which they agree -/

section OneInput

variable {m p n2 : Nat} {mem : FftLoc → V2s}

/-- The halves of two numbers. -/
def halved (n2 : Nat) (mem : FftLoc → V2s) (i : Nat) : V2s × V2s :=
  (sraH (mem (.src (2 * i))) 0x00010001, sraH (mem (.src (2 * (i + n2)))) 0x00010001)

/-- Half of their sum, for the first column. -/
def halfSum (n2 : Nat) (mem : FftLoc → V2s) (i : Nat) : V2s :=
  sraH (addH (halved n2 mem i).1 (halved n2 mem i).2) 0x00010001

/-- Their difference, turned, for the second column. -/
def turned (rotate : V2s → V2s → V2s) (n2 : Nat) (mem : FftLoc → V2s) (i : Nat) : V2s :=
  rotate (subH (halved n2 mem i).1 (halved n2 mem i).2) (mem (.coefSrc (2 * i)))

/-- The twiddle factors of `mem` and the numbers `x`. -/
def withNumbers (mem : FftLoc → V2s) (x : Nat → V2s) : FftLoc → V2s
  | .src k => x (k / 2)
  | a => mem a

/-- Both ways to turn make the same of the differences, and the first stages do of both columns. -/
structure By2FirstAgrees (m : Nat) (mem : FftLoc → V2s) : Prop where
  turned_eq : ∀ i < 4 ^ m, turned rotateParallel (4 ^ m) mem i = turned rotateSerial (4 ^ m) mem i
  sums : FirstAgrees m 2 (withNumbers mem (halfSum (4 ^ m) mem))
  differences : FirstAgrees m 2 (withNumbers mem (turned rotateSerial (4 ^ m) mem))

/-- The first stage reads the numbers and the twiddle factors. -/
theorem FirstAgrees.congr {mem' : FftLoc → V2s} (hm : 2 ≤ m) (h : FirstAgrees m 2 mem')
    (hsrc : ∀ i < 4 ^ m, mem (.src (i * 2)) = mem' (.src (i * 2)))
    (hcoef : ∀ k, mem (.coefSrc k) = mem' (.coefSrc k)) : FirstAgrees m 2 mem := by
  intro j hj
  have hpow : 4 ^ m = 4 * 4 ^ (m - 1) := by
    rw [← Nat.pow_succ']
    congr 1
    omega
  have hx : ∀ q < 4, mem (.src ((j + q * 4 ^ (m - 1)) * 2)) =
      mem' (.src ((j + q * 4 ^ (m - 1)) * 2)) := fun q hq => by
    have := Nat.mul_le_mul_right (4 ^ (m - 1)) (Nat.le_of_lt_succ hq)
    exact hsrc _ (by omega)
  have htwiddles : loadedTwiddles mem = loadedTwiddles mem' := by
    funext ic
    simp only [loadedTwiddles, hcoef]
  dsimp only
  rw [hx 0 (by decide), hx 1 (by decide), hx 2 (by decide), hx 3 (by decide), htwiddles]
  exact h j hj

/-- What the first loop leaves. -/
theorem first_all {rotate : V2s → V2s → V2s} (hn2 : n2 ≤ 2 ^ 29) :
    (∀ i < n2, allTasks n2 (by2First rotate n2) mem (.src (2 * i)) = halfSum n2 mem i ∧
      allTasks n2 (by2First rotate n2) mem (.src (2 * (i + n2))) = turned rotate n2 mem i) ∧
    ∀ a, (∀ i < n2, ¬FirstTouched n2 i a) → allTasks n2 (by2First rotate n2) mem a = mem a := by
  have hall := fun a => (@by2First_tasks n2 rotate hn2).allTasks mem a
  refine ⟨fun i hi => ?_, fun a hno => (hall a).2 fun i hi => hno i (List.mem_range.mp hi)⟩
  have hruns := @by2First_runs n2 i rotate (fun _ => True) (fun _ => True) hi hn2 trivial trivial
    trivial trivial trivial mem
  dsimp only at hruns
  have hne : FftLoc.src (2 * i) ≠ .src (2 * (i + n2)) := fun heq => by
    have := FftLoc.src.inj heq
    omega
  constructor
  · rw [(hall _).1 i (List.mem_range.mpr hi) (.inl rfl), hruns.after, Function.update_of_ne hne,
      Function.update_self]
    rfl
  · rw [(hall _).1 i (List.mem_range.mpr hi) (.inr rfl), hruns.after, Function.update_self]
    rfl

/-- Both first loops leave the same. -/
theorem By2FirstAgrees.first (h : By2FirstAgrees m mem) (hlen : 4 ^ m ≤ 2 ^ 29) :
    allTasks (4 ^ m) (by2First rotateParallel (4 ^ m)) mem =
      allTasks (4 ^ m) (by2First rotateSerial (4 ^ m)) mem := by
  obtain ⟨hin, hout⟩ := @first_all (4 ^ m) mem rotateParallel hlen
  obtain ⟨hin', hout'⟩ := @first_all (4 ^ m) mem rotateSerial hlen
  funext a
  by_cases htouched : ∃ i < 4 ^ m, FirstTouched (4 ^ m) i a
  · obtain ⟨i, hi, rfl | rfl⟩ := htouched
    · rw [(hin i hi).1, (hin' i hi).1]
    · rw [(hin i hi).2, (hin' i hi).2, h.turned_eq i hi]
  · have hno : ∀ i < 4 ^ m, ¬FirstTouched (4 ^ m) i a := fun i hi ha => htouched ⟨i, hi, ha⟩
    rw [hout a hno, hout' a hno]

/-- The stages of a column change its own numbers. -/
theorem sequential_outside {T k : Nat} {a : FftLoc} (hlen : 4 ^ m ≤ 2 ^ 30) (hk : k ≤ m)
    (ha : ∀ e < 4 ^ m, a ≠ .src (e * 2)) : sequential 4 m (radix4Stage m T) mem k a = mem a := by
  induction k with
  | zero => rfl
  | succ k ih =>
      have hno : ∀ x ∈ stageButterflies 4 m k, ¬Touched 4 (4 ^ (m - 1 - k)) x a := by
        rintro x hx ⟨q, hq, rfl⟩
        have hlength := stage_length (r := 4) (Nat.lt_of_succ_le hk)
        exact ha _ (hlength ▸ element_lt hx hq) rfl
      exact ((stage_after radix4_inPlace hlen (Nat.lt_of_succ_le hk) a).2 hno).trans
        (ih (Nat.le_of_succ_le hk))

/-- So both columns are the same. -/
theorem By2FirstAgrees.columns_eq (h : By2FirstAgrees m mem) (hm : 2 ≤ m) (hlen : 4 ^ m ≤ 2 ^ 29) :
    columns m (radix4Stage m 2) (allTasks (4 ^ m) (by2First rotateSerial (4 ^ m)) mem) =
      columns m (serialStage m 2) (allTasks (4 ^ m) (by2First rotateSerial (4 ^ m)) mem) := by
  obtain ⟨hin, hout⟩ := @first_all (4 ^ m) mem rotateSerial hlen
  generalize allTasks (4 ^ m) (by2First rotateSerial (4 ^ m)) mem = first at hin hout ⊢
  have hcoef : ∀ k, first (.coefSrc k) = mem (.coefSrc k) := fun k => hout _ fun i _ => by
    rintro (heq | heq)
    · cases heq
    · cases heq
  have hlower : FirstAgrees m 2 first := by
    refine h.sums.congr hm (fun i hi => ?_) hcoef
    rw [Nat.mul_comm i 2, (hin i hi).1, withNumbers, Nat.mul_div_cancel_left i Nat.two_pos]
  have hupper : FirstAgrees m 2
      (sequential 4 m (radix4Stage m 2) first m ∘ FftLoc.advance (2 * 4 ^ m)) := by
    refine h.differences.congr hm (fun i hi => ?_) fun k => ?_
    · have hplace : FftLoc.advance (2 * 4 ^ m) (.src (i * 2)) = .src (2 * (i + 4 ^ m)) :=
        congrArg FftLoc.src (by omega)
      have hnot : ∀ e < 4 ^ m, FftLoc.src (2 * (i + 4 ^ m)) ≠ .src (e * 2) := fun e he heq => by
        have := FftLoc.src.inj heq
        omega
      rw [Function.comp_apply, hplace, sequential_outside (by omega) (Nat.le_refl m) hnot,
        (hin i hi).2, withNumbers, Nat.mul_div_cancel i Nat.two_pos]
    · exact (sequential_outside (by omega) (Nat.le_refl m) fun e _ heq => by cases heq).trans
        (hcoef k)
  obtain ⟨k, rfl⟩ : ∃ k, m = k + 1 := ⟨m - 1, by omega⟩
  rw [columns, columns, ← hlower.sequential hm (by omega) k, hupper.sequential hm (by omega) k]

theorem By2FirstAgrees.agrees (h : By2FirstAgrees m mem) (hm : 2 ≤ m)
    (hlen : 4 * (2 * 4 ^ m) ≤ 2 ^ 32) (hbanks : 16 * 2 ^ p ≤ 2 ^ 32) :
    By2Agrees m (2 ^ p) mem := by
  refine (by2Agrees_iff hm hlen hbanks).mpr fun e _ => ?_
  rw [by2Parallel, by2Serial, doubleLanes_all (by omega), h.first (by omega),
    h.columns_eq hm (by omega)]

end OneInput

/-! ## When they agree -/

/-- Array and banks (four for each core) fit into the address space. The radix-4 transforms agree
on every input exactly for the modifiers with the indices of 1, and on one input if their first
stages do. The others never agree on every input, and on one input if they turn the differences
alike and the first stages of both columns agree. -/
theorem simd_transforms_agree_iff {T : Nat} (hm : 2 ≤ m) (hbanks : 16 * 2 ^ p ≤ 2 ^ 32) :
    (4 * 4 ^ m ≤ 2 ^ 32 → ((∀ mem, Radix4Agrees m T (2 ^ p) mem) ↔ T % 2 ^ 31 = 1) ∧
      ∀ mem, FirstAgrees m T mem → Radix4Agrees m T (2 ^ p) mem) ∧
    (4 * (2 * 4 ^ m) ≤ 2 ^ 32 → (¬∀ mem, By2Agrees m (2 ^ p) mem) ∧
      ∀ mem, By2FirstAgrees m mem → By2Agrees m (2 ^ p) mem) :=
  ⟨fun hlen => ⟨radix4_always_agrees_iff hm hlen hbanks,
    fun _ hfirst => hfirst.agrees hm hlen hbanks⟩,
    fun hlen => ⟨fun hall => by2_disagrees hm hlen hbanks (hall _),
      fun _ hfirst => hfirst.agrees hm hlen hbanks⟩⟩

/-- Numbers with equal halfwords, and the same real twiddle factor everywhere. -/
def equalParts : FftLoc → V2s
  | .src k => BitVec.ofNat 16 (100 * k) ++ BitVec.ofNat 16 (100 * k)
  | .coefSrc _ => 0x00004000
  | _ => 0

theorem simd_transforms_agree_two_cores :
    (∀ mem, Radix4Agrees 2 1 2 mem) ∧ (¬∀ mem, Radix4Agrees 2 2 2 mem) ∧
      (¬∀ mem, By2Agrees 2 2 mem) ∧ By2Agrees 2 2 equalParts :=
  have h1 := @simd_transforms_agree_iff 2 1 1 (by decide) (by decide)
  have h2 := @simd_transforms_agree_iff 2 1 2 (by decide) (by decide)
  ⟨(h1.1 (by decide)).1.mpr rfl, fun h => absurd ((h2.1 (by decide)).1.mp h) (by decide),
    (h2.2 (by decide)).1, (h2.2 (by decide)).2 equalParts
      { turned_eq := by decide +kernel
        sums := fun _ _ => rfl
        differences := fun _ _ => rfl }⟩

/-- With 16 numbers, modifier 2 and two cores: the number 8 of the array. -/
theorem radix4_disagrees_sixteen : ¬Radix4Agrees 2 2 2 probe := by
  intro h
  have heq := (@radix4Agrees_iff 2 2 1 probe (by decide) (by decide) (by decide)).mp h 8 (by decide)
  have hserial := @serial_probe 2 2 (by decide) (by decide)
  have hparallel := @parallel_probe 2 2 (by decide) (by decide)
  rw [if_neg (by decide)] at hparallel
  exact absurd (hparallel.symm.trans (heq.trans hserial)) (by decide)

end Transforms

end TeraNoC.Kernels
