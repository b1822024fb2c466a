import TeraNoC.Proofs.FftParallel

/-!
# The vector of a radix-4 transform

What the stages compute, as a vector that does not know where it is stored: each element comes
from the four elements of its butterfly in the vector before.
-/

namespace TeraNoC.Kernels

open TeraNoC.Lib TeraNoC.Runtime

section Vector

variable (W : Nat → V2s) (m : Nat)

/-- The twiddle factors with index `ic` of a table. -/
def twiddlesOf (ic : Nat) : Twiddles := shuffleTwiddlefact (W ic) (W (2 * ic)) (W (3 * ic))

/-- The butterfly at place `j` of stage `s`. -/
def butterflyAt (s j : Nat) : V2s → V2s → V2s → V2s → V2s × V2s × V2s × V2s :=
  if s = 0 then butterflyFirst (twiddlesOf W (j * 4 ^ s))
  else if s + 1 < m then butterflyMiddle (twiddlesOf W (j * 4 ^ s))
  else butterflyLast

/-- The butterfly of an element. -/
def butterflyOn (n2 e : Nat) : Nat × Nat := (e / (4 * n2), e % n2)

/-- Its wing. -/
def wing (n2 e : Nat) : Nat := e / n2 % 4

/-- A stage. -/
def stageVector (s : Nat) (X : Nat → V2s) (e : Nat) : V2s :=
  let n2 := 4 ^ (m - 1 - s)
  let x := butterflyOn n2 e
  pick (wing n2 e) (butterflyAt W m s x.2 (X (element 4 n2 x 0)) (X (element 4 n2 x 1))
    (X (element 4 n2 x 2)) (X (element 4 n2 x 3)))

/-- The vector before stage `s`. -/
def fftVector (X : Nat → V2s) : Nat → Nat → V2s
  | 0 => X
  | s + 1 => stageVector W m s (fftVector X s)

end Vector

/-! ## Elements and butterflies -/

section Elements

variable {n2 e q blocks : Nat} {x : Nat × Nat}

theorem element_butterflyOn : element 4 n2 (butterflyOn n2 e) (wing n2 e) = e := by
  rw [element, butterflyOn, wing, Nat.mul_comm 4 n2, ← Nat.div_div_eq_div_mul, Nat.mul_comm n2 4,
    ← Nat.mul_assoc, Nat.add_right_comm, ← Nat.add_mul, Nat.div_add_mod', Nat.div_add_mod']

theorem butterflyOn_element (hj : x.2 < n2) (hq : q < 4) :
    butterflyOn n2 (element 4 n2 x q) = x :=
  Prod.ext (element_block hj hq) (element_place hj)

theorem wing_element (hj : x.2 < n2) (hq : q < 4) : wing n2 (element 4 n2 x q) = q := by
  have hn2 : 0 < n2 := by omega
  rw [wing, element, Nat.add_mul_div_right _ _ hn2, ← Nat.mul_assoc, Nat.add_comm _ x.2,
    Nat.add_mul_div_right _ _ hn2, Nat.div_eq_of_lt hj]
  omega

theorem butterflyOn_mem (hn2 : 0 < n2) (he : e < blocks * (4 * n2)) :
    butterflyOn n2 e ∈ butterflies blocks n2 :=
  mem_butterflies.mpr ⟨Nat.div_lt_of_lt_mul (Nat.mul_comm blocks _ ▸ he), Nat.mod_lt e hn2⟩

theorem wing_lt_four : wing n2 e < 4 := Nat.mod_lt _ (by decide)

end Elements

/-! ## The unfolded transform -/

section Loaded

variable {m T s e q : Nat} {mem : FftLoc → V2s} {x : Nat × Nat}

/-- The twiddle factors with index `ic` that the memory holds. -/
def loadedTwiddles (mem : FftLoc → V2s) (ic : Nat) : Twiddles :=
  shuffleTwiddlefact (mem (.coefSrc (u32 (ic * 2)))) (mem (.coefSrc (u32 (2 * u32 (ic * 2)))))
    (mem (.coefSrc (u32 (3 * u32 (ic * 2)))))

/-- The butterfly at place `j` of stage `s`, with them. -/
def butterflyLoaded (m T s j : Nat) (mem : FftLoc → V2s) :
    V2s → V2s → V2s → V2s → V2s × V2s × V2s × V2s :=
  if s = 0 then butterflyFirst (loadedTwiddles mem (u32 (j * 4 ^ s * T)))
  else if s + 1 < m then butterflyMiddle (loadedTwiddles mem (u32 (j * 4 ^ s * T)))
  else butterflyLast

theorem radix4Twiddles_loads (ic : Nat) (mem : FftLoc → V2s) :
    (radix4Twiddles ic).Runs Coef (fun _ => False) mem (loadedTwiddles mem ic) mem :=
  (Prog.Runs.get ⟨_, rfl⟩ mem).bind ((Prog.Runs.get ⟨_, rfl⟩ mem).bind
    ((Prog.Runs.get ⟨_, rfl⟩ mem).bind (Prog.Runs.ret _ mem)))

/-- What a butterfly leaves in its elements. -/
theorem radix4Stage_element (hlen : 4 ^ m ≤ 2 ^ 30) (hs : s < m) (hx : x ∈ stageButterflies 4 m s)
    (hq : q < 4) :
    (radix4Stage m T s (single x)).after mem (.src (element 4 (4 ^ (m - 1 - s)) x q * 2)) =
      let n2 := 4 ^ (m - 1 - s)
      pick q (butterflyLoaded m T s x.2 mem (mem (.src (element 4 n2 x 0 * 2)))
        (mem (.src (element 4 n2 x 1 * 2))) (mem (.src (element 4 n2 x 2 * 2)))
        (mem (.src (element 4 n2 x 3 * 2)))) := by
  have hlen' : 4 ^ s * (4 * 4 ^ (m - 1 - s)) ≤ 2 ^ 30 := (stage_length hs).symm ▸ hlen
  have hload := radix4Twiddles_loads (u32 (x.2 * 4 ^ s * T)) mem
  unfold radix4Stage cfftStage butterflyLoaded
  dsimp only
  by_cases h0 : s = 0
  · simp only [if_pos h0, stageOf_single, butterflyOf]
    obtain ⟨mem', hruns, hval⟩ := radix4InPlace_runs (f := butterflyFirst (loadedTwiddles mem
      (u32 (x.2 * 4 ^ s * T)))) hx hlen' mem
    rw [((hload.mono (fun _ => Or.inl) fun _ => False.elim).bind
      (hruns.mono (fun _ => Or.inr) fun _ => id)).after]
    exact hval q hq
  · simp only [if_neg h0]
    by_cases hmid : s + 1 < m
    · simp only [if_pos hmid, stageOf_single, butterflyOf]
      obtain ⟨mem', hruns, hval⟩ := radix4InPlace_runs (f := butterflyMiddle (loadedTwiddles mem
        (u32 (x.2 * 4 ^ s * T)))) hx hlen' mem
      rw [((hload.mono (fun _ => Or.inl) fun _ => False.elim).bind
        (hruns.mono (fun _ => Or.inr) fun _ => id)).after]
      exact hval q hq
    · have hn2 : 4 ^ (m - 1 - s) = 1 := by rw [show m - 1 - s = 0 by omega, Nat.pow_zero]
      simp only [if_neg hmid, stageOf_single, butterflyOf]
      unfold stageButterflies at hx
      rw [hn2] at hx hlen' ⊢
      obtain ⟨mem', hruns, hval⟩ := radix4InPlace_runs (f := butterflyLast) hx hlen' mem
      change (radix4InPlace butterflyLast (x.1 * (4 * 1) + x.2) 1).after mem _ = _
      rw [hruns.after]
      exact hval q hq

/-- What a stage leaves in them. -/
theorem radix4Stage_all (hlen : 4 ^ m ≤ 2 ^ 30) (hs : s < m) (hx : x ∈ stageButterflies 4 m s)
    (hq : q < 4) :
    (radix4Stage m T s (allWork 4 m s)).after mem (.src (element 4 (4 ^ (m - 1 - s)) x q * 2)) =
      let n2 := 4 ^ (m - 1 - s)
      pick q (butterflyLoaded m T s x.2 mem (mem (.src (element 4 n2 x 0 * 2)))
        (mem (.src (element 4 n2 x 1 * 2))) (mem (.src (element 4 n2 x 2 * 2)))
        (mem (.src (element 4 n2 x 3 * 2)))) :=
  ((stage_after radix4_inPlace hlen hs _).1 x hx ⟨q, hq, rfl⟩).trans
    (radix4Stage_element hlen hs hx hq)

/-- The same by element. -/
theorem radix4Stage_after (hlen : 4 ^ m ≤ 2 ^ 30) (hs : s < m) (he : e < 4 ^ m) :
    (radix4Stage m T s (allWork 4 m s)).after mem (.src (e * 2)) =
      let n2 := 4 ^ (m - 1 - s)
      let x := butterflyOn n2 e
      pick (wing n2 e) (butterflyLoaded m T s x.2 mem (mem (.src (element 4 n2 x 0 * 2)))
        (mem (.src (element 4 n2 x 1 * 2))) (mem (.src (element 4 n2 x 2 * 2)))
        (mem (.src (element 4 n2 x 3 * 2)))) := by
  have hx : butterflyOn (4 ^ (m - 1 - s)) e ∈ stageButterflies 4 m s :=
    butterflyOn_mem (Nat.pow_pos (by decide)) ((stage_length (r := 4) hs).symm ▸ he)
  have hall := @radix4Stage_all m T s _ mem _ hlen hs hx (@wing_lt_four (4 ^ (m - 1 - s)) e)
  rwa [element_butterflyOn] at hall

/-- The table stays as it is. -/
theorem radix4Stage_coef (hlen : 4 ^ m ≤ 2 ^ 30) (hs : s < m) (i : Nat) :
    (radix4Stage m T s (allWork 4 m s)).after mem (.coefSrc i) = mem (.coefSrc i) :=
  (stage_after radix4_inPlace hlen hs _).2 fun _ _ => coef_untouched ⟨i, rfl⟩

end Loaded

section Unfolded

variable {W : Nat → V2s} {m s ic e : Nat} {mem : FftLoc → V2s}

/-- The table of a transform of length `4 ^ m`. -/
def HoldsTable (W : Nat → V2s) (m : Nat) (mem : FftLoc → V2s) : Prop :=
  ∀ i < 3 * 4 ^ (m - 1), mem (.coefSrc (2 * i)) = W i

theorem HoldsTable.loaded (htable : HoldsTable W m mem) (hic : ic < 4 ^ (m - 1))
    (hlen : 4 ^ (m - 1) ≤ 2 ^ 28) : loadedTwiddles mem ic = twiddlesOf W ic := by
  have h1 : mem (.coefSrc (u32 (ic * 2))) = W ic := by
    rw [u32_eq (by omega), Nat.mul_comm]
    exact htable ic (by omega)
  have h2 : mem (.coefSrc (u32 (2 * u32 (ic * 2)))) = W (2 * ic) := by
    rw [u32_eq (show ic * 2 < 2 ^ 32 by omega), u32_eq (by omega), Nat.mul_comm ic]
    exact htable (2 * ic) (by omega)
  have h3 : mem (.coefSrc (u32 (3 * u32 (ic * 2)))) = W (3 * ic) := by
    rw [u32_eq (show ic * 2 < 2 ^ 32 by omega), u32_eq (by omega),
      show 3 * (ic * 2) = 2 * (3 * ic) by omega]
    exact htable (3 * ic) (by omega)
  rw [loadedTwiddles, h1, h2, h3, twiddlesOf]

/-- With a modifier of 1 the indices stay below the length of the table. -/
theorem HoldsTable.butterfly (htable : HoldsTable W m mem) (hlen : 4 ^ m ≤ 2 ^ 30) (hs : s < m)
    {j : Nat} (hj : j < 4 ^ (m - 1 - s)) : butterflyLoaded m 1 s j mem = butterflyAt W m s j := by
  have hpow : 4 ^ m = 4 * 4 ^ (m - 1) := by
    rw [← Nat.pow_succ']
    congr 1
    omega
  have hic : j * 4 ^ s < 4 ^ (m - 1) := by
    have hmul := Nat.mul_lt_mul_of_pos_right hj (Nat.pow_pos (n := s) (show 0 < 4 by decide))
    rwa [← Nat.pow_add, show m - 1 - s + s = m - 1 by omega] at hmul
  have hindex : u32 (j * 4 ^ s * 1) = j * 4 ^ s := by
    rw [Nat.mul_one, u32_eq (by omega)]
  rw [butterflyLoaded, butterflyAt, hindex, htable.loaded hic (by omega)]

/-- The stages on a single core compute the vector. -/
theorem sequential_vector (hlen : 4 ^ m ≤ 2 ^ 30) (htable : HoldsTable W m mem) (hs : s ≤ m) :
    HoldsTable W m (sequential 4 m (radix4Stage m 1) mem s) ∧ ∀ e < 4 ^ m,
      sequential 4 m (radix4Stage m 1) mem s (.src (e * 2)) =
        fftVector W m (fun e => mem (.src (e * 2))) s e := by
  induction s with
  | zero => exact ⟨htable, fun e _ => rfl⟩
  | succ s ih =>
      obtain ⟨htable', hvec⟩ := ih (by omega)
      have hs' : s < m := by omega
      have hlen' := stage_length (r := 4) hs'
      have hn2 : 0 < 4 ^ (m - 1 - s) := Nat.pow_pos (by decide)
      refine ⟨fun i hi => (radix4Stage_coef hlen hs' _).trans (htable' i hi), fun e he => ?_⟩
      have hx : butterflyOn (4 ^ (m - 1 - s)) e ∈ stageButterflies 4 m s :=
        butterflyOn_mem hn2 (hlen' ▸ he)
      have hbefore : ∀ q < 4, sequential 4 m (radix4Stage m 1) mem s
          (.src (element 4 (4 ^ (m - 1 - s)) (butterflyOn (4 ^ (m - 1 - s)) e) q * 2)) =
            fftVector W m (fun e => mem (.src (e * 2))) s
              (element 4 (4 ^ (m - 1 - s)) (butterflyOn (4 ^ (m - 1 - s)) e) q) :=
        fun q hq => hvec _ (hlen' ▸ element_lt hx hq)
      refine (radix4Stage_after hlen hs' he).trans ?_
      dsimp only
      rw [hbefore 0 (by decide), hbefore 1 (by decide), hbefore 2 (by decide),
        hbefore 3 (by decide), htable'.butterfly hlen hs' (mem_butterflies.mp hx).2]
      rfl

end Unfolded

end TeraNoC.Kernels
