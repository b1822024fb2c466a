import TeraNoC.Kernels.FftSerial
import TeraNoC.Proofs.FftVector

/-!
# The radix-4 transform of a single core

It goes through the stages of the parallel one, with every butterfly of a stage, but the twiddle
factors of its first stage are those for modifier 1. The two agree on every input exactly for the
modifiers that give the same indices as 1.
-/

namespace TeraNoC.Kernels

open TeraNoC.Lib TeraNoC.Runtime

/-! ## The stages -/

section Serial

variable {m T s fuel : Nat}

/-- Stage `s` of the transform of a single core. -/
def serialStage (m twidCoefModifier s : Nat) : Work → Prog FftLoc V2s Unit :=
  radix4Stage m (if s = 0 then 1 else twidCoefModifier) s

theorem firstTwiddles_eq {i0 : Nat} : firstTwiddles i0 = radix4Twiddles i0 := by
  unfold firstTwiddles radix4Twiddles
  rw [Nat.mul_comm 2 i0, Nat.mul_comm (u32 (i0 * 2)) 2, Nat.mul_comm (u32 (i0 * 2)) 3]

theorem serialFirst_eq (hm : 0 < m) (hlen : 4 ^ m ≤ 2 ^ 30) (hfuel : 4 ^ m ≤ fuel) :
    serialFirst fuel (4 ^ (m - 1)) = serialStage m T 0 (allWork 4 m 0) := by
  have hn2 : 4 ^ (m - 1) ≤ 4 ^ m := Nat.pow_le_pow_right (by decide) (by omega)
  unfold serialFirst countLoop serialStage radix4Stage cfftStage stageOf allWork
  rw [loop_eq _ (n := 4 ^ (m - 1)) (fun k hk => by omega) (by omega) (by omega) (by omega),
    Prog.each_map, if_pos rfl, if_pos rfl, Nat.sub_zero, Prog.each_map]
  refine Prog.each_congr fun j hj => ?_
  have hj := List.mem_range.mp hj
  have hindex : u32 (j * 1 * 1) = j := by rw [Nat.mul_one, Nat.mul_one, u32_eq (by omega)]
  dsimp only
  rw [firstTwiddles_eq, Nat.mul_one, Nat.zero_add, Nat.pow_zero, hindex]
  refine congrArg _ (funext fun w => ?_)
  rw [List.range_one, Prog.each_singleton, Nat.zero_mul, Nat.zero_add]

theorem serialMiddle_eq (hs : 0 < s) (hmid : s + 1 < m) (hlen : 4 ^ m ≤ 2 ^ 30)
    (hfuel : 4 ^ m ≤ fuel) :
    serialMiddle (4 ^ m) fuel (4 ^ (m - s)) (4 ^ (m - 1 - s)) (u32 (T * 4 ^ s)) =
      serialStage m T s (allWork 4 m s) := by
  have hpos : 0 < 4 ^ (m - 1 - s) := Nat.pow_pos (by decide)
  have hle : 4 ^ (m - 1 - s) ≤ 4 ^ m := Nat.pow_le_pow_right (by decide) (by omega)
  have hblocks : 4 ^ s ≤ 4 ^ m := Nat.pow_le_pow_right (by decide) (by omega)
  have hn1 : 4 ^ (m - s) = 4 * 4 ^ (m - 1 - s) := by
    rw [← Nat.pow_succ']
    congr 1
    omega
  have hsplit : 4 ^ s * 4 ^ (m - s) = 4 ^ m := by
    rw [← Nat.pow_add]
    congr 1
    omega
  have hsub : sub32 (4 ^ (m - 1 - s)) 1 = 4 ^ (m - 1 - s) - 1 := sub32_eq hpos (by omega)
  have hrow : ∀ b j, b < 4 ^ s → j < 4 ^ (m - 1 - s) → j + b * 4 ^ (m - s) < 4 ^ m := by
    intro b j hb hj
    have hmul := Nat.mul_le_mul_right (4 ^ (m - s)) (Nat.succ_le_of_lt hb)
    rw [Nat.succ_mul] at hmul
    omega
  unfold serialMiddle serialStage radix4Stage cfftStage stageOf allWork
  dsimp only
  rw [if_neg hs.ne', if_pos hmid, if_neg hs.ne', ← hn1, Prog.each_map]
  change Prog.bind (Prog.forLoop _ _ _ _ ((fun k => k) 0) ((fun k => u32 (u32 (T * 4 ^ s) * k)) 0))
    _ = _
  let task (j : Nat) : Prog FftLoc V2s Unit := do
    let w ← radix4Twiddles (u32 (j * 4 ^ s * T))
    Prog.each (fun b => radix4ButterflyMiddle w (b * 4 ^ (m - s) + j) (4 ^ (m - 1 - s)))
      (List.range (4 ^ s))
  rw [@Prog.forLoop_each _ _ _ _ _ _ _ task (4 ^ (m - 1 - s)) (fun k => k)
    (fun k => u32 (u32 (T * 4 ^ s) * k))
    (fun k hk => decide_eq_true (by omega)) (decide_eq_false (by omega))
    (fun k hk => u32_eq (by omega)) (fun j hj => ?_) (by omega), Prog.bind_assoc]
  · exact Prog.bind_ret _
  · have hindex : u32 (u32 (T * 4 ^ s) * j) = u32 (j * 4 ^ s * T) := by
      rw [u32, u32, Nat.mod_mul_mod, Nat.mul_comm, Nat.mul_comm T, ← Nat.mul_assoc]
      rfl
    have hnext : u32 (u32 (u32 (T * 4 ^ s) * j) + u32 (T * 4 ^ s)) =
        u32 (u32 (T * 4 ^ s) * (j + 1)) := Nat.mod_add_mod _ _ _
    rw [hnext, hindex]
    change _ = Prog.bind (Prog.bind _ _) _
    rw [Prog.bind_assoc]
    refine congrArg (Prog.bind _) (funext fun w => ?_)
    have hloop := @loop_eq fuel (fun i0 => radix4ButterflyMiddle w i0 (4 ^ (m - 1 - s))) j (4 ^ m)
      (4 ^ (m - s)) (4 ^ s) (fun b hb => hrow b j hb hj) (by omega) (by omega) (by omega)
    simp only [Prog.each_map, Nat.add_comm j] at hloop
    rw [← hloop]
    change Prog.bind _ _ = Prog.bind (Prog.bind _ _) _
    rw [Prog.bind_assoc]
    rfl

theorem serialLast_eq (hm : 2 ≤ m) (hlen : 4 ^ m ≤ 2 ^ 30) (hfuel : 4 ^ m ≤ fuel) :
    serialLast (4 ^ m) fuel 4 = serialStage m T (m - 1) (allWork 4 m (m - 1)) := by
  have hpow : 4 ^ m = 4 ^ (m - 1) * 4 := by
    rw [← Nat.pow_succ]
    congr 1
    omega
  unfold serialLast serialStage radix4Stage cfftStage stageOf allWork
  rw [loop_eq _ (n := 4 ^ (m - 1)) (fun k hk => by omega) (by omega) (by omega) (by omega),
    Prog.each_map, if_neg (show ¬m - 1 = 0 by omega), if_neg (show ¬m - 1 = 0 by omega),
    if_neg (show ¬m - 1 + 1 < m by omega), Nat.sub_self, Nat.pow_zero]
  dsimp only
  rw [List.range_one, List.map_singleton, Prog.each_singleton]
  simp only [Nat.zero_add, Nat.add_zero, Nat.mul_one]
  rfl

/-- The transform is its stages. -/
theorem serial_eq (hm : 2 ≤ m) (hlen : 4 ^ m ≤ 2 ^ 30) (hfuel : 4 ^ m ≤ fuel) :
    mempoolRadix4CfftQ16sXpulpimg (4 ^ m) T fuel =
      Prog.each (fun s => serialStage m T s (allWork 4 m s)) (List.range m) := by
  obtain ⟨d, rfl⟩ : ∃ d, m = d + 2 := ⟨m - 2, by omega⟩
  have hdlt := Nat.lt_pow_self (n := d + 2) (show 1 < 4 by decide)
  have hshift : ∀ k, 4 ^ (k + 1) >>> 2 = 4 ^ k := shift_pow rfl
  have hone : 1 < 4 := by decide
  have hloop : Prog.forLoop (fun k => 4 < k) (fun k => k >>> 2)
      (fun _ (s : Nat × Nat) => do
        serialMiddle (4 ^ (d + 2)) fuel s.1 (s.1 >>> 2) s.2
        pure (s.1 >>> 2, u32 (s.2 <<< 2)))
      fuel (4 ^ (d + 1 - 0)) (4 ^ (d + 1 - 0), u32 (T * 4 ^ (0 + 1))) =
      (Prog.each (fun k => serialStage (d + 2) T (k + 1) (allWork 4 (d + 2) (k + 1)))
        (List.range d)).bind fun _ =>
          .ret (4 ^ (d + 1 - d), 4 ^ (d + 1 - d), u32 (T * 4 ^ (d + 1))) := by
    refine Prog.forLoop_each (fun k => 4 ^ (d + 1 - k))
      (fun k => (4 ^ (d + 1 - k), u32 (T * 4 ^ (k + 1)))) (fun k hk => ?_) ?_ (fun k hk => ?_)
      (fun k hk => ?_) (by omega)
    · refine decide_eq_true ?_
      have hlt := Nat.pow_lt_pow_right hone (show 1 < d + 1 - k by omega)
      rwa [Nat.pow_one] at hlt
    · rw [Nat.add_sub_cancel_left, Nat.pow_one]
      rfl
    · rw [show d + 1 - k = d + 1 - (k + 1) + 1 by omega, hshift]
    · have htwid : u32 (u32 (T * 4 ^ (k + 1)) <<< 2) = u32 (T * 4 ^ (k + 1 + 1)) := by
        rw [Nat.shiftLeft_eq, u32, u32, Nat.mod_mul_mod, Nat.pow_succ 4 (k + 1), Nat.mul_assoc]
        rfl
      have hstage := @serialMiddle_eq (d + 2) T (k + 1) fuel (Nat.succ_pos k) (by omega) hlen hfuel
      rw [show d + 2 - (k + 1) = d + 1 - k by omega, show d + 2 - 1 - (k + 1) = d + 1 - (k + 1) by
        omega] at hstage
      dsimp only
      rw [show d + 1 - k = d + 1 - (k + 1) + 1 by omega, hshift,
        show d + 1 - (k + 1) + 1 = d + 1 - k by omega, hstage, htwid]
      rfl
  have hfirst : serialFirst fuel (4 ^ (d + 1)) = serialStage (d + 2) T 0 (allWork 4 (d + 2) 0) :=
    serialFirst_eq (by omega) hlen hfuel
  have hlast : serialLast (4 ^ (d + 2)) fuel (4 ^ (d + 1 - d)) =
      serialStage (d + 2) T (d + 1) (allWork 4 (d + 2) (d + 1)) := by
    rw [Nat.add_sub_cancel_left]
    exact serialLast_eq hm hlen hfuel
  have htwid : u32 (T <<< 2) = u32 (T * 4 ^ (0 + 1)) := by rw [Nat.shiftLeft_eq]; rfl
  have hdiv : 4 ^ (d + 2) / 4 = 4 ^ (d + 1) := Nat.mul_div_cancel _ (by decide)
  unfold mempoolRadix4CfftQ16sXpulpimg
  rw [Nat.sub_zero] at hloop
  rw [hshift, hdiv, htwid, List.range_succ_eq_map, Prog.each, Prog.each_map, List.range_succ,
    Prog.each_append, Prog.each_singleton, ← hlast, ← hfirst]
  dsimp only
  rw [hloop]
  change Prog.bind _ (fun _ => Prog.bind (Prog.bind _ _) _) = _
  simp only [Prog.bind_assoc]
  rfl

theorem sequential_foldl {r : Nat} {stage : Nat → Work → Prog FftLoc V2s Unit}
    {mem : FftLoc → V2s} (k : Nat) : sequential r m stage mem k =
      (List.range k).foldl (fun mem s => (stage s (allWork r m s)).after mem) mem := by
  induction k with
  | zero => rfl
  | succ k ih => rw [List.range_succ, List.foldl_append, ← ih]; rfl

/-- A single core ends, and leaves what the stages make of the memory. -/
theorem serial_runs (hm : 2 ≤ m) (hlen : 4 ^ m ≤ 2 ^ 30) (hfuel : 4 ^ m ≤ fuel)
    (mem : FftLoc → V2s) : (mempoolRadix4CfftQ16sXpulpimg (4 ^ m) T fuel).Runs (fun _ => True)
      (fun _ => True) mem () (sequential 4 m (serialStage m T) mem m) := by
  rw [serial_eq hm hlen hfuel, sequential_foldl]
  refine Prog.Runs.each (fun s hs mem => ?_) mem
  have hruns := @cfftStage_runs Twiddles 4 m (if s = 0 then 1 else T) s radix4Twiddles
    radix4ButterflyFirst radix4ButterflyMiddle (fun i0 _ => radix4ButterflyLast i0) mem
    radix4_inPlace hlen (List.mem_range.mp hs) (allWork 4 m s)
    fun x hx => allWork_perm.mem_iff.mp hx
  have hafter := hruns.after
  refine (hafter.symm ▸ hruns :).mono (fun _ _ => trivial) fun _ _ => trivial

end Serial

/-! ## The same array -/

section Same

variable {len nPE bound : Nat} {serial : Nat → Prog FftLoc V2s Unit}
  {kernel : Nat → Nat → Prog FftLoc V2s Unit} {mem left left' : FftLoc → V2s}

/-- With enough turns a single core and every run of a team end, and both leave the same array of
`len` complex numbers. -/
def SameArray (len nPE : Nat) (serial : Nat → Prog FftLoc V2s Unit)
    (kernel : Nat → Nat → Prog FftLoc V2s Unit) (mem : FftLoc → V2s) : Prop :=
  ∃ bound, ∀ fuel ≥ bound, ∃ left, (serial fuel).run mem = (.ret (), left) ∧
    Team.Finally (fun t => t.Returned (fun _ => ()) ∧
      ∀ e < len, t.mem (.src (e * 2)) = left (.src (e * 2)))
      (⟨mem, fun core => kernel core fuel⟩ : Team FftLoc V2s Unit nPE)

theorem sameArray_iff (hserial : ∀ fuel ≥ bound, (serial fuel).run mem = (.ret (), left))
    (hkernel : ∀ fuel ≥ bound, Team.Finally (fun t => t.Returned (fun _ => ()) ∧ t.mem = left')
      (⟨mem, fun core => kernel core fuel⟩ : Team FftLoc V2s Unit nPE)) :
    SameArray len nPE serial kernel mem ↔
      ∀ e < len, left' (.src (e * 2)) = left (.src (e * 2)) := by
  constructor
  · rintro ⟨bound', hsame⟩
    obtain ⟨left₁, hrun, hteam⟩ := hsame (max bound bound') (Nat.le_max_right _ _)
    obtain ⟨t, ⟨-, ht⟩, -, hleft⟩ := hteam.both (hkernel _ (Nat.le_max_left _ _))
    rw [hserial _ (Nat.le_max_left _ _)] at hrun
    obtain ⟨-, rfl⟩ := Prod.mk.inj hrun
    exact hleft ▸ ht
  · intro heq
    refine ⟨bound, fun fuel hfuel => ⟨left, hserial fuel hfuel,
      (hkernel fuel hfuel).mono fun t ht => ⟨ht.1, ?_⟩⟩⟩
    rw [ht.2]
    exact heq

end Same

section Radix4

variable {m T p : Nat} {mem : FftLoc → V2s}

/-- The two transforms of an array of `4 ^ m` numbers. -/
def Radix4Agrees (m T nPE : Nat) (mem : FftLoc → V2s) : Prop :=
  SameArray (4 ^ m) nPE (mempoolRadix4CfftQ16sXpulpimg (4 ^ m) T)
    (mempoolRadix4CfftQ16pXpulpimg (4 ^ m) T nPE) mem

/-- It is the stages that have to agree, whatever the cores do in between. -/
theorem radix4Agrees_iff (hm : 2 ≤ m) (hlen : 4 * 4 ^ m ≤ 2 ^ 32) (hbanks : 16 * 2 ^ p ≤ 2 ^ 32) :
    Radix4Agrees m T (2 ^ p) mem ↔ ∀ e < 4 ^ m,
      sequential 4 m (radix4Stage m T) mem m (.src (e * 2)) =
        sequential 4 m (serialStage m T) mem m (.src (e * 2)) :=
  sameArray_iff (fun _ hfuel => (serial_runs hm (by omega) hfuel mem).run) fun fuel hfuel =>
    (radix4_scheduled m p T hm hbanks hlen).result fuel hfuel mem

/-! ## When the first stages agree -/

/-- The butterflies of the first stage compute the same with the twiddle factors of both. -/
def FirstAgrees (m T : Nat) (mem : FftLoc → V2s) : Prop :=
  ∀ j < 4 ^ (m - 1),
    let x := fun q => mem (.src ((j + q * 4 ^ (m - 1)) * 2))
    butterflyFirst (loadedTwiddles mem (u32 (j * T))) (x 0) (x 1) (x 2) (x 3) =
      butterflyFirst (loadedTwiddles mem j) (x 0) (x 1) (x 2) (x 3)

/-- It has one block. -/
theorem first_after (hm : 2 ≤ m) (hlen : 4 ^ m ≤ 2 ^ 30) {j q : Nat} (hj : j < 4 ^ (m - 1))
    (hq : q < 4) : (radix4Stage m T 0 (allWork 4 m 0)).after mem
      (.src ((j + q * 4 ^ (m - 1)) * 2)) =
        pick q (butterflyFirst (loadedTwiddles mem (u32 (j * T)))
          (mem (.src ((j + 0 * 4 ^ (m - 1)) * 2))) (mem (.src ((j + 1 * 4 ^ (m - 1)) * 2)))
          (mem (.src ((j + 2 * 4 ^ (m - 1)) * 2))) (mem (.src ((j + 3 * 4 ^ (m - 1)) * 2)))) := by
  have helement : ∀ q, element 4 (4 ^ (m - 1)) (0, j) q = j + q * 4 ^ (m - 1) := fun q => by
    rw [element, Nat.zero_mul, Nat.zero_add]
  have hall := @radix4Stage_all m T 0 q mem (0, j) hlen (by omega)
    (mem_butterflies.mpr ⟨Nat.one_pos, hj⟩) hq
  dsimp only at hall
  rwa [Nat.sub_zero, butterflyLoaded, if_pos rfl, helement, helement, helement, helement, helement,
    Nat.pow_zero, Nat.mul_one] at hall

theorem FirstAgrees.stage (h : FirstAgrees m T mem) (hm : 2 ≤ m) (hlen : 4 ^ m ≤ 2 ^ 30) :
    (radix4Stage m T 0 (allWork 4 m 0)).after mem =
      (serialStage m T 0 (allWork 4 m 0)).after mem := by
  have hn2 : 4 ^ (m - 1) ≤ 4 ^ m := Nat.pow_le_pow_right (by decide) (by omega)
  have hvalue : ∀ x ∈ stageButterflies 4 m 0, ∀ q < 4,
      (radix4Stage m T 0 (allWork 4 m 0)).after mem (.src (element 4 (4 ^ (m - 1)) x q * 2)) =
        (serialStage m T 0 (allWork 4 m 0)).after mem
          (.src (element 4 (4 ^ (m - 1)) x q * 2)) := by
    intro x hx q hq
    obtain ⟨hb, hj⟩ : x.1 < 4 ^ 0 ∧ x.2 < 4 ^ (m - 1) := mem_butterflies.mp hx
    have helement : element 4 (4 ^ (m - 1)) x q = x.2 + q * 4 ^ (m - 1) := by
      rw [element, Nat.lt_one_iff.mp hb, Nat.zero_mul, Nat.zero_add]
    have hagrees := h x.2 hj
    dsimp only at hagrees
    rw [helement, serialStage, if_pos rfl, first_after hm hlen hj hq, first_after hm hlen hj hq,
      hagrees, Nat.mul_one, u32_eq (by omega)]
  funext a
  by_cases ha : ∃ x ∈ stageButterflies 4 m 0, Touched 4 (4 ^ (m - 1 - 0)) x a
  · obtain ⟨x, hx, htouched⟩ := ha
    obtain ⟨q, hq, rfl⟩ := htouched
    exact hvalue x hx q hq
  · have hno : ∀ x ∈ stageButterflies 4 m 0, ¬Touched 4 (4 ^ (m - 1 - 0)) x a :=
      fun x hx htouched => ha ⟨x, hx, htouched⟩
    exact ((stage_after radix4_inPlace hlen (by omega) a).2 hno).trans
      ((stage_after radix4_inPlace hlen (by omega) a).2 hno).symm

/-- The rest of the stages is the same for both. -/
theorem FirstAgrees.sequential (h : FirstAgrees m T mem) (hm : 2 ≤ m) (hlen : 4 ^ m ≤ 2 ^ 30)
    (k : Nat) : Kernels.sequential 4 m (radix4Stage m T) mem (k + 1) =
      Kernels.sequential 4 m (serialStage m T) mem (k + 1) := by
  induction k with
  | zero => exact h.stage hm hlen
  | succ k ih =>
      have hstage : serialStage m T (k + 1) = radix4Stage m T (k + 1) := by
        rw [serialStage, if_neg (Nat.succ_ne_zero k)]
      change (radix4Stage m T (k + 1) _).after _ = (serialStage m T (k + 1) _).after _
      rw [ih, hstage]

theorem FirstAgrees.agrees (h : FirstAgrees m T mem) (hm : 2 ≤ m) (hlen : 4 * 4 ^ m ≤ 2 ^ 32)
    (hbanks : 16 * 2 ^ p ≤ 2 ^ 32) : Radix4Agrees m T (2 ^ p) mem := by
  refine (radix4Agrees_iff hm hlen hbanks).mpr fun e _ => ?_
  obtain ⟨k, rfl⟩ : ∃ k, m = k + 1 := ⟨m - 1, by omega⟩
  rw [h.sequential hm (by omega)]

/-- A modifier that gives the indices of 1. -/
theorem firstAgrees_of_mod (hT : T % 2 ^ 31 = 1) (mem : FftLoc → V2s) : FirstAgrees m T mem := by
  intro j hj
  have hindex : u32 (u32 (j * T) * 2) = u32 (j * 2) := by
    have hsplit : j * T = 2 ^ 31 * (j * (T / 2 ^ 31)) + j := by
      have hdiv := Nat.div_add_mod T (2 ^ 31)
      rw [hT] at hdiv
      rw [← Nat.mul_left_comm, ← Nat.mul_succ, Nat.succ_eq_add_one, hdiv]
    unfold u32
    omega
  unfold loadedTwiddles
  rw [hindex]

/-! ## An input on which they differ -/

/-- One number of the input, and the twiddle factor with index 1. -/
def probe : FftLoc → V2s
  | .src i => if i = 2 then 0x0000FFFC else 0
  | .coefSrc i => if i = 2 then 1 else 0
  | _ => 0

/-- From the second stage on, all numbers of the third quarter are zero but the second one of each
block that the wings have shrunk to. -/
def OnPath (m s : Nat) (v : V2s) (mem : FftLoc → V2s) : Prop :=
  ∀ j < 4 ^ (m - s), mem (.src ((j + 2 * 4 ^ (m - 1)) * 2)) = if j = 1 then v else 0

theorem extractH_zero (k : Nat) : extractH 0 k = 0#32 := by simp [extractH, lane]

theorem dotspH_zero (x : V2s) : dotspH x 0 = 0 := by
  rw [dotspH, extractH_zero, extractH_zero, BitVec.mul_zero, BitVec.mul_zero, BitVec.add_zero]
  rfl

/-- The third output of a butterfly of the first stage whose inputs are zero but the first one. -/
theorem butterflyFirst_third (w : Twiddles) :
    pick 2 (butterflyFirst w 0 0 0 0) = 0 ∧
      pick 2 (butterflyFirst w 0x0000FFFC 0 0 0) =
        packH (sra16 (dotspH w.C1 0x0000FFFF)) (sra16 (dotspH w.CoSi1 0x0000FFFF)) := by
  refine ⟨?_, rfl⟩
  change packH (sra16 (dotspH w.C1 0)) (sra16 (dotspH w.CoSi1 0)) = 0
  rw [dotspH_zero, dotspH_zero]
  rfl

theorem onPath_first (hm : 2 ≤ m) (hlen : 4 ^ m ≤ 2 ^ 30) :
    OnPath m 1 (if T % 2 ^ 31 = 1 then 0x0000FFFF else 0)
      ((radix4Stage m T 0 (allWork 4 m 0)).after probe) := by
  intro j hj
  have hn2 : 4 ^ 1 ≤ 4 ^ (m - 1) := Nat.pow_le_pow_right (by decide) (by omega)
  have hzero : ∀ i, i ≠ 1 → probe (.src (i * 2)) = 0 := fun i hi => if_neg (by omega)
  rw [first_after hm hlen hj (by decide), hzero (j + 1 * 4 ^ (m - 1)) (by omega),
    hzero (j + 2 * 4 ^ (m - 1)) (by omega), hzero (j + 3 * 4 ^ (m - 1)) (by omega), Nat.zero_mul,
    Nat.add_zero]
  by_cases h1 : j = 1
  · subst h1
    have hcoef : probe (.coefSrc (u32 (u32 (1 * T) * 2))) = if T % 2 ^ 31 = 1 then 1 else 0 := by
      refine if_congr ?_ rfl rfl
      unfold u32
      omega
    rw [if_pos rfl]
    refine (butterflyFirst_third _).2.trans ?_
    unfold loadedTwiddles shuffleTwiddlefact
    rw [hcoef]
    dsimp only
    split
    · decide
    · decide
  · rw [if_neg h1, hzero j h1]
    exact (butterflyFirst_third _).1

/-- The butterflies on the path. -/
theorem OnPath.inputs {s j q : Nat} {v : V2s} (h : OnPath m s v mem) (hs : 0 < s) (hsm : s < m)
    (hj : j < 4 ^ (m - 1 - s)) (hq : q < 4) :
    (2 * 4 ^ (s - 1), j) ∈ stageButterflies 4 m s ∧
      element 4 (4 ^ (m - 1 - s)) (2 * 4 ^ (s - 1), j) q =
        j + q * 4 ^ (m - 1 - s) + 2 * 4 ^ (m - 1) ∧
      mem (.src (element 4 (4 ^ (m - 1 - s)) (2 * 4 ^ (s - 1), j) q * 2)) =
        if j + q * 4 ^ (m - 1 - s) = 1 then v else 0 := by
  obtain ⟨k, rfl⟩ : ∃ k, s = k + 1 := ⟨s - 1, by omega⟩
  have hbase : 2 * 4 ^ k * (4 * 4 ^ (m - 1 - (k + 1))) = 2 * 4 ^ (m - 1) := by
    rw [Nat.mul_assoc, ← Nat.pow_succ', ← Nat.pow_add]
    congr 2
    omega
  have hwings : 4 * 4 ^ (m - 1 - (k + 1)) = 4 ^ (m - (k + 1)) := by
    rw [← Nat.pow_succ']
    congr 1
    omega
  have hb : 2 * 4 ^ k < 4 ^ (k + 1) := by
    have := Nat.pow_pos (n := k) (show 0 < 4 by decide)
    omega
  have helement : element 4 (4 ^ (m - 1 - (k + 1))) (2 * 4 ^ k, j) q =
      j + q * 4 ^ (m - 1 - (k + 1)) + 2 * 4 ^ (m - 1) := by
    rw [element, hbase]
    omega
  refine ⟨mem_butterflies.mpr ⟨hb, hj⟩, helement, ?_⟩
  rw [Nat.add_sub_cancel, helement]
  exact h _ (hwings ▸ wing_lt hj hq)

theorem butterflyMiddle_path (w : Twiddles) {v : V2s} (hv : v = 0x0000FFFF ∨ v = 0) :
    pick 0 (butterflyMiddle w v 0 0 0) = v := by
  let s1 : V2s := 0x00010001
  change sraH (addH (sraH (addH v 0) s1) (sraH (addH 0 0) s1)) s1 = v
  rcases hv with rfl | rfl
  · decide
  · decide

theorem onPath_middle {s : Nat} {v : V2s} (hs : 0 < s) (hmid : s + 1 < m) (hlen : 4 ^ m ≤ 2 ^ 30)
    (hv : v = 0x0000FFFF ∨ v = 0) (h : OnPath m s v mem) :
    OnPath m (s + 1) v ((radix4Stage m T s (allWork 4 m s)).after mem) := by
  intro j hj
  rw [Nat.add_comm, ← Nat.sub_sub] at hj
  have hn2 : 4 ^ 1 ≤ 4 ^ (m - 1 - s) := Nat.pow_le_pow_right (by decide) (by omega)
  obtain ⟨hx, h0, hv0⟩ := h.inputs hs (by omega) hj (show 0 < 4 by decide)
  have hv1 := (h.inputs hs (by omega) hj (show 1 < 4 by decide)).2.2
  have hv2 := (h.inputs hs (by omega) hj (show 2 < 4 by decide)).2.2
  have hv3 := (h.inputs hs (by omega) hj (show 3 < 4 by decide)).2.2
  have hall := @radix4Stage_all m T s 0 mem _ hlen (by omega) hx (by decide)
  dsimp only at hall
  rw [hv0, hv1, hv2, hv3, if_neg (show ¬j + 1 * _ = 1 by omega),
    if_neg (show ¬j + 2 * _ = 1 by omega), if_neg (show ¬j + 3 * _ = 1 by omega), h0, Nat.zero_mul,
    Nat.add_zero, butterflyLoaded, if_neg hs.ne', if_pos hmid] at hall
  refine hall.trans (butterflyMiddle_path _ ?_)
  split
  · exact hv
  · exact Or.inr rfl

/-- The number at the beginning of the third quarter is the value of the path in the end. -/
theorem onPath_last {v : V2s} (hm : 2 ≤ m) (hlen : 4 ^ m ≤ 2 ^ 30)
    (hv : v = 0x0000FFFF ∨ v = 0) (h : OnPath m (m - 1) v mem) :
    (radix4Stage m T (m - 1) (allWork 4 m (m - 1))).after mem (.src (2 * 4 ^ (m - 1) * 2)) = v := by
  have hj : 0 < 4 ^ (m - 1 - (m - 1)) := Nat.pow_pos (by decide)
  obtain ⟨hx, h0, hv0⟩ := h.inputs (by omega) (by omega) hj (show 0 < 4 by decide)
  have hv1 := (h.inputs (by omega) (by omega) hj (show 1 < 4 by decide)).2.2
  have hv2 := (h.inputs (by omega) (by omega) hj (show 2 < 4 by decide)).2.2
  have hv3 := (h.inputs (by omega) (by omega) hj (show 3 < 4 by decide)).2.2
  have hall := @radix4Stage_all m T (m - 1) 0 mem _ hlen (by omega) hx (by decide)
  dsimp only at hall
  rw [hv0, hv1, hv2, hv3, h0, butterflyLoaded, if_neg (show ¬m - 1 = 0 by omega),
    if_neg (show ¬m - 1 + 1 < m by omega), Nat.sub_self, Nat.pow_zero] at hall
  simp only [Nat.zero_add, Nat.zero_mul] at hall
  refine hall.trans ?_
  rcases hv with rfl | rfl
  · decide
  · decide

/-- The value of the path shows whether the first stage has the indices of modifier 1. -/
theorem onPath_sequential {first : Nat} {stage : Nat → Work → Prog FftLoc V2s Unit} (hm : 2 ≤ m)
    (hlen : 4 ^ m ≤ 2 ^ 30) (hfirst : stage 0 = radix4Stage m first 0)
    (hrest : ∀ s, stage (s + 1) = radix4Stage m T (s + 1)) :
    sequential 4 m stage probe m (.src (2 * 4 ^ (m - 1) * 2)) =
      if first % 2 ^ 31 = 1 then 0x0000FFFF else 0 := by
  have hv : (if first % 2 ^ 31 = 1 then 0x0000FFFF else 0 : V2s) = 0x0000FFFF ∨
      (if first % 2 ^ 31 = 1 then 0x0000FFFF else 0 : V2s) = 0 := by
    split
    · exact Or.inl rfl
    · exact Or.inr rfl
  have hpath : ∀ k, k + 1 < m → OnPath m (k + 1)
      (if first % 2 ^ 31 = 1 then 0x0000FFFF else 0) (sequential 4 m stage probe (k + 1)) := by
    intro k hk
    induction k with
    | zero =>
        rw [sequential, hfirst]
        exact onPath_first hm hlen
    | succ k ih =>
        rw [sequential, hrest]
        exact onPath_middle (Nat.succ_pos k) hk hlen hv (ih (by omega))
  obtain ⟨k, rfl⟩ : ∃ k, m = k + 2 := ⟨m - 2, by omega⟩
  rw [sequential, hrest]
  exact onPath_last hm hlen hv (hpath k (by omega))

theorem serial_probe (hm : 2 ≤ m) (hlen : 4 ^ m ≤ 2 ^ 30) :
    sequential 4 m (serialStage m T) probe m (.src (2 * 4 ^ (m - 1) * 2)) = 0x0000FFFF :=
  @onPath_sequential m T 1 _ hm hlen rfl fun s => by
    rw [serialStage, if_neg (Nat.succ_ne_zero s)]

theorem parallel_probe (hm : 2 ≤ m) (hlen : 4 ^ m ≤ 2 ^ 30) :
    sequential 4 m (radix4Stage m T) probe m (.src (2 * 4 ^ (m - 1) * 2)) =
      if T % 2 ^ 31 = 1 then 0x0000FFFF else 0 :=
  onPath_sequential hm hlen rfl fun _ => rfl

/-- The transforms agree on every input exactly for the modifiers with the indices of 1. -/
theorem radix4_always_agrees_iff (hm : 2 ≤ m) (hlen : 4 * 4 ^ m ≤ 2 ^ 32)
    (hbanks : 16 * 2 ^ p ≤ 2 ^ 32) :
    (∀ mem, Radix4Agrees m T (2 ^ p) mem) ↔ T % 2 ^ 31 = 1 := by
  constructor
  · intro h
    have hpow : 4 ^ m = 4 * 4 ^ (m - 1) := by
      rw [← Nat.pow_succ']
      congr 1
      omega
    have hpos : 0 < 4 ^ (m - 1) := Nat.pow_pos (by decide)
    have heq := (radix4Agrees_iff hm hlen hbanks).mp (h probe) (2 * 4 ^ (m - 1)) (by omega)
    rw [serial_probe hm (by omega), parallel_probe hm (by omega)] at heq
    by_contra hne
    rw [if_neg hne] at heq
    exact absurd heq (by decide)
  · exact fun hT mem => (firstAgrees_of_mod hT mem).agrees hm hlen hbanks

end Radix4

end TeraNoC.Kernels
