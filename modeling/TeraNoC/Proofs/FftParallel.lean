import TeraNoC.Lib.Sharing
import TeraNoC.Proofs.Fft

/-!
# The interleavings of a parallel transform

What two butterflies of a stage touch is disjoint, whichever cores do them, so that the barriers
are enough: the array ends as if a single core had gone through the stages.
-/

namespace TeraNoC.Kernels

open TeraNoC.Lib TeraNoC.Runtime

/-! ## The elements of a butterfly -/

section Elements

variable {r blocks n2 q : Nat} {x y : Nat × Nat} {a : FftLoc}

/-- The element of a butterfly in wing `q`. -/
def element (r n2 : Nat) (x : Nat × Nat) (q : Nat) : Nat := x.1 * (r * n2) + x.2 + q * n2

/-- What a butterfly loads from the array, and stores to. -/
def Touched (r n2 : Nat) (x : Nat × Nat) (a : FftLoc) : Prop :=
  ∃ q < r, a = .src (element r n2 x q * 2)

/-- The twiddle factors. -/
def Coef (a : FftLoc) : Prop := ∃ i, a = .coefSrc i

theorem wing_lt {j : Nat} (hj : j < n2) (hq : q < r) : j + q * n2 < r * n2 := by
  have hmul := Nat.mul_le_mul_right n2 (Nat.succ_le_of_lt hq)
  rw [Nat.succ_mul] at hmul
  omega

theorem element_lt (hx : x ∈ butterflies blocks n2) (hq : q < r) :
    element r n2 x q < blocks * (r * n2) := by
  obtain ⟨hb, hj⟩ := mem_butterflies.mp hx
  have hwing := wing_lt hj hq
  have hmul := Nat.mul_le_mul_right (r * n2) (Nat.succ_le_of_lt hb)
  rw [Nat.succ_mul] at hmul
  unfold element
  omega

/-- The butterfly is read off the element: its block, and its place in the wing. -/
theorem element_block (hj : x.2 < n2) (hq : q < r) : element r n2 x q / (r * n2) = x.1 := by
  have hwing := wing_lt hj hq
  rw [element, Nat.add_assoc, Nat.mul_comm, Nat.mul_add_div (by omega), Nat.div_eq_of_lt hwing,
    Nat.add_zero]

theorem element_place (hj : x.2 < n2) : element r n2 x q % n2 = x.2 := by
  rw [element, ← Nat.mul_assoc, Nat.add_mul_mod_self_right, Nat.mul_add_mod_self_right,
    Nat.mod_eq_of_lt hj]

theorem touched_apart (hx : x ∈ butterflies blocks n2) (hy : y ∈ butterflies blocks n2)
    (hxa : Touched r n2 x a) (hya : Touched r n2 y a) : x = y := by
  obtain ⟨q, hq, rfl⟩ := hxa
  obtain ⟨q', hq', heq⟩ := hya
  have helement : element r n2 x q = element r n2 y q' := by
    have := FftLoc.src.inj heq
    omega
  have hjx := (mem_butterflies.mp hx).2
  have hjy := (mem_butterflies.mp hy).2
  refine Prod.ext ?_ ?_
  · rw [← element_block hjx hq, helement, element_block hjy hq']
  · rw [← @element_place r n2 q x hjx, helement, element_place hjy]

theorem touched_within (hx : x ∈ butterflies blocks n2) (hxa : Touched r n2 x a) :
    ∃ i < blocks * (r * n2), a = .src (i * 2) := by
  obtain ⟨q, hq, rfl⟩ := hxa
  exact ⟨_, element_lt hx hq, rfl⟩

end Elements

/-! ## The butterflies -/

section Butterflies

variable {blocks n2 : Nat} {x : Nat × Nat}

/-- The butterflies of a kernel stay in place. -/
structure InPlace {W : Type} (r : Nat) (twiddles : Nat → Prog FftLoc V2s W)
    (first middle : W → Nat → Nat → Prog FftLoc V2s Unit)
    (last : Nat → Nat → Prog FftLoc V2s Unit) : Prop where
  loads : ∀ ic m, ∃ w, (twiddles ic).Runs Coef (fun _ => False) m w m
  first : ∀ {blocks n2 : Nat} {x : Nat × Nat}, x ∈ butterflies blocks n2 →
    blocks * (r * n2) ≤ 2 ^ 30 → ∀ w m, ∃ m',
      (first w (x.1 * (r * n2) + x.2) n2).Runs (Touched r n2 x) (Touched r n2 x) m () m'
  middle : ∀ {blocks n2 : Nat} {x : Nat × Nat}, x ∈ butterflies blocks n2 →
    blocks * (r * n2) ≤ 2 ^ 30 → ∀ w m, ∃ m',
      (middle w (x.1 * (r * n2) + x.2) n2).Runs (Touched r n2 x) (Touched r n2 x) m () m'
  last : ∀ {blocks : Nat} {x : Nat × Nat}, x ∈ butterflies blocks 1 →
    blocks * (r * 1) ≤ 2 ^ 30 → ∀ m, ∃ m',
      (last (x.1 * (r * 1) + x.2) 1).Runs (Touched r 1 x) (Touched r 1 x) m () m'

/-- A butterfly of radix 4: the four loads, and then the four stores. -/
theorem radix4Butterfly_runs {f : V2s → V2s → V2s → V2s → V2s × V2s × V2s × V2s}
    {pIn pOut : Nat → FftLoc} {i0 i1 i2 i3 o0 o1 o2 o3 : Nat} {R W : FftLoc → Prop}
    {m : FftLoc → V2s} (hi0 : R (pIn (u32 (i0 * 2)))) (hi1 : R (pIn (u32 (i1 * 2))))
    (hi2 : R (pIn (u32 (i2 * 2)))) (hi3 : R (pIn (u32 (i3 * 2))))
    (ho0 : W (pOut (u32 (o0 * 2)))) (ho1 : W (pOut (u32 (o1 * 2))))
    (ho2 : W (pOut (u32 (o2 * 2)))) (ho3 : W (pOut (u32 (o3 * 2)))) :
    let s := f (m (pIn (u32 (i0 * 2)))) (m (pIn (u32 (i1 * 2)))) (m (pIn (u32 (i2 * 2))))
      (m (pIn (u32 (i3 * 2))))
    (radix4Butterfly f pIn pOut i0 i1 i2 i3 o0 o1 o2 o3).Runs R W m ()
      (Function.update (Function.update (Function.update (Function.update m
        (pOut (u32 (o0 * 2))) s.1) (pOut (u32 (o1 * 2))) s.2.1) (pOut (u32 (o2 * 2))) s.2.2.1)
        (pOut (u32 (o3 * 2))) s.2.2.2) :=
  (Prog.Runs.get hi1 m).bind ((Prog.Runs.get hi3 m).bind ((Prog.Runs.get hi0 m).bind
    ((Prog.Runs.get hi2 m).bind ((Prog.Runs.set ho0 _ m).bind ((Prog.Runs.set ho1 _ _).bind
      ((Prog.Runs.set ho2 _ _).bind (Prog.Runs.set ho3 _ _)))))))

/-- The value for wing `q`. -/
def pick (q : Nat) (s : V2s × V2s × V2s × V2s) : V2s :=
  match q with
  | 0 => s.1
  | 1 => s.2.1
  | 2 => s.2.2.1
  | _ => s.2.2.2

/-- Four stores to four locations. -/
theorem pick_update {a : Nat → FftLoc} (ha : ∀ q < 4, ∀ q' < 4, a q = a q' → q = q')
    (m : FftLoc → V2s) (s : V2s × V2s × V2s × V2s) {q : Nat} (hq : q < 4) :
    Function.update (Function.update (Function.update (Function.update m (a 0) s.1) (a 1) s.2.1)
      (a 2) s.2.2.1) (a 3) s.2.2.2 (a q) = pick q s := by
  have hne : ∀ q' < 4, q ≠ q' → a q ≠ a q' := fun q' hq' hne heq => hne (ha q hq q' hq' heq)
  obtain rfl | rfl | rfl | rfl : q = 0 ∨ q = 1 ∨ q = 2 ∨ q = 3 := by omega
  · rw [Function.update_of_ne (hne 3 (by decide) (by decide)),
      Function.update_of_ne (hne 2 (by decide) (by decide)),
      Function.update_of_ne (hne 1 (by decide) (by decide)), Function.update_self]
    rfl
  · rw [Function.update_of_ne (hne 3 (by decide) (by decide)),
      Function.update_of_ne (hne 2 (by decide) (by decide)), Function.update_self]
    rfl
  · rw [Function.update_of_ne (hne 3 (by decide) (by decide)), Function.update_self]
    rfl
  · rw [Function.update_self]
    rfl

theorem radix4InPlace_runs {f : V2s → V2s → V2s → V2s → V2s × V2s × V2s × V2s}
    (hx : x ∈ butterflies blocks n2) (hlen : blocks * (4 * n2) ≤ 2 ^ 30) (m : FftLoc → V2s) :
    ∃ m', (radix4InPlace f (x.1 * (4 * n2) + x.2) n2).Runs (Touched 4 n2 x) (Touched 4 n2 x) m ()
        m' ∧
      ∀ q < 4, m' (.src (element 4 n2 x q * 2)) = pick q (f (m (.src (element 4 n2 x 0 * 2)))
        (m (.src (element 4 n2 x 1 * 2))) (m (.src (element 4 n2 x 2 * 2)))
        (m (.src (element 4 n2 x 3 * 2)))) := by
  have hlast := element_lt hx (show 3 < 4 by decide)
  have h1 : u32 (x.1 * (4 * n2) + x.2 + n2) = element 4 n2 x 1 := by
    unfold element at *
    rw [u32_eq (by omega), Nat.one_mul]
  have h2 : u32 (element 4 n2 x 1 + n2) = element 4 n2 x 2 := by
    unfold element at *
    rw [u32_eq (by omega)]
    omega
  have h3 : u32 (element 4 n2 x 2 + n2) = element 4 n2 x 3 := by
    unfold element at *
    rw [u32_eq (by omega)]
    omega
  have h0 : x.1 * (4 * n2) + x.2 = element 4 n2 x 0 := by rw [element, Nat.zero_mul, Nat.add_zero]
  have hindex : ∀ q < 4, u32 (element 4 n2 x q * 2) = element 4 n2 x q * 2 := fun q hq => by
    have hlt := element_lt hx hq
    exact u32_eq (by omega)
  have htouched : ∀ q < 4, Touched 4 n2 x (.src (u32 (element 4 n2 x q * 2))) := fun q hq => by
    rw [hindex q hq]
    exact ⟨q, hq, rfl⟩
  unfold radix4InPlace
  dsimp only
  rw [h1, h2, h3, h0]
  refine ⟨_, radix4Butterfly_runs (htouched 0 (by decide)) (htouched 1 (by decide))
    (htouched 2 (by decide)) (htouched 3 (by decide)) (htouched 0 (by decide))
    (htouched 1 (by decide)) (htouched 2 (by decide)) (htouched 3 (by decide)), fun q hq => ?_⟩
  rw [hindex 0 (by decide), hindex 1 (by decide), hindex 2 (by decide), hindex 3 (by decide)]
  have hn2 : 0 < n2 := (Nat.zero_le x.2).trans_lt (mem_butterflies.mp hx).2
  refine pick_update (a := fun q => .src (element 4 n2 x q * 2)) (fun q _ q' _ heq => ?_) m _ hq
  have hmul : q * n2 = q' * n2 := by
    have := FftLoc.src.inj heq
    unfold element at this
    omega
  exact Nat.eq_of_mul_eq_mul_right hn2 hmul

theorem radix4_inPlace : InPlace 4 radix4Twiddles radix4ButterflyFirst radix4ButterflyMiddle
    (fun i0 _ => radix4ButterflyLast i0) where
  loads _ m := ⟨_, (Prog.Runs.get ⟨_, rfl⟩ m).bind ((Prog.Runs.get ⟨_, rfl⟩ m).bind
    ((Prog.Runs.get ⟨_, rfl⟩ m).bind (Prog.Runs.ret _ m)))⟩
  first hx hlen _ m := (radix4InPlace_runs hx hlen m).imp fun _ => And.left
  middle hx hlen _ m := (radix4InPlace_runs hx hlen m).imp fun _ => And.left
  last hx hlen m := (radix4InPlace_runs hx hlen m).imp fun _ => And.left

/-- The two elements of a butterfly of radix 2. -/
theorem radix2_touched (hx : x ∈ butterflies blocks n2) (hlen : blocks * (2 * n2) ≤ 2 ^ 30) :
    Touched 2 n2 x (.src (u32 ((x.1 * (2 * n2) + x.2) * 2))) ∧
      Touched 2 n2 x (.src (u32 (u32 (x.1 * (2 * n2) + x.2 + n2) * 2))) := by
  have hlast := element_lt hx (show 1 < 2 by decide)
  unfold element at hlast
  rw [u32_eq (show x.1 * (2 * n2) + x.2 + n2 < 2 ^ 32 by omega), u32_eq (by omega),
    u32_eq (by omega)]
  exact ⟨⟨0, by decide, by rw [element, Nat.zero_mul, Nat.add_zero]⟩,
    ⟨1, by decide, by rw [element, Nat.one_mul]⟩⟩

theorem radix2Butterfly_runs (scale : Bool) (hx : x ∈ butterflies blocks n2)
    (hlen : blocks * (2 * n2) ≤ 2 ^ 30) (coeff : V2s) (m : FftLoc → V2s) :
    ∃ m', (radix2Butterfly scale coeff (x.1 * (2 * n2) + x.2) n2).Runs (Touched 2 n2 x)
      (Touched 2 n2 x) m () m' := by
  obtain ⟨hi, hl⟩ := radix2_touched hx hlen
  exact ⟨_, (Prog.Runs.get hi m).bind ((Prog.Runs.get hl m).bind
    ((Prog.Runs.set hi _ m).bind (Prog.Runs.set hl _ _)))⟩

theorem radix2_inPlace : InPlace 2 (fun ia => Prog.get (.coefSrc (u32 (ia * 2))))
    (radix2Butterfly true) (radix2Butterfly false) radix2ButterflyLast where
  loads _ m := ⟨_, Prog.Runs.get ⟨_, rfl⟩ m⟩
  first hx hlen w m := radix2Butterfly_runs true hx hlen w m
  middle hx hlen w m := radix2Butterfly_runs false hx hlen w m
  last hx hlen m := by
    obtain ⟨hi, hl⟩ := radix2_touched hx hlen
    exact ⟨_, (Prog.Runs.get hi m).bind ((Prog.Runs.get hl m).bind
      ((Prog.Runs.set hi _ m).bind (Prog.Runs.set hl _ _)))⟩

end Butterflies

/-! ## The stages -/

section Stages

variable {W : Type} {r m twid nPE s : Nat} {twiddles : Nat → Prog FftLoc V2s W}
  {first middle : W → Nat → Nat → Prog FftLoc V2s Unit} {last : Nat → Nat → Prog FftLoc V2s Unit}
  {mem : FftLoc → V2s}

/-- The butterflies of stage `s`. -/
def stageButterflies (r m s : Nat) : List (Nat × Nat) := butterflies (r ^ s) (r ^ (m - 1 - s))

/-- A butterfly as the work of a core. -/
def single (x : Nat × Nat) : Work := [(x.2, [x.1])]

/-- All butterflies of a stage, by place, as the work of a single core. -/
def allWork (r m s : Nat) : Work :=
  (List.range (r ^ (m - 1 - s))).map fun j => (j, List.range (r ^ s))

theorem single_butterflies (x : Nat × Nat) : (single x).butterflies = [x] := rfl

theorem allWork_perm : (allWork r m s).butterflies.Perm (stageButterflies r m s) := by
  refine (List.perm_ext_iff_of_nodup ?_ (nodup_butterflies _ _)).mpr fun x => ?_
  · rw [Work.butterflies, allWork, List.flatMap_map]
    refine List.nodup_flatMap.mpr ⟨fun j _ => List.nodup_range.map fun b b' h =>
      (Prod.mk.inj h).1, List.nodup_range.imp fun {j j'} hne x hx hx' => hne ?_⟩
    obtain ⟨b, -, rfl⟩ := List.mem_map.mp hx
    obtain ⟨b', -, heq⟩ := List.mem_map.mp hx'
    exact (Prod.mk.inj heq).2.symm
  · rw [mem_butterflies, Work.butterflies, allWork, List.flatMap_map, List.mem_flatMap]
    constructor
    · rintro ⟨j, hj, hx⟩
      obtain ⟨b, hb, rfl⟩ := List.mem_map.mp hx
      exact ⟨List.mem_range.mp hb, List.mem_range.mp hj⟩
    · rintro ⟨hb, hj⟩
      exact ⟨x.2, List.mem_range.mpr hj, List.mem_map.mpr ⟨x.1, List.mem_range.mpr hb, rfl⟩⟩

/-- The cores of a power of two take each butterfly of a stage once. -/
theorem cfftWork_perm {log p : Nat} (hr : r = 2 ^ log) (hs : s < m) :
    ((List.range (2 ^ p)).flatMap fun core => (cfftWork r m (2 ^ p) s core).butterflies).Perm
      (stageButterflies r m s) := by
  have hrpos : 0 < r := hr ▸ Nat.two_pow_pos log
  have hPE : 0 < 2 ^ p := Nat.two_pow_pos p
  have hn2 : 0 < r ^ (m - 1 - s) := Nat.pow_pos hrpos
  unfold stageButterflies cfftWork
  dsimp only
  by_cases h0 : s = 0
  · subst h0
    simp only [if_pos]
    exact firstWork_perm hn2 hPE
  · simp only [if_neg h0]
    by_cases hmid : s + 1 < m
    · simp only [if_pos hmid]
      by_cases hle : 2 ^ p ≤ r ^ (m - 1 - s)
      · exact middleWork_perm_le hn2 hPE hle
      · have hdvd : r ^ (m - 1 - s) ∣ 2 ^ p := by
          rw [hr, ← Nat.pow_mul] at hle ⊢
          have hlt : log * (m - 1 - s) < p :=
            (Nat.pow_lt_pow_iff_right (show 1 < 2 by decide)).mp (Nat.lt_of_not_le hle)
          exact Nat.pow_dvd_pow 2 hlt.le
        exact middleWork_perm_dvd hn2 (by omega) hdvd
    · simp only [if_neg hmid]
      rw [show m - 1 - s = 0 by omega, Nat.pow_zero]
      exact lastWork_perm (Nat.pow_pos hrpos) hPE

variable (hplace : InPlace r twiddles first middle last) (hlen : r ^ m ≤ 2 ^ 30)

theorem stage_length (hs : s < m) : r ^ s * (r * r ^ (m - 1 - s)) = r ^ m := by
  rw [← Nat.pow_succ', ← Nat.pow_add]
  congr 1
  omega

theorem stageOf_single {W : Type} {twiddles : Nat → Prog FftLoc V2s W}
    {butterfly : W → Nat → Nat → Prog FftLoc V2s Unit} {index : Nat → Nat} {n1 n2 : Nat}
    (x : Nat × Nat) : stageOf twiddles butterfly index n1 n2 (single x) =
      butterflyOf twiddles butterfly index n1 n2 x := by
  rw [stageOf, single, Prog.each_singleton, butterflyOf]
  simp only [Prog.each_singleton]

theorem coef_untouched {n2 : Nat} {x : Nat × Nat} {a : FftLoc} (ha : Coef a) :
    ¬Touched r n2 x a := by
  obtain ⟨i, rfl⟩ := ha
  rintro ⟨q, -, heq⟩
  cases heq

include hplace hlen

/-- The work of a core in a stage: its butterflies, one after the other. -/
theorem cfftStage_runs (hs : s < m) {work : Work}
    (hwork : ∀ x ∈ work.butterflies, x ∈ stageButterflies r m s) :
    (cfftStage r twiddles first middle last m twid s work).Runs
      (fun a => Coef a ∨ ∃ x ∈ work.butterflies, Touched r (r ^ (m - 1 - s)) x a)
      (fun a => ∃ x ∈ work.butterflies, Touched r (r ^ (m - 1 - s)) x a) mem ()
      (work.butterflies.foldl (fun mem x =>
        (cfftStage r twiddles first middle last m twid s (single x)).after mem) mem) := by
  have hlen' : r ^ s * (r * r ^ (m - 1 - s)) ≤ 2 ^ 30 := (stage_length hs).symm ▸ hlen
  unfold cfftStage
  dsimp only
  by_cases h0 : s = 0
  · simp only [if_pos h0, stageOf_single]
    exact Touches.stage_runs ⟨hplace.loads, fun x hx w m => hplace.first hx hlen' w m,
      fun x _ a ha => coef_untouched ha⟩ hwork
  · simp only [if_neg h0]
    by_cases hmid : s + 1 < m
    · simp only [if_pos hmid, stageOf_single]
      exact Touches.stage_runs ⟨hplace.loads, fun x hx w m => hplace.middle hx hlen' w m,
        fun x _ a ha => coef_untouched ha⟩ hwork
    · have hn2 : r ^ (m - 1 - s) = 1 := by rw [show m - 1 - s = 0 by omega, Nat.pow_zero]
      simp only [if_neg hmid, stageOf_single]
      rw [stageButterflies] at hwork
      rw [hn2] at hlen' hwork ⊢
      exact Touches.stage_runs ⟨fun _ m => ⟨(), Prog.Runs.ret () m⟩,
        fun x hx w m => hplace.last hx hlen' m, fun x _ a ha => coef_untouched ha⟩ hwork

theorem single_runs (hs : s < m) {x : Nat × Nat} (hx : x ∈ stageButterflies r m s)
    (mem : FftLoc → V2s) :
    (cfftStage r twiddles first middle last m twid s (single x)).Runs
      (fun a => Coef a ∨ Touched r (r ^ (m - 1 - s)) x a) (Touched r (r ^ (m - 1 - s)) x) mem ()
      ((cfftStage r twiddles first middle last m twid s (single x)).after mem) := by
  have hruns := @cfftStage_runs W r m twid s twiddles first middle last mem hplace
    hlen hs (single x)
    (by
      rw [single_butterflies]
      exact fun y hy => List.mem_singleton.mp hy ▸ hx)
  rw [single_butterflies] at hruns
  refine hruns.mono ?_ ?_
  · rintro a (ha | ⟨y, hy, ha⟩)
    · exact Or.inl ha
    · exact Or.inr (List.mem_singleton.mp hy ▸ ha)
  · rintro a ⟨y, hy, ha⟩
    exact List.mem_singleton.mp hy ▸ ha

theorem single_local (hs : s < m) {x : Nat × Nat} (hx : x ∈ stageButterflies r m s) :
    Local (fun a => Coef a ∨ Touched r (r ^ (m - 1 - s)) x a) (Touched r (r ^ (m - 1 - s)) x)
      (cfftStage r twiddles first middle last m twid s (single x)).after :=
  Local.of_runs (fun _ => Or.inr) fun mem => ⟨_, single_runs hplace hlen hs hx mem⟩

omit hplace hlen in
theorem butterflies_apart {x y : Nat × Nat} (hx : x ∈ stageButterflies r m s)
    (hy : y ∈ stageButterflies r m s) (hne : x ≠ y) :
    Apart (fun x a => Coef a ∨ Touched r (r ^ (m - 1 - s)) x a)
    (Touched r (r ^ (m - 1 - s))) x y := by
  refine fun a hxa => ⟨?_, fun hya => hne (touched_apart hx hy hxa hya)⟩
  rintro (ha | hya)
  · exact coef_untouched ha hxa
  · exact hne (touched_apart hx hy hxa hya)

/-- What a stage leaves: a butterfly's elements are as if it had been the only one. -/
theorem stage_after (hs : s < m) (a : FftLoc) :
    (∀ x ∈ stageButterflies r m s, Touched r (r ^ (m - 1 - s)) x a →
      (cfftStage r twiddles first middle last m twid s (allWork r m s)).after mem a =
        (cfftStage r twiddles first middle last m twid s (single x)).after mem a) ∧
    ((∀ x ∈ stageButterflies r m s, ¬Touched r (r ^ (m - 1 - s)) x a) →
      (cfftStage r twiddles first middle last m twid s (allWork r m s)).after mem a = mem a) := by
  have hall : ∀ {x}, x ∈ (allWork r m s).butterflies ↔ x ∈ stageButterflies r m s :=
    allWork_perm.mem_iff
  rw [(cfftStage_runs hplace hlen hs fun x => hall.mp).after]
  obtain ⟨hin, hout⟩ := foldl_local (m := mem) (a := a)
    (fun x hx => single_local hplace hlen hs (hall.mp hx))
    (allWork_perm.nodup_iff.mpr (nodup_butterflies _ _))
    fun x hx y hy hne => butterflies_apart (hall.mp hx) (hall.mp hy) hne
  exact ⟨fun x hx => hin x (hall.mpr hx), fun h => hout fun x hx => h x (hall.mp hx)⟩

/-- The butterflies of a stage one after the other. -/
theorem foldl_single (hs : s < m) : (allWork r m s).butterflies.foldl (fun mem x =>
    (cfftStage r twiddles first middle last m twid s (single x)).after mem) mem =
      (cfftStage r twiddles first middle last m twid s (allWork r m s)).after mem :=
  (cfftStage_runs hplace hlen hs fun _ hx => allWork_perm.mem_iff.mp hx).after.symm

/-- The cores share the butterflies of a stage. -/
theorem stage_sharing {work : Nat → Work} (hs : s < m)
    (hshare : ((List.range nPE).flatMap fun core => (work core).butterflies).Perm
      (stageButterflies r m s)) :
    Team.Sharing (n := nPE) Coef (fun x a => Coef a ∨ Touched r (r ^ (m - 1 - s)) x a)
      (Touched r (r ^ (m - 1 - s)))
      (fun x => (cfftStage r twiddles first middle last m twid s (single x)).after)
      (fun core => (work core).butterflies) (allWork r m s).butterflies
      fun core => cfftStage r twiddles first middle last m twid s (work core) where
  effect x hx := single_local hplace hlen hs (allWork_perm.mem_iff.mp hx)
  nodup := allWork_perm.nodup_iff.mpr (nodup_butterflies _ _)
  apart x hx y hy hne :=
    butterflies_apart (allWork_perm.mem_iff.mp hx) (allWork_perm.mem_iff.mp hy) hne
  common x _ a ha := coef_untouched ha
  once := hshare.trans allWork_perm.symm
  runs core mem := by
    have hmine : ∀ x ∈ (work core).butterflies, x ∈ stageButterflies r m s := fun x hx =>
      hshare.mem_iff.mp (List.mem_flatMap.mpr ⟨core, List.mem_range.mpr core.isLt, hx⟩)
    refine (cfftStage_runs hplace hlen hs hmine).mono ?_ fun _ => id
    rintro a (ha | ⟨x, hx, ha⟩)
    · exact Or.inl ha
    · exact Or.inr ⟨x, hx, Or.inr ha⟩

/-- Cores that share the butterflies of a stage do what a single one does. -/
theorem stage_finally {P : Team FftLoc V2s Unit nPE → Prop} {work : Nat → Work} (hs : s < m)
    (hshare : ((List.range nPE).flatMap fun core => (work core).butterflies).Perm
      (stageButterflies r m s)) {K : Fin nPE → Prog FftLoc V2s Unit}
    (h : Team.Finally P
      ⟨(cfftStage r twiddles first middle last m twid s (allWork r m s)).after mem, K⟩) :
    Team.Finally P ⟨mem, fun core =>
      cfftStage r twiddles first middle last m twid s (work core) >>= fun _ => .barrier (K core)⟩ :=
  (stage_sharing hplace hlen hs hshare).finally ((foldl_single hplace hlen hs).symm ▸ h)

end Stages

/-! ## The transforms -/

/-- The stages one after the other, on a single core. -/
def sequential (r m : Nat) (stage : Nat → Work → Prog FftLoc V2s Unit) (mem : FftLoc → V2s) :
    Nat → FftLoc → V2s
  | 0 => mem
  | s + 1 => (stage s (allWork r m s)).after (sequential r m stage mem s)

/-- What the cores of a kernel do in the stages of a transform of length `r ^ m`. -/
structure Scheduled (r m nPE : Nat) (stage : Nat → Work → Prog FftLoc V2s Unit)
    (work : Nat → Nat → Work) (kernel : Nat → Nat → Prog FftLoc V2s Unit) : Prop where
  /-- Each butterfly of a stage is done by one core. -/
  once : ∀ s < m, ((List.range nPE).flatMap fun core => (work s core).butterflies).Perm
    (butterflies (r ^ s) (r ^ (m - 1 - s)))
  /-- It touches its elements, which are in the array, and no other one touches them. -/
  touches : ∀ s < m, ∀ x ∈ butterflies (r ^ s) (r ^ (m - 1 - s)), ∀ mem,
    (stage s (single x)).Runs (fun a => Coef a ∨ Touched r (r ^ (m - 1 - s)) x a)
      (Touched r (r ^ (m - 1 - s)) x) mem () ((stage s (single x)).after mem)
  within : ∀ s < m, ∀ x ∈ butterflies (r ^ s) (r ^ (m - 1 - s)), ∀ a,
    Touched r (r ^ (m - 1 - s)) x a → ∃ i < r ^ m, a = .src (i * 2)
  apart : ∀ s < m, ∀ x ∈ butterflies (r ^ s) (r ^ (m - 1 - s)),
    ∀ y ∈ butterflies (r ^ s) (r ^ (m - 1 - s)), ∀ a, Touched r (r ^ (m - 1 - s)) x a →
      Touched r (r ^ (m - 1 - s)) y a → x = y
  /-- The kernel is the stages, with the barrier after each. -/
  stages : ∀ core < nPE, ∀ fuel ≥ r ^ m,
    kernel core fuel = Prog.stages (fun s => stage s (work s core)) m 0
  result : ∀ fuel ≥ r ^ m, ∀ mem, Team.Finally
    (fun t => t.Returned (fun _ => ()) ∧ t.mem = sequential r m stage mem m)
    (⟨mem, fun core => kernel core fuel⟩ : Team FftLoc V2s Unit nPE)

theorem cfft_schedule {W : Type} (log : Nat) {r m twid p : Nat} {twiddles : Nat → Prog FftLoc V2s W}
    {first middle : W → Nat → Nat → Prog FftLoc V2s Unit}
    {last : Nat → Nat → Prog FftLoc V2s Unit} {kernel : Nat → Nat → Prog FftLoc V2s Unit}
    (hr : r = 2 ^ log) (hlog : 0 < log) (hm : 2 ≤ m) (hlen : r ^ m ≤ 2 ^ 30)
    (hcores : 2 ^ p * r ≤ 2 ^ 30) (hplace : InPlace r twiddles first middle last)
    (hkernel : ∀ core < 2 ^ p, ∀ fuel, kernel core fuel =
      cfft log twiddles first middle last (r ^ m) twid (2 ^ p) core fuel) :
    Scheduled r m (2 ^ p) (cfftStage r twiddles first middle last m twid)
      (fun s core => cfftWork r m (2 ^ p) s core) kernel where
  once s hs := cfftWork_perm hr hs
  touches s hs x hx mem := single_runs hplace hlen hs hx mem
  within s hs x hx a ha := stage_length (r := r) hs ▸ touched_within hx ha
  apart s hs x hx y hy a hxa hya := touched_apart hx hy hxa hya
  stages core hcore fuel hfuel :=
    (hkernel core hcore fuel).trans (cfft_eq hr hlen hcores hcore hfuel hlog hm)
  result fuel hfuel mem := by
    have hthreads : (fun core : Fin (2 ^ p) => kernel core fuel) = fun core : Fin (2 ^ p) =>
        Prog.stages (fun s => cfftStage r twiddles first middle last m twid s
          (cfftWork r m (2 ^ p) s core)) m 0 := funext fun core =>
      (hkernel core core.isLt fuel).trans (cfft_eq hr hlen hcores core.isLt hfuel hlog hm)
    rw [hthreads]
    let stage := cfftStage r twiddles first middle last m twid
    refine @Team.Finally.stages FftLoc V2s (2 ^ p) _ _ (fun core s => stage s (cfftWork r m (2 ^ p)
      s core)) (sequential r m stage mem) m 0 (Nat.two_pow_pos p) (fun s hs K h => ?_) ?_
    · rw [Nat.zero_add] at hs
      exact stage_finally hplace hlen hs (cfftWork_perm hr hs) h
    · rw [Nat.zero_add]
      exact ⟨fun _ => rfl, rfl⟩

/-- The stages of `mempool_radix4_cfft_q16p_xpulpimg`. -/
def radix4Stage (m twidCoefModifier : Nat) : Nat → Work → Prog FftLoc V2s Unit :=
  cfftStage 4 radix4Twiddles radix4ButterflyFirst radix4ButterflyMiddle
    (fun i0 _ => radix4ButterflyLast i0) m twidCoefModifier

/-- The stages of `mempool_radix2_butterfly_q16p`. -/
def radix2Stage (m : Nat) : Nat → Work → Prog FftLoc V2s Unit :=
  cfftStage 2 (fun ia => Prog.get (.coefSrc (u32 (ia * 2)))) (radix2Butterfly true)
    (radix2Butterfly false) radix2ButterflyLast m 1

theorem radix4_scheduled (m p twidCoefModifier : Nat) (hm : 2 ≤ m) (hbanks : 16 * 2 ^ p ≤ 2 ^ 32)
    (hlen : 4 * 4 ^ m ≤ 2 ^ 32) : Scheduled 4 m (2 ^ p) (radix4Stage m twidCoefModifier)
      (cfftWork 4 m (2 ^ p)) fun core fuel =>
        mempoolRadix4CfftQ16pXpulpimg (4 ^ m) twidCoefModifier (2 ^ p) core fuel := by
  refine cfft_schedule 2 rfl (by decide) hm (by omega) (by omega) radix4_inPlace
    fun core hcore fuel => ?_
  rw [mempoolRadix4CfftQ16pXpulpimg, Nat.mod_eq_of_lt hcore]

/-- Array and banks (four for each core) fit into the address space. -/
theorem cfft_scheduled (m p twidCoefModifier : Nat) (hm : 2 ≤ m) (hbanks : 16 * 2 ^ p ≤ 2 ^ 32) :
    (4 * 4 ^ m ≤ 2 ^ 32 → Scheduled 4 m (2 ^ p) (radix4Stage m twidCoefModifier)
      (cfftWork 4 m (2 ^ p)) fun core fuel =>
        mempoolRadix4CfftQ16pXpulpimg (4 ^ m) twidCoefModifier (2 ^ p) core fuel) ∧
    (4 * 2 ^ m ≤ 2 ^ 32 → Scheduled 2 m (2 ^ p) (radix2Stage m) (cfftWork 2 m (2 ^ p))
      fun core fuel => mempoolRadix2ButterflyQ16p (2 ^ m) (2 ^ p) core fuel) := by
  refine ⟨radix4_scheduled m p twidCoefModifier hm hbanks, fun hlen => ?_⟩
  exact cfft_schedule 1 rfl (by decide) hm (by omega) (by omega) radix2_inPlace
    fun core hcore fuel => rfl

theorem cfft_scheduled_three_stages :
    Scheduled 4 3 2 (radix4Stage 3 3) (cfftWork 4 3 2)
      (fun core fuel => mempoolRadix4CfftQ16pXpulpimg 64 3 2 core fuel) ∧
    Scheduled 2 3 2 (radix2Stage 3) (cfftWork 2 3 2)
      fun core fuel => mempoolRadix2ButterflyQ16p 8 2 core fuel :=
  have h := cfft_scheduled 3 1 3 (by decide) (by decide)
  ⟨h.1 (by decide), h.2 (by decide)⟩

end TeraNoC.Kernels
