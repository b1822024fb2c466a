import Mathlib.Algebra.Order.Ring.Abs
import TeraNoC.Proofs.Cmatmul
import TeraNoC.Proofs.Vectors

/-!
# The complex matrix multiplication and its golden model

The kernel rounds the sum of two products down, the golden model each of them: every pair of
products makes the kernel's sum larger by one at most.
-/

namespace TeraNoC.Kernels

open TeraNoC.Lib TeraNoC.Runtime

/-! ## A term of the sum -/

section Term

variable {x y ab0 ab1 cd0 cd1 : V2s} {z : Int32}

theorem shuffle_swap : shuffle2H 0 x 0x00020003 = lane x 0 ++ lane x 1 := rfl

/-- Flipping the lower half and adding one to it negates it. -/
theorem negate_lower : addH (x ^^^ 0x0000FFFF) 0x00000001 = lane x 1 ++ -lane x 0 := by
  have hupper : lane (x ^^^ 0x0000FFFF) 1 = lane x 1 := by
    rw [lane, BitVec.extractLsb'_xor]
    exact BitVec.xor_zero
  have hlower : lane (x ^^^ 0x0000FFFF) 0 = ~~~lane x 0 := by
    rw [lane, BitVec.extractLsb'_xor]
    exact BitVec.xor_allOnes
  rw [addH, hupper, hlower, BitVec.neg_eq_not_add]
  congr 1
  exact BitVec.add_zero _

/-- The real part of a product. -/
def productRe (ab cd : V2s) : Int := laneInt ab 1 * laneInt cd 1 - laneInt ab 0 * laneInt cd 0

/-- The imaginary part of a product. -/
def productIm (ab cd : V2s) : Int := laneInt ab 1 * laneInt cd 0 + laneInt ab 0 * laneInt cd 1

/-- Both parts of the number lie in `[-2^14, 2^14)`. -/
def Small (x : V2s) : Prop := ∀ i < 2, -2 ^ 14 ≤ laneInt x i ∧ laneInt x i < 2 ^ 14

instance (x : V2s) : Decidable (Small x) := inferInstanceAs (Decidable (∀ i < 2, _ ∧ _))

/-- The sum of products does not leave the 32 bits. -/
def SumdotspFits (x y : V2s) (z : Int32) : Prop :=
  (sumdotspH x y z).toInt = laneInt x 1 * laneInt y 1 + laneInt x 0 * laneInt y 0 + z.toInt

/-- No sum of the two products leaves the 32 bits, with the operands changed by `f`. -/
def PairFits (f : V2s → V2s) (ab0 ab1 cd0 cd1 : V2s) : Prop :=
  SumdotspFits (f ab0) cd0 0 ∧ SumdotspFits (f ab1) cd1 (dotspH (f ab0) cd0)

/-- No sum in `cmatmulRe` and `cmatmulIm` leaves the 32 bits. -/
def TermFits (ab0 ab1 cd0 cd1 : V2s) : Prop :=
  PairFits (fun ab => shuffle2H 0 ab 0x00020003) ab0 ab1 cd0 cd1 ∧
    PairFits (fun ab => addH (ab ^^^ 0x0000FFFF) 0x00000001) ab0 ab1 cd0 cd1

theorem abs_product_le {a c : Int} {b : Int} (hb : 0 ≤ b) (ha : -b ≤ a ∧ a ≤ b)
    (hc : -b ≤ c ∧ c ≤ b) : -(b * b) ≤ a * c ∧ a * c ≤ b * b := by
  rw [← abs_le, abs_mul]
  exact mul_le_mul (abs_le.mpr ha) (abs_le.mpr hc) (abs_nonneg c) hb

theorem laneInt_swap_one : laneInt (shuffle2H 0 x 0x00020003) 1 = laneInt x 0 := by
  rw [laneInt, shuffle_swap, lane_append_one, laneInt]

theorem laneInt_swap_zero : laneInt (shuffle2H 0 x 0x00020003) 0 = laneInt x 1 := by
  rw [laneInt, shuffle_swap, lane_append_zero, laneInt]

theorem laneInt_negate_one : laneInt (addH (x ^^^ 0x0000FFFF) 0x00000001) 1 = laneInt x 1 := by
  rw [laneInt, negate_lower, lane_append_one, laneInt]

theorem laneInt_negate_zero (h : laneInt x 0 ≠ -2 ^ 15) :
    laneInt (addH (x ^^^ 0x0000FFFF) 0x00000001) 0 = -laneInt x 0 := by
  rw [laneInt, negate_lower, lane_append_zero, laneInt]
  exact BitVec.toInt_neg_of_ne_intMin fun hmin => h (by rw [laneInt, hmin]; rfl)

/-- The parts are at most `2^14` large. -/
def Bounded (x : V2s) : Prop := ∀ i < 2, -2 ^ 14 ≤ laneInt x i ∧ laneInt x i ≤ 2 ^ 14

theorem Small.bounded (h : Small x) : Bounded x := fun i hi => ⟨(h i hi).1, (h i hi).2.le⟩

theorem Small.swap (h : Small x) : Bounded (shuffle2H 0 x 0x00020003) := fun i hi => by
  obtain rfl | rfl : i = 0 ∨ i = 1 := by omega
  · rw [laneInt_swap_zero]
    exact h.bounded 1 (by decide)
  · rw [laneInt_swap_one]
    exact h.bounded 0 (by decide)

theorem Small.negate (h : Small x) : Bounded (addH (x ^^^ 0x0000FFFF) 0x00000001) := fun i hi => by
  have hlower := h 0 (by decide)
  obtain rfl | rfl : i = 0 ∨ i = 1 := by omega
  · rw [laneInt_negate_zero (by omega)]
    omega
  · rw [laneInt_negate_one]
    exact h.bounded 1 (by decide)

/-- The sum of the products of the halves. -/
def dotInt (x y : V2s) : Int := laneInt x 1 * laneInt y 1 + laneInt x 0 * laneInt y 0

theorem dotInt_bounded (hx : Bounded x) (hy : Bounded y) :
    -2 ^ 29 ≤ dotInt x y ∧ dotInt x y ≤ 2 ^ 29 := by
  have h1 := abs_product_le (by decide) (hx 1 (by decide)) (hy 1 (by decide))
  have h0 := abs_product_le (by decide) (hx 0 (by decide)) (hy 0 (by decide))
  rw [dotInt]
  omega

theorem sumdotspFits (hx : Bounded x) (hy : Bounded y)
    (hz : -2 ^ 30 ≤ z.toInt ∧ z.toInt ≤ 2 ^ 30) : SumdotspFits x y z := by
  have hdot := dotInt_bounded hx hy
  rw [SumdotspFits, sumdotspH, dotspH_eq, BitVec.toInt_add, ← dotInt,
    toInt_ofInt32 (by omega) (by omega)]
  exact Int.bmod_eq_of_le (by omega) (by omega)

theorem pairFits {f : V2s → V2s} (h0 : Bounded (f ab0)) (h1 : Bounded (f ab1)) (hcd0 : Bounded cd0)
    (hcd1 : Bounded cd1) : PairFits f ab0 ab1 cd0 cd1 := by
  have hdot := dotInt_bounded h0 hcd0
  refine ⟨sumdotspFits h0 hcd0 (by decide), sumdotspFits h1 hcd1 ?_⟩
  rw [dotspH_eq, ← dotInt, toInt_ofInt32 (by omega) (by omega)]
  omega

theorem termFits (h0 : Small ab0) (h1 : Small ab1) (hcd0 : Small cd0) (hcd1 : Small cd1) :
    TermFits ab0 ab1 cd0 cd1 :=
  ⟨pairFits h0.swap h1.swap hcd0.bounded hcd1.bounded,
    pairFits h0.negate h1.negate hcd0.bounded hcd1.bounded⟩

theorem sumdotspH_shift (h0 : Bounded ab0) (h1 : Bounded ab1) (hcd0 : Bounded cd0)
    (hcd1 : Bounded cd1) : (sumdotspH ab1 cd1 (dotspH ab0 cd0)).sshiftRight 15 =
      BitVec.ofInt 32 ((dotInt ab0 cd0 + dotInt ab1 cd1) / 2 ^ 15) := by
  have hdot0 := dotInt_bounded h0 hcd0
  have hdot1 := dotInt_bounded h1 hcd1
  rw [sumdotspH, dotspH_eq, dotspH_eq, ← dotInt, ← dotInt, ← BitVec.ofInt_add,
    sshiftRight_ofInt (by omega) (by omega), Int.add_comm]

theorem dotInt_swap : dotInt (shuffle2H 0 x 0x00020003) y = productIm x y := by
  rw [dotInt, laneInt_swap_one, laneInt_swap_zero, productIm, Int.add_comm]

theorem dotInt_negate (h : Small x) :
    dotInt (addH (x ^^^ 0x0000FFFF) 0x00000001) y = productRe x y := by
  have hlower := h 0 (by decide)
  rw [dotInt, laneInt_negate_one, laneInt_negate_zero (by omega), productRe, Int.neg_mul,
    Int.sub_eq_add_neg]

theorem cmatmulTerm_eq (h0 : Small ab0) (h1 : Small ab1) (hcd0 : Small cd0) (hcd1 : Small cd1) :
    cmatmulTerm ab0 ab1 cd0 cd1 =
      BitVec.ofInt 16 ((productRe ab0 cd0 + productRe ab1 cd1) / 2 ^ 15) ++
        BitVec.ofInt 16 ((productIm ab0 cd0 + productIm ab1 cd1) / 2 ^ 15) := by
  have hre := sumdotspH_shift h0.negate h1.negate hcd0.bounded hcd1.bounded
  have him := sumdotspH_shift h0.swap h1.swap hcd0.bounded hcd1.bounded
  rw [dotInt_negate h0, dotInt_negate h1] at hre
  rw [dotInt_swap, dotInt_swap] at him
  rw [cmatmulTerm, cmatmulRe, cmatmulIm, hre, him, packH_ofInt]

end Term

/-! ## The sum over `j` -/

section Sum

theorem ofInt_i32 (x : Int) : BitVec.ofInt 16 (i32 x) = BitVec.ofInt 16 x := by
  refine BitVec.eq_of_toInt_eq ?_
  rw [BitVec.toInt_ofInt, BitVec.toInt_ofInt, i32]
  exact Int.bmod_bmod_of_dvd (by decide)

theorem qcmatmulSum_succ (product : Nat → Int) (N fixedPoint : Nat) :
    qcmatmulSum product (N + 1) fixedPoint =
      i32 (qcmatmulSum product N fixedPoint + product N / 2 ^ fixedPoint) := by
  rw [qcmatmulSum, List.range_succ, List.foldl_append]
  rfl

/-- Every pair of products is rounded once by the kernel and twice by the golden model. -/
theorem rounded_sum {term : Nat → V2s} {product : Nat → Int} {h : Nat} (hh : h < 2) (n : Nat)
    (hterm : ∀ l < n, lane (term l) h =
      BitVec.ofInt 16 ((product (2 * l) + product (2 * l + 1)) / 2 ^ 15)) :
    ∃ d : Nat, d ≤ n ∧ lane ((List.range n).foldl (fun sum l => addH sum (term l)) 0) h =
      BitVec.ofInt 16 (qcmatmulSum product (2 * n) 15 + d) := by
  induction n with
  | zero =>
      have hzero : ∀ h < 2, lane (0 : V2s) h = BitVec.ofInt 16 0 := by decide
      exact ⟨0, Nat.le_refl 0, hzero h hh⟩
  | succ n ih =>
      obtain ⟨d, hd, hsum⟩ := ih fun l hl => hterm l (by omega)
      obtain ⟨e, he, hround⟩ : ∃ e : Nat, e ≤ 1 ∧
          (product (2 * n) + product (2 * n + 1)) / 2 ^ 15 =
            product (2 * n) / 2 ^ 15 + product (2 * n + 1) / 2 ^ 15 + e :=
        ⟨((product (2 * n) + product (2 * n + 1)) / 2 ^ 15 -
          (product (2 * n) / 2 ^ 15 + product (2 * n + 1) / 2 ^ 15)).toNat, by omega, by omega⟩
      refine ⟨d + e, by omega, ?_⟩
      rw [List.range_succ, List.foldl_append, List.foldl_cons, List.foldl_nil, lane_addH hh, hsum,
        hterm n (by omega), Nat.mul_succ, qcmatmulSum_succ, qcmatmulSum_succ, i32_add,
        ← BitVec.ofInt_add, BitVec.ofInt_add _ ((d + e : Nat) : Int), ofInt_i32,
        ← BitVec.ofInt_add, hround]
      congr 1
      push_cast
      omega

end Sum

/-! ## The kernel against the golden model -/

/-- A component of the elements of a matrix: the real part is the upper half. -/
def component (X : Nat → V2s) (cols half i j : Nat) : Int := laneInt (X (2 * (i * cols + j))) half

/-- The golden model, on the matrices that the kernel gets. -/
def cmatmulGolden (A B : Nat → V2s) (N P i j : Nat) : Int × Int :=
  qcmatmul (component A N 1) (component A N 0) (component B P 1) (component B P 0) N 15 i j

section Golden

variable {A B : Nat → V2s} {m n q : Nat} (hfitA : m * 2 * (n * 2) * 4 ≤ 2 ^ 32)
  (hfitB : n * 2 * (q * 4) * 4 ≤ 2 ^ 32) (hA : ∀ e < m * 2 * (n * 2), Small (A (2 * e)))
  (hB : ∀ e < n * 2 * (q * 4), Small (B (2 * e)))

theorem lane_sub_le {x : BitVec 16} {g : Int} {d n : Nat} (hd : d ≤ n)
    (h : x = BitVec.ofInt 16 (g + d)) : (x.toInt - g) % 2 ^ 16 ≤ n := by
  have hmod : x.toInt % 2 ^ 16 = (g + d) % 2 ^ 16 := by
    rw [h, BitVec.toInt_ofInt]
    exact Int.bmod_emod
  omega

/-- The product of the two elements that meet at `k`. -/
def productAt (product : V2s → V2s → Int) (A B : Nat → V2s) (N P i j k : Nat) : Int :=
  product (A (2 * (i * N + k))) (B (2 * (k * P + j)))

include hfitA hfitB hA hB

theorem cmatmulTerm_operands {i x k y l : Nat} (hi : i + x < m * 2) (hk : k + y < q * 4)
    (hl : l < n) : cmatmulTerm (A (u32 (2 * ((i + x) * (n * 2) + 2 * l))))
      (A (u32 (2 * ((i + x) * (n * 2) + 2 * l + 1)))) (B (u32 (2 * (2 * l * (q * 4) + k + y))))
      (B (u32 (2 * ((2 * l + 1) * (q * 4) + k + y)))) =
    BitVec.ofInt 16 ((productAt productRe A B (n * 2) (q * 4) (i + x) (k + y) (2 * l) +
      productAt productRe A B (n * 2) (q * 4) (i + x) (k + y) (2 * l + 1)) / 2 ^ 15) ++
    BitVec.ofInt 16 ((productAt productIm A B (n * 2) (q * 4) (i + x) (k + y) (2 * l) +
      productAt productIm A B (n * 2) (q * 4) (i + x) (k + y) (2 * l + 1)) / 2 ^ 15) := by
  have ha0 := tile_column_lt (c := n * 2) hi (show 2 * l < n * 2 by omega)
  have ha1 := tile_column_lt (c := n * 2) hi (show 2 * l + 1 < n * 2 by omega)
  have hb0 := tile_column_lt (c := q * 4) (show 2 * l < n * 2 by omega) hk
  have hb1 := tile_column_lt (c := q * 4) (show 2 * l + 1 < n * 2 by omega) hk
  rw [Nat.add_assoc _ (2 * l) 1, Nat.add_assoc _ k y, Nat.add_assoc _ k y, u32_eq (by omega),
    u32_eq (by omega), u32_eq (by omega), u32_eq (by omega)]
  exact cmatmulTerm_eq (hA _ ha0) (hA _ ha1) (hB _ hb0) (hB _ hb1)

/-- A component of an element is at most `n` more than in the golden model. -/
theorem cmatmulElem_within {i x k y half : Nat} (hi : i + x < m * 2) (hk : k + y < q * 4)
    (hhalf : half < 2) :
    (laneInt (cmatmulElem A B (n * 2) (q * 4) i k x y) half -
      qcmatmulSum (productAt (if half = 1 then productRe else productIm) A B (n * 2) (q * 4) (i + x)
        (k + y)) (n * 2) 15) % 2 ^ 16 ≤ n := by
  have hterm : ∀ l < n, lane (cmatmulTerm (A (u32 (2 * ((i + x) * (n * 2) + 2 * l))))
      (A (u32 (2 * ((i + x) * (n * 2) + 2 * l + 1)))) (B (u32 (2 * (2 * l * (q * 4) + k + y))))
      (B (u32 (2 * ((2 * l + 1) * (q * 4) + k + y))))) half = BitVec.ofInt 16
        ((productAt (if half = 1 then productRe else productIm) A B (n * 2) (q * 4) (i + x) (k + y)
            (2 * l) +
          productAt (if half = 1 then productRe else productIm) A B (n * 2) (q * 4) (i + x) (k + y)
            (2 * l + 1)) / 2 ^ 15) := fun l hl => by
    rw [cmatmulTerm_operands hfitA hfitB hA hB hi hk hl]
    obtain rfl | rfl : half = 0 ∨ half = 1 := by omega
    · exact lane_append_zero
    · exact lane_append_one
  obtain ⟨d, hd, hsum⟩ := rounded_sum hhalf n hterm
  rw [Nat.mul_comm 2 n] at hsum
  refine lane_sub_le hd ?_
  rw [cmatmulElem, cmatmulInner_eq, List.foldl_map]
  exact hsum

end Golden

/-- Every stored component is at most `N / 2` more than in the golden model, up to multiples of
`2^16`, and no sum leaves the 32 bits. -/
theorem cmatmul_golden {A B : Nat → V2s} {M N P : Nat} (hM : 2 ∣ M) (hN : 2 ∣ N) (hP : 4 ∣ P)
    (hM32 : M < 2 ^ 32) (hP32 : P < 2 ^ 32) (hfitA : M * N * 4 ≤ 2 ^ 32)
    (hfitB : N * P * 4 ≤ 2 ^ 32) (hfitC : M * P * 4 ≤ 2 ^ 32) (hA : ∀ e < M * N, Small (A (2 * e)))
    (hB : ∀ e < N * P, Small (B (2 * e))) :
    ∃ s, Ends (cmatmul2x4Q16s A B M N P) s ∧
      (s.writes.map Prod.fst).Perm ((List.range (M * P)).map (2 * ·)) ∧
      (∀ w ∈ s.writes, ∃ i < M, ∃ j < P, w.1 = 2 * (i * P + j) ∧
        (laneInt w.2 1 - (cmatmulGolden A B N P i j).1) % 2 ^ 16 ≤ (N / 2 : Nat) ∧
        (laneInt w.2 0 - (cmatmulGolden A B N P i j).2) % 2 ^ 16 ≤ (N / 2 : Nat)) ∧
      ∀ i < M, ∀ j < P, ∀ l < N / 2, TermFits (A (2 * (i * N + 2 * l)))
        (A (2 * (i * N + (2 * l + 1)))) (B (2 * (2 * l * P + j)))
        (B (2 * ((2 * l + 1) * P + j))) := by
  obtain ⟨m, rfl⟩ := hM
  obtain ⟨n, rfl⟩ := hN
  obtain ⟨q, rfl⟩ := hP
  rw [Nat.mul_div_cancel_left n (by decide)]
  rw [Nat.mul_comm 2 m, Nat.mul_comm 2 n, Nat.mul_comm 4 q] at *
  refine ⟨_, cmatmul2x4Q16s_ends hM32 hP32, ?_, fun w hw => ?_, fun i hi j hj l hl => ?_⟩
  · rw [cmatmulTiles_writes]
    exact gridStores_indices hfitC
  · rw [cmatmulTiles_writes] at hw
    obtain ⟨t, ht, hw⟩ := List.mem_flatMap.mp hw
    obtain ⟨x, hx, hw⟩ := List.mem_flatMap.mp hw
    obtain ⟨y, hy, rfl⟩ := List.mem_map.mp hw
    have hx := List.mem_range.mp hx
    have hy := List.mem_range.mp hy
    obtain ⟨hrow, hcol⟩ := mem_tileGrid.mp ht
    have hi : t.1 * 2 + x < m * 2 := by omega
    have hj : t.2 * 4 + y < q * 4 := by omega
    have hlt := tile_column_lt hi hj
    refine ⟨_, hi, _, hj, u32_eq (by omega), ?_, ?_⟩
    · exact cmatmulElem_within hfitA hfitB hA hB hi hj (show 1 < 2 by decide)
    · exact cmatmulElem_within hfitA hfitB hA hB hi hj (show 0 < 2 by decide)
  · exact termFits (hA _ (tile_column_lt hi (by omega))) (hA _ (tile_column_lt hi (by omega)))
      (hB _ (tile_column_lt (by omega) hj)) (hB _ (tile_column_lt (by omega) hj))

theorem cmatmul_golden_ones : ∃ s,
    Ends (cmatmul2x4Q16s (fun _ => 0x00030001) (fun _ => 0x00020004) 2 2 4) s ∧
      ∀ w ∈ s.writes, ∃ i < 2, ∃ j < 4, w.1 = 2 * (i * 4 + j) ∧
        (laneInt w.2 1 -
          (cmatmulGolden (fun _ => 0x00030001) (fun _ => 0x00020004) 2 4 i j).1) % 2 ^ 16 ≤ 1 := by
  obtain ⟨s, hs, -, hw, -⟩ := cmatmul_golden (A := fun _ => 0x00030001) (B := fun _ => 0x00020004)
    (M := 2) (N := 2) (P := 4) (by decide) (by decide) (by decide) (by decide) (by decide)
    (by decide)
    (by decide) (by decide) (by decide) (by decide)
  refine ⟨s, hs, fun w hmem => ?_⟩
  obtain ⟨i, hi, j, hj, hindex, hre, -⟩ := hw w hmem
  exact ⟨i, hi, j, hj, hindex, hre⟩

end TeraNoC.Kernels
