import Mathlib.Data.Int.DivMod
import TeraNoC.Kernels.CholeskyQ16
import TeraNoC.Proofs.Cholesky
import TeraNoC.Proofs.Mmse

/-!
# The decomposition and the solver of halfwords

Both kernels compute their elements in the order of a recurrence, but not of the one they are
meant for: the dot products of the assembly do not add to what is there, so that only the last
term of a sum counts; its imaginary part has a wrong sign, the halves of a quotient are swapped,
and the solver takes the right-hand side from the sum.
-/

namespace TeraNoC.Kernels

open TeraNoC.Lib TeraNoC.Runtime

/-! ## Halfwords -/

section Halfwords

variable {p p' : Nat → BitVec 16} {other : V2s} {e e' : Nat}

/-- The sums of a term, of two complex numbers. -/
def dotParts (a b : Int × Int) : Int := a.1 * b.1 + a.2 * b.2
def crossedParts (a b : Int × Int) : Int := a.1 * negatedHalf b.2 + a.2 * negatedHalf b.1

/-- What a term leaves in `as` and `bs`. -/
def termParts (a b : Int × Int) : Int × Int := (scaled (dotParts a b), scaled (crossedParts a b))

theorem loadHalves_parts (he : 2 * e + 1 < 2 ^ 32) :
    mmseRe (loadHalves p (2 * e)) = (complexAt p e).1 ∧
      mmseIm (loadHalves p (2 * e)) = (complexAt p e).2 := by
  rw [loadHalves, mmseRe, mmseIm, lane_append_zero, lane_append_one, u32_eq he]
  exact ⟨rfl, rfl⟩

theorem dotsp_parts (he : 2 * e + 1 < 2 ^ 32) (he' : 2 * e' + 1 < 2 ^ 32) :
    conjMulRe (loadHalves p (2 * e)) (loadHalves p' (2 * e')) =
      dotParts (complexAt p e) (complexAt p' e') := by
  rw [conjMulRe, (loadHalves_parts he).1, (loadHalves_parts he).2, (loadHalves_parts he').1,
    (loadHalves_parts he').2, dotParts]

theorem term_parts (he : 2 * e + 1 < 2 ^ 32) (he' : 2 * e' + 1 < 2 ^ 32) :
    (mmseTerm other (loadHalves p (2 * e)) (loadHalves p' (2 * e'))).2 =
      (BitVec.ofInt 32 (termParts (complexAt p e) (complexAt p' e')).1,
        BitVec.ofInt 32 (termParts (complexAt p e) (complexAt p' e')).2) := by
  rw [mmseTerm_eq, dotsp_parts he he', crossed, (loadHalves_parts he).1, (loadHalves_parts he).2,
    (loadHalves_parts he').1, (loadHalves_parts he').2]
  rfl

theorem storeHalves_self (v w : Int32) (he : 2 * e + 1 < 2 ^ 32) :
    complexAt (storeHalves p (2 * e) (packH v w)) e = (packed w.toInt, packed v.toInt) := by
  have hparts := packH_parts v.toInt w.toInt
  rw [BitVec.ofInt_toInt, BitVec.ofInt_toInt] at hparts
  rw [complexAt, storeHalves, u32_eq he, Function.update_self,
    Function.update_of_ne (show 2 * e ≠ 2 * e + 1 by omega), Function.update_self]
  exact Prod.ext hparts.1 hparts.2

theorem storeHalves_other (v : V2s) (he : 2 * e + 1 < 2 ^ 32) (hne : e' ≠ e) :
    complexAt (storeHalves p (2 * e) v) e' = complexAt p e' := by
  have hskip {i : Nat} (h : i ≠ 2 * e) (h' : i ≠ 2 * e + 1) : storeHalves p (2 * e) v i = p i := by
    rw [storeHalves, u32_eq he, Function.update_of_ne h', Function.update_of_ne h]
  rw [complexAt, complexAt, hskip (by omega) (by omega), hskip (by omega) (by omega)]

theorem loadHalf_toInt (i : Nat) : (loadHalf p i).toInt = (p i).toInt :=
  BitVec.toInt_signExtend_of_le (by decide)

/-- What is stored of a quotient. -/
def storedQuotient (v d : Int) : Int := packed (if d = 0 then -1 else v.tdiv d)

theorem packed_div32 (v d : Int32) : packed (div32 v d).toInt = storedQuotient v.toInt d.toInt := by
  rw [div32, storedQuotient]
  by_cases hd : d = 0
  · rw [if_pos hd, if_pos (by rw [hd]; rfl)]
    rfl
  · have hne : d.toInt ≠ 0 := fun h => hd (BitVec.eq_of_toInt_eq h)
    rw [if_neg hd, if_neg hne, BitVec.toInt_sdiv, packed, packed, Int.bmod_bmod_of_dvd (by decide)]

theorem scaled_range (s : Int) : -2 ^ 21 ≤ scaled s ∧ scaled s < 2 ^ 21 := by
  rw [scaled]
  omega

theorem half_range (x : BitVec 16) : -2 ^ 15 ≤ x.toInt ∧ x.toInt < 2 ^ 15 :=
  ⟨BitVec.le_toInt x, BitVec.toInt_lt⟩

end Halfwords

/-! ## Places -/

section Places

variable {n offset i j i' j' : Nat}

theorem cell_inj (hj : j < offset) (hj' : j' < offset) (h : i * offset + j = i' * offset + j') :
    i = i' ∧ j = j' := by
  have hcell := cell_div_mod (i := i) hj
  rw [h, (cell_div_mod hj').1, (cell_div_mod hj').2] at hcell
  exact ⟨hcell.1.symm, hcell.2.symm⟩

theorem halfIdx_eq (hfit : n * offset * 4 ≤ 2 ^ 32) (hi : i < n) (hj : j < offset) :
    halfIdx offset i j = 2 * (i * offset + j) ∧ 2 * (i * offset + j) + 1 < 2 ^ 32 := by
  have hlt := tile_column_lt hi hj
  have hcell : matIdx offset i j = i * offset + j := by
    rw [matIdx, u32_eq (show i * offset < 2 ^ 32 by omega), u32_eq (by omega)]
  rw [halfIdx, hcell, u32_eq (by omega)]
  exact ⟨rfl, by omega⟩

end Places

/-! ## The decomposition -/

section Cholesky

/-- The term of the column before, which alone counts. -/
def lastTerm (L : Nat × Nat → Int × Int) (i j : Nat) : Int × Int :=
  if j = 0 then (0, 0) else termParts (L (i, j - 1)) (L (j, j - 1))

/-- What the decomposition gives an element. -/
def choleskyComputed (offset : Nat) (pSrc : Nat → BitVec 16) (L : Nat × Nat → Int × Int)
    (e : Nat × Nat) : Int × Int :=
  let A := complexAt pSrc (e.1 * offset + e.2)
  let sum := lastTerm L e.1 e.2
  let diag := (L (e.2, e.2)).1
  if e.1 = e.2 then (packed (sqrtQ32s 16 (BitVec.ofInt 32 (A.1 - sum.1))).toInt, 0)
  else (storedQuotient (A.2 - sum.2) diag, storedQuotient (A.1 - sum.1) diag)

/-- The elements are computed column by column, and in a column from the diagonal on. -/
def choleskyRank (e : Nat × Nat) : Nat := 2 * e.2 + if e.1 = e.2 then 0 else 1

variable {n offset i j : Nat} {pSrc pL : Nat → BitVec 16} {L L' : Nat × Nat → Int × Int}
  {e : Nat × Nat}

theorem agree_before (he : LowerTriangle n e)
    (h : ∀ d, LowerTriangle n d → choleskyRank d < choleskyRank e → L d = L' d) :
    (∀ k < e.2, L (e.1, k) = L' (e.1, k) ∧ L (e.2, k) = L' (e.2, k)) ∧
      (e.1 ≠ e.2 → L (e.2, e.2) = L' (e.2, e.2)) := by
  obtain ⟨hle, hlt⟩ := he
  refine ⟨fun k hk => ⟨h _ ⟨by dsimp only; omega, hlt⟩ ?_, h _ ⟨by dsimp only; omega, ?_⟩ ?_⟩,
    fun hne => h _ ⟨Nat.le_refl _, ?_⟩ ?_⟩
  · unfold choleskyRank
    dsimp only
    split <;> split <;> omega
  · dsimp only
    omega
  · unfold choleskyRank
    dsimp only
    split <;> split <;> omega
  · dsimp only
    omega
  · unfold choleskyRank
    dsimp only
    rw [if_pos rfl, if_neg hne]
    omega

theorem choleskyComputed_causal :
    Causal (LowerTriangle n) choleskyRank (choleskyComputed offset pSrc) := by
  intro L L' e he h
  obtain ⟨hrows, hdiag⟩ := agree_before he h
  have hterm : lastTerm L e.1 e.2 = lastTerm L' e.1 e.2 := by
    unfold lastTerm
    split
    · rfl
    · have hlast := hrows (e.2 - 1) (by omega)
      rw [hlast.1, hlast.2]
  unfold choleskyComputed
  dsimp only
  rw [hterm]
  split
  · rfl
  · rename_i hne
    rw [hdiag hne]

theorem choleskyRecurrence_causal :
    Causal (LowerTriangle n) choleskyRank (choleskyRecurrence offset pSrc) := by
  intro L L' e he h
  obtain ⟨hrows, hdiag⟩ := agree_before he h
  have hsum : ∑ k ∈ Finset.range e.2, mulScaled (L (e.1, k)) (conj (L (e.2, k))) =
      ∑ k ∈ Finset.range e.2, mulScaled (L' (e.1, k)) (conj (L' (e.2, k))) := by
    refine Finset.sum_congr rfl fun k hk => ?_
    have hk := hrows k (Finset.mem_range.mp hk)
    rw [hk.1, hk.2]
  unfold choleskyRecurrence
  dsimp only
  rw [hsum]
  split
  · rfl
  · rename_i hne
    rw [hdiag hne]

/-! ### Sums -/

variable (hfit : n * offset * 4 ≤ 2 ^ 32) (hoffset : n ≤ offset)

/-- An element before the diagonal. -/
theorem triangleAt_left {k : Nat} (hk : k < i) :
    triangleAt offset pL (i, k) = complexAt pL (i * offset + k) := if_neg hk.ne'

include hfit hoffset

/-- Every turn of the loop over `k` starts again, whatever is left in `ndc`. -/
theorem q16RowSums_eq (hj : j ≤ i) (hi : i < n) (ndc : V2s) : (q16RowSums pL offset i j ndc).2 =
    (BitVec.ofInt 32 (lastTerm (triangleAt offset pL) i j).1,
      BitVec.ofInt 32 (lastTerm (triangleAt offset pL) i j).2) := by
  cases j with
  | zero => rfl
  | succ k =>
      obtain ⟨hrow, hrow_lt⟩ := halfIdx_eq hfit hi (show k < offset by omega)
      obtain ⟨hcol, hcol_lt⟩ := halfIdx_eq hfit (show k + 1 < n by omega) (show k < offset by omega)
      rw [q16RowSums, List.range_succ, List.foldl_append, lastTerm, if_neg (Nat.succ_ne_zero k),
        Nat.add_sub_cancel, triangleAt_left hj, triangleAt_left (Nat.lt_succ_self k)]
      dsimp only [List.foldl_cons, List.foldl_nil]
      rw [hrow, hcol]
      exact term_parts hrow_lt hcol_lt

theorem q16DiagonalSum_eq (hj : j < n) : q16DiagonalSum pL offset j =
    BitVec.ofInt 32 (lastTerm (triangleAt offset pL) j j).1 := by
  have hsums : (q16RowSums pL offset j j 0).2.1 = _ :=
    congrArg Prod.fst (q16RowSums_eq hfit hoffset (Nat.le_refl j) hj 0)
  refine Eq.trans ?_ hsums
  cases j with
  | zero => rfl
  | succ k =>
      rw [q16DiagonalSum, q16RowSums, List.range_succ, List.foldl_append, List.foldl_append]
      rfl

/-! ### Turns -/

omit hfit hoffset in
/-- What the loops do for an element. -/
def q16Turn (pSrc : Nat → BitVec 16) (offset : Nat) (s : V2s × (Nat → BitVec 16)) (e : Nat × Nat) :
    V2s × (Nat → BitVec 16) :=
  if e.1 = e.2 then
    (s.1, Function.update s.2 (halfIdx offset e.2 e.2) (lane (sqrtQ32s 16
      (loadHalf pSrc (halfIdx offset e.2 e.2) - q16DiagonalSum s.2 offset e.2)) 0))
  else q16Element pSrc offset e.2 s e.1

omit hfit hoffset in
/-- A halfword less one of the sums. -/
theorem toInt_sub_scaled {p : Nat → BitVec 16} {v : Int} (k : Nat) (hlo : -2 ^ 21 ≤ v)
    (hhi : v < 2 ^ 21) : (loadHalf p k - BitVec.ofInt 32 v).toInt = (p k).toInt - v := by
  have hrange := half_range (p k)
  rw [BitVec.toInt_sub, loadHalf_toInt, toInt_ofInt32 (by omega) (by omega)]
  exact Int.bmod_eq_of_le (by omega) (by omega)

omit hfit hoffset in
theorem lastTerm_range : (-2 ^ 21 ≤ (lastTerm L i j).1 ∧ (lastTerm L i j).1 < 2 ^ 21) ∧
    -2 ^ 21 ≤ (lastTerm L i j).2 ∧ (lastTerm L i j).2 < 2 ^ 21 := by
  unfold lastTerm
  split
  · decide
  · exact ⟨scaled_range _, scaled_range _⟩

omit hfit hoffset in
theorem toInt_lane_zero (x : Int32) : (lane x 0).toInt = packed x.toInt := by
  have hlane := lane_ofInt x.toInt
  rw [BitVec.ofInt_toInt] at hlane
  rw [hlane, BitVec.toInt_ofInt]
  rfl

theorem q16Turn_self (he : LowerTriangle n e) (s : V2s × (Nat → BitVec 16)) :
    triangleAt offset (q16Turn pSrc offset s e).2 e =
      choleskyComputed offset pSrc (triangleAt offset s.2) e := by
  obtain ⟨i, j⟩ := e
  obtain ⟨hle, hi⟩ : j ≤ i ∧ i < n := he
  obtain ⟨hidx, hidx_lt⟩ := halfIdx_eq hfit hi (show j < offset by omega)
  have hsum := @lastTerm_range i j (triangleAt offset s.2)
  unfold q16Turn choleskyComputed
  dsimp only
  split
  · rename_i heq
    subst heq
    have hnumber : loadHalf pSrc (halfIdx offset i i) - q16DiagonalSum s.2 offset i =
        BitVec.ofInt 32 ((complexAt pSrc (i * offset + i)).1 -
          (lastTerm (triangleAt offset s.2) i i).1) := by
      have hrange := half_range (pSrc (2 * (i * offset + i)))
      refine BitVec.eq_of_toInt_eq ?_
      rw [q16DiagonalSum_eq hfit hoffset hi, toInt_sub_scaled _ hsum.1.1 hsum.1.2, hidx, complexAt,
        toInt_ofInt32 (by omega) (by omega)]
    rw [hnumber, hidx, triangleAt, if_pos rfl, complexAt]
    dsimp only
    rw [Function.update_self, toInt_lane_zero]
  · rename_i hne
    obtain ⟨hdiag, -⟩ := halfIdx_eq hfit (show j < n by omega) (show j < offset by omega)
    have hstored (v w : Int32) := @storeHalves_self s.2 (i * offset + j) v w hidx_lt
    unfold q16Element
    dsimp only
    rw [triangleAt_left (by omega), q16RowSums_eq hfit hoffset hle hi, hidx, hdiag, u32_eq hidx_lt,
      hstored, packed_div32, packed_div32, toInt_sub_scaled _ hsum.1.1 hsum.1.2,
      toInt_sub_scaled _ hsum.2.1 hsum.2.2, loadHalf_toInt, triangleAt, if_pos rfl]
    rfl

theorem q16Turn_other {d : Nat × Nat} (he : LowerTriangle n e) (hd : LowerTriangle n d)
    (hne : d ≠ e) (s : V2s × (Nat → BitVec 16)) :
    triangleAt offset (q16Turn pSrc offset s e).2 d = triangleAt offset s.2 d := by
  obtain ⟨i, j⟩ := e
  obtain ⟨i', j'⟩ := d
  obtain ⟨hle, hi⟩ : j ≤ i ∧ i < n := he
  obtain ⟨hle', hi'⟩ : j' ≤ i' ∧ i' < n := hd
  obtain ⟨hidx, hidx_lt⟩ := halfIdx_eq hfit hi (show j < offset by omega)
  have hcell : i' * offset + j' ≠ i * offset + j := fun heq => by
    obtain ⟨rfl, rfl⟩ := cell_inj (show j' < offset by omega) (show j < offset by omega) heq
    exact hne rfl
  have hkeep : complexAt (q16Turn pSrc offset s (i, j)).2 (i' * offset + j') =
      complexAt s.2 (i' * offset + j') := by
    unfold q16Turn
    dsimp only
    split
    · rename_i heq
      subst heq
      rw [hidx]
      unfold complexAt
      dsimp only
      rw [Function.update_of_ne (by omega), Function.update_of_ne (by omega)]
    · unfold q16Element
      dsimp only
      rw [hidx]
      exact storeHalves_other _ hidx_lt hcell
  rw [triangleAt, triangleAt, hkeep]

/-! ### The order of the loops -/

omit hfit hoffset

/-- The elements of a column. -/
def columnPlaces (n j : Nat) : List (Nat × Nat) := (List.range' j (n - j)).map fun i => (i, j)

def trianglePlaces (n : Nat) : List (Nat × Nat) := (List.range n).flatMap (columnPlaces n)

theorem mem_columnPlaces : e ∈ columnPlaces n j ↔ e.2 = j ∧ j ≤ e.1 ∧ e.1 < n := by
  obtain ⟨i, k⟩ := e
  rw [columnPlaces, List.mem_map]
  constructor
  · rintro ⟨i', hi', heq⟩
    cases heq
    have := List.mem_range'_1.mp hi'
    exact ⟨rfl, this.1, by dsimp only; omega⟩
  · rintro ⟨rfl, hle, hlt⟩
    exact ⟨i, List.mem_range'_1.mpr ⟨hle, by dsimp only at *; omega⟩, rfl⟩

theorem mem_trianglePlaces : e ∈ trianglePlaces n ↔ LowerTriangle n e := by
  rw [trianglePlaces, List.mem_flatMap]
  constructor
  · rintro ⟨j, -, he⟩
    obtain ⟨rfl, h⟩ := mem_columnPlaces.mp he
    exact h
  · rintro ⟨hle, hlt⟩
    exact ⟨e.2, List.mem_range.mpr (by omega), mem_columnPlaces.mpr ⟨rfl, hle, hlt⟩⟩

theorem trianglePlaces_order :
    (trianglePlaces n).Pairwise fun d e => d ≠ e ∧ choleskyRank d ≤ choleskyRank e := by
  refine List.pairwise_flatMap.mpr ⟨fun j _ => ?_, List.pairwise_lt_range.imp ?_⟩
  · refine List.pairwise_map.mpr (List.Pairwise.imp_of_mem ?_ List.pairwise_lt_range')
    intro i i' hi _ hlt
    have hj := (List.mem_range'_1.mp hi).1
    refine ⟨fun heq => hlt.ne (congrArg Prod.fst heq), ?_⟩
    unfold choleskyRank
    dsimp only
    rw [if_neg (show i' ≠ j by omega)]
    split <;> omega
  · intro j j' hlt d hd e he
    obtain ⟨rfl, -⟩ := mem_columnPlaces.mp hd
    obtain ⟨rfl, -⟩ := mem_columnPlaces.mp he
    refine ⟨fun heq => hlt.ne (congrArg Prod.snd heq), ?_⟩
    unfold choleskyRank
    split <;> split <;> omega

variable {numBanks folded fuel : Nat}

theorem q16Column_eq (hj : j < n) (hfuel : 46343 ≤ fuel) (s : V2s × (Nat → BitVec 16)) :
    q16Column pSrc numBanks n folded fuel s j =
      some ((columnPlaces n j).foldl (q16Turn pSrc (q16Offset numBanks n folded)) s) := by
  obtain ⟨m, hm⟩ : ∃ m, n - j = m + 1 := ⟨n - j - 1, by omega⟩
  have hrest : n - (j + 1) = m := by omega
  unfold q16Column
  dsimp only
  rw [mempoolSqrtQ32s_eq 16 _ hfuel, columnPlaces, hm, List.range'_succ, List.map_cons,
    List.foldl_cons, List.foldl_map, hrest, q16Turn, if_pos rfl]
  refine congrArg some (List.foldl_ext _ _ _ fun s i hi => ?_)
  have hi := (List.mem_range'_1.mp hi).1
  exact (if_neg (show i ≠ j by omega)).symm

theorem cholesky_ends (pL : Nat → BitVec 16) :
    Ends (fun fuel => mempoolCholeskyQ16vecs pSrc numBanks n folded fuel pL)
      ((trianglePlaces n).foldl (q16Turn pSrc (q16Offset numBanks n folded)) (0, pL)).2 := by
  refine ⟨46343, fun fuel hfuel => ?_⟩
  have hcolumns : (List.range n).foldl (fun s j => s.bind fun s =>
      q16Column pSrc numBanks n folded fuel s j) (some (0, pL)) =
        some ((List.range n).foldl (fun s j => (columnPlaces n j).foldl
          (q16Turn pSrc (q16Offset numBanks n folded)) s) (0, pL)) :=
    foldl_bind (List.range n) (0, pL) fun j hj s => q16Column_eq (List.mem_range.mp hj) hfuel s
  dsimp only
  rw [mempoolCholeskyQ16vecs, hcolumns, trianglePlaces, List.foldl_flatMap]
  rfl

/-- The factor. -/
def exactFactor (offset : Nat) (pSrc : Nat → BitVec 16) (e : Nat × Nat) : Int × Int :=
  cholesky (fun a b => mulScaled a (conj b)) divReal rootReal
    (fun i j => complexAt pSrc (i * offset + j)) e.1 e.2

theorem exactFactor_solves :
    Solves (LowerTriangle n) (choleskyRecurrence offset pSrc) (exactFactor offset pSrc) := by
  rintro ⟨i, j⟩ -
  unfold choleskyRecurrence
  dsimp only
  split
  · rename_i heq
    subst heq
    exact cholesky_diag _ _ _ _ i
  · rename_i hne
    exact cholesky_below _ _ _ _ hne

/-- When the factor comes out right: the last terms alone, with the wrong sign and the halves
swapped, have to give every element of it. -/
def CholeskyHolds (pSrc : Nat → BitVec 16) (numBanks n folded : Nat) : Prop :=
  let offset := q16Offset numBanks n folded
  Solves (LowerTriangle n) (choleskyComputed offset pSrc) (exactFactor offset pSrc)

/-- The elements are left with what the decomposition gives them. -/
theorem cholesky_left (hfit : n * offset * 4 ≤ 2 ^ 32) (hoffset : n ≤ offset)
    (s : V2s × (Nat → BitVec 16)) : Solves (LowerTriangle n) (choleskyComputed offset pSrc)
      (triangleAt offset ((trianglePlaces n).foldl (q16Turn pSrc offset) s).2) := by
  have hcausal : Causal (LowerTriangle n) choleskyRank (choleskyComputed offset pSrc) :=
    choleskyComputed_causal
  have hrun := hcausal.run (fun s => triangleAt offset s.2) (q16Turn pSrc offset)
    (fun s e he => q16Turn_self hfit hoffset (mem_trianglePlaces.mp he) s)
    (fun s e he d hd hne => q16Turn_other hfit hoffset (mem_trianglePlaces.mp he) hd hne s)
    (fun e he => mem_trianglePlaces.mp he) trianglePlaces_order s
  exact fun e he => hrun e (mem_trianglePlaces.mpr he)

theorem cholesky_q16_iff (hfit : n * q16Offset numBanks n folded * 4 ≤ 2 ^ 32)
    (hoffset : n ≤ q16Offset numBanks n folded) :
    CholeskyRight pSrc pL numBanks n folded ↔ CholeskyHolds pSrc numBanks n folded := by
  have hends := @cholesky_ends n pSrc numBanks folded pL
  have hiff : Solves (LowerTriangle n) (choleskyRecurrence (q16Offset numBanks n folded) pSrc) _ ↔
      CholeskyHolds pSrc numBanks n folded :=
    choleskyComputed_causal.solves_iff choleskyRecurrence_causal
      (cholesky_left hfit hoffset (0, pL)) exactFactor_solves
  constructor
  · rintro ⟨pL', hpL', hright⟩
    rw [hpL'.unique hends] at hright
    exact hiff.mp hright
  · exact fun h => ⟨_, hends, hiff.mpr h⟩

end Cholesky

/-! ## The solver -/

section Ltrisol

/-- The term of the variable before, in the order of the loop. -/
def lastProduct (offset n transposed : Nat) (pL : Nat → BitVec 16) (x : Nat → Int × Int) (i : Nat) :
    Int × Int :=
  if transposed = 0 then
    if i = 0 then (0, 0) else termParts (complexAt pL (i * offset + (i - 1))) (x (i - 1))
  else if n = i + 1 then (0, 0)
  else termParts (complexAt pL ((i + 1) * n + i)) (x (i + 1))

/-- What the solver gives a variable. -/
def ltrisolComputed (offset n transposed : Nat) (pL y : Nat → BitVec 16) (x : Nat → Int × Int)
    (i : Nat) : Int × Int :=
  let sum := lastProduct offset n transposed pL x i
  let diag := (complexAt pL (i * offset + i)).1
  (storedQuotient (sum.2 - (complexAt y i).2) diag, storedQuotient (sum.1 - (complexAt y i).1) diag)

/-- The turn of a variable. -/
def solverTurn (n transposed i : Nat) : Nat := if transposed = 0 then i else n - 1 - i

variable {n offset transposed numBanks folded i j : Nat} {pL y : Nat → BitVec 16}

theorem ltrisolComputed_causal :
    Causal (· < n) (solverTurn n transposed) (ltrisolComputed offset n transposed pL y) := by
  intro x x' i hi h
  have hterm : lastProduct offset n transposed pL x i =
    lastProduct offset n transposed pL x' i := by
    unfold lastProduct
    unfold solverTurn at h
    split
    · rename_i htrans
      split
      · rfl
      · rw [h (i - 1) (by omega) (by rw [if_pos htrans, if_pos htrans]; omega)]
    · rename_i htrans
      split
      · rfl
      · rw [h (i + 1) (by omega) (by rw [if_neg htrans, if_neg htrans]; omega)]
  unfold ltrisolComputed
  rw [hterm]

theorem ltrisolRecurrence_causal :
    Causal (· < n) (solverTurn n transposed) (ltrisolRecurrence offset n transposed pL y) := by
  intro x x' i hi h
  unfold solverTurn at h
  unfold ltrisolRecurrence
  dsimp only
  split
  · rename_i htrans
    rw [Finset.sum_congr rfl fun j hj => ?_]
    have hj := Finset.mem_range.mp hj
    rw [h j (by omega) (by rwa [if_pos htrans, if_pos htrans])]
  · rename_i htrans
    rw [Finset.sum_congr rfl fun j hj => ?_]
    have hj := Finset.mem_Ico.mp hj
    rw [h j hj.2 (by rw [if_neg htrans, if_neg htrans]; omega)]

/-- The solution. -/
def exactSolution (offset n transposed : Nat) (pL y : Nat → BitVec 16) (i : Nat) : Int × Int :=
  let L := fun i j => complexAt pL (i * offset + j)
  if transposed = 0 then forward (fun x l => mulScaled l x) divReal L (complexAt y) i
  else backward (fun x l => mulScaled (conj l) x) divReal L (complexAt y) n i

theorem exactSolution_solves : Solves (· < n) (ltrisolRecurrence offset n transposed pL y)
    (exactSolution offset n transposed pL y) := by
  intro i hi
  unfold ltrisolRecurrence exactSolution
  dsimp only
  split
  · exact forward_eq _ _ _ _ i
  · exact backward_eq _ _ _ _ hi

/-! ### Turns -/

theorem solverTurn_lt (hi : i < n) : solverTurn n transposed i < n := by
  unfold solverTurn
  split <;> omega

theorem solverTurn_solverTurn (hi : i < n) :
    solverTurn n transposed (solverTurn n transposed i) = i := by
  unfold solverTurn
  split <;> omega

theorem q16Row_eq (hn : n < 2 ^ 32) (hi : i < n) :
    q16Row n transposed i = solverTurn n transposed i := by
  unfold q16Row solverTurn
  by_cases htrans : transposed = 0
  · rw [if_neg (not_not_intro htrans), if_pos htrans]
  · rw [if_pos htrans, if_neg htrans, sub32_eq (by omega) hn, sub32_eq (by omega) (by omega)]
    omega

variable (hfit : n * q16Offset numBanks n folded * 4 ≤ 2 ^ 32)
  (hoffset : n ≤ q16Offset numBanks n folded)

include hfit hoffset

theorem order_fits : n * n * 4 ≤ 2 ^ 32 ∧ n < 2 ^ 31 := by
  have hsquare := Nat.mul_le_mul_left n hoffset
  have hle := Nat.le_mul_self n
  exact ⟨by omega, by omega⟩

/-- Every turn of the loop over `j` starts again, whatever is left in `ndc`. -/
theorem q16SolverSums_eq (hi : i < n) (s : V2s × (Nat → BitVec 16)) :
    (q16SolverSums pL numBanks n transposed folded (solverTurn n transposed i) s).2 =
      (BitVec.ofInt 32
          (lastProduct (q16Offset numBanks n folded) n transposed pL (complexAt s.2) i).1,
        BitVec.ofInt 32
          (lastProduct (q16Offset numBanks n folded) n transposed pL (complexAt s.2) i).2) := by
  obtain ⟨hsquare, hn⟩ := order_fits hfit hoffset
  have hturn := @solverTurn_lt n transposed i hi
  have hback := @solverTurn_solverTurn n transposed i hi
  generalize ht : solverTurn n transposed i = t at hturn hback
  cases t with
  | zero =>
      have hnone : lastProduct (q16Offset numBanks n folded) n transposed pL (complexAt s.2) i =
          (0, 0) := by
        unfold lastProduct
        unfold solverTurn at ht
        split
        · rename_i htrans
          rw [if_pos htrans] at ht
          exact if_pos ht
        · rename_i htrans
          rw [if_neg htrans] at ht
          exact if_pos (by omega)
      rw [hnone]
      rfl
  | succ k =>
      rw [q16SolverSums, List.range_succ, List.foldl_append]
      dsimp only [List.foldl_cons, List.foldl_nil]
      rw [q16Row_eq (by omega) hturn, hback, q16Row_eq (by omega) (show k < n by omega)]
      unfold q16Lower lastProduct
      unfold solverTurn at ht ⊢
      by_cases htrans : transposed = 0
      · rw [if_pos htrans] at ht
        subst ht
        obtain ⟨hidx, hidx_lt⟩ := halfIdx_eq hfit hi (show k < q16Offset numBanks n folded by omega)
        rw [if_pos htrans, if_pos htrans, if_pos htrans, if_neg (Nat.succ_ne_zero k),
          Nat.add_sub_cancel, hidx, u32_eq (show 2 * k < 2 ^ 32 by omega)]
        exact term_parts hidx_lt (by omega)
      · rw [if_neg htrans] at ht
        obtain ⟨hidx, hidx_lt⟩ := halfIdx_eq hsquare (show i + 1 < n by omega) hi
        rw [if_neg htrans, if_neg htrans, if_neg htrans, if_neg (show n ≠ i + 1 by omega),
          show n - 1 - k = i + 1 by omega, hidx, u32_eq (show 2 * (i + 1) < 2 ^ 32 by omega)]
        exact term_parts hidx_lt (by omega)

omit hfit hoffset in
theorem lastProduct_range {x : Nat → Int × Int} :
    (-2 ^ 21 ≤ (lastProduct offset n transposed pL x i).1 ∧
        (lastProduct offset n transposed pL x i).1 < 2 ^ 21) ∧
      -2 ^ 21 ≤ (lastProduct offset n transposed pL x i).2 ∧
        (lastProduct offset n transposed pL x i).2 < 2 ^ 21 := by
  have hterm (a b : Int × Int) : (-2 ^ 21 ≤ (termParts a b).1 ∧ (termParts a b).1 < 2 ^ 21) ∧
      -2 ^ 21 ≤ (termParts a b).2 ∧ (termParts a b).2 < 2 ^ 21 :=
    ⟨scaled_range _, scaled_range _⟩
  unfold lastProduct
  split
  · split
    · decide
    · exact hterm _ _
  · split
    · decide
    · exact hterm _ _

omit hfit hoffset in
/-- One of the sums less a halfword. -/
theorem toInt_scaled_sub {p : Nat → BitVec 16} {v : Int} (k : Nat) (hlo : -2 ^ 21 ≤ v)
    (hhi : v < 2 ^ 21) : (BitVec.ofInt 32 v - loadHalf p k).toInt = v - (p k).toInt := by
  have hrange := half_range (p k)
  rw [BitVec.toInt_sub, loadHalf_toInt, toInt_ofInt32 (by omega) (by omega)]
  exact Int.bmod_eq_of_le (by omega) (by omega)

theorem q16Variable_self (hi : i < n) (s : V2s × (Nat → BitVec 16)) :
    complexAt (q16Variable pL y numBanks n transposed folded s (solverTurn n transposed i)).2 i =
      ltrisolComputed (q16Offset numBanks n folded) n transposed pL y (complexAt s.2) i := by
  obtain ⟨-, hn⟩ := order_fits hfit hoffset
  have hsum := @lastProduct_range n (q16Offset numBanks n folded) transposed i pL (complexAt s.2)
  obtain ⟨hdiag, -⟩ := halfIdx_eq hfit hi (show i < q16Offset numBanks n folded by omega)
  have hstored (v w : Int32) := @storeHalves_self s.2 i v w (by omega)
  unfold q16Variable ltrisolComputed
  dsimp only
  rw [q16Row_eq (by omega) (solverTurn_lt hi), solverTurn_solverTurn hi,
    q16SolverSums_eq hfit hoffset hi, u32_eq (show 2 * i < 2 ^ 32 by omega),
    u32_eq (show 2 * i + 1 < 2 ^ 32 by omega), hdiag, hstored, packed_div32, packed_div32,
    toInt_scaled_sub _ hsum.1.1 hsum.1.2, toInt_scaled_sub _ hsum.2.1 hsum.2.2, loadHalf_toInt]
  rfl

theorem q16Variable_other (hi : i < n) (hne : j ≠ i) (s : V2s × (Nat → BitVec 16)) :
    complexAt (q16Variable pL y numBanks n transposed folded s (solverTurn n transposed i)).2 j =
      complexAt s.2 j := by
  obtain ⟨-, hn⟩ := order_fits hfit hoffset
  unfold q16Variable
  dsimp only
  rw [q16Row_eq (by omega) (solverTurn_lt hi), solverTurn_solverTurn hi,
    u32_eq (show 2 * i < 2 ^ 32 by omega)]
  exact storeHalves_other _ (by omega) hne

/-- The variables are left with what the solver gives them. -/
theorem ltrisol_left (x : Nat → BitVec 16) :
    Solves (· < n) (ltrisolComputed (q16Offset numBanks n folded) n transposed pL y)
      (complexAt (mempoolLtrisolQ16vecs pL y numBanks n transposed folded x)) := by
  have hcausal : Causal (· < n) (solverTurn n transposed)
      (ltrisolComputed (q16Offset numBanks n folded) n transposed pL y) := ltrisolComputed_causal
  have hplace {i : Nat} (hi : i ∈ (List.range n).map (solverTurn n transposed)) : i < n := by
    obtain ⟨t, ht, rfl⟩ := List.mem_map.mp hi
    exact solverTurn_lt (List.mem_range.mp ht)
  have horder : ((List.range n).map (solverTurn n transposed)).Pairwise fun i j =>
      i ≠ j ∧ solverTurn n transposed i ≤ solverTurn n transposed j := by
    refine List.pairwise_map.mpr (List.Pairwise.imp_of_mem ?_ List.pairwise_lt_range)
    intro t t' ht ht' hlt
    have ht := @solverTurn_solverTurn n transposed t (List.mem_range.mp ht)
    have ht' := @solverTurn_solverTurn n transposed t' (List.mem_range.mp ht')
    rw [ht, ht']
    refine ⟨fun heq => ?_, hlt.le⟩
    rw [heq, ht'] at ht
    omega
  have hrun := hcausal.run (fun s => complexAt s.2)
    (fun s i => q16Variable pL y numBanks n transposed folded s (solverTurn n transposed i))
    (fun s i hi => q16Variable_self hfit hoffset (hplace hi) s)
    (fun s i hi j hj hne => q16Variable_other hfit hoffset (hplace hi) hne s)
    (fun i hi => hplace hi) horder (0, x)
  have hturns : ((List.range n).map (solverTurn n transposed)).foldl
      (fun s i => q16Variable pL y numBanks n transposed folded s (solverTurn n transposed i))
      (0, x) = (List.range n).foldl (q16Variable pL y numBanks n transposed folded) (0, x) := by
    rw [List.foldl_map]
    refine List.foldl_ext _ _ _ fun s t ht => ?_
    rw [solverTurn_solverTurn (List.mem_range.mp ht)]
  rw [hturns] at hrun
  refine fun i hi => hrun i (List.mem_map.mpr
    ⟨solverTurn n transposed i, List.mem_range.mpr (solverTurn_lt hi), solverTurn_solverTurn hi⟩)

omit hfit hoffset in
/-- When the solution comes out right: the last products alone, with the wrong signs and the
halves swapped, read with the order of the matrix as the offset if it is transposed, have to give
every variable. -/
def LtrisolHolds (pL y : Nat → BitVec 16) (numBanks n transposed folded : Nat) : Prop :=
  let offset := q16Offset numBanks n folded
  Solves (· < n) (ltrisolComputed offset n transposed pL y)
    (exactSolution offset n transposed pL y)

theorem ltrisol_q16_iff {x : Nat → BitVec 16} :
    LtrisolRight pL y x numBanks n transposed folded ↔
      LtrisolHolds pL y numBanks n transposed folded :=
  ltrisolComputed_causal.solves_iff ltrisolRecurrence_causal (ltrisol_left hfit hoffset x)
    exactSolution_solves

end Ltrisol

/-! ## When the factor and the solution are exact -/

/-- The kernels are right if and only if what they compute from the exact elements before gives
every exact element. -/
theorem triangular_q16_iff {pSrc pL pM y x : Nat → BitVec 16} {numBanks n transposed folded : Nat}
    (hfolded : folded ≠ 0 → n ≤ numBanks)
    (hfit : n * q16Offset numBanks n folded * 4 ≤ 2 ^ 32) :
    CholeskyRight pSrc pL numBanks n folded ∧ LtrisolRight pM y x numBanks n transposed folded ↔
      CholeskyHolds pSrc numBanks n folded ∧ LtrisolHolds pM y numBanks n transposed folded := by
  have hoffset : n ≤ q16Offset numBanks n folded := by
    unfold q16Offset
    split
    · rename_i h
      exact hfolded h
    · exact Nat.le_refl n
  rw [cholesky_q16_iff hfit hoffset, ltrisol_q16_iff hfit hoffset]

/-- Below the diagonal the factor is `20 + 20i`, which has equal halves, and the matrix of the
solver is imaginary there. -/
theorem triangular_q16_equal_halves :
    let pSrc : Nat → BitVec 16 := fun i => [4, 0, 0, 0, 10840, 10840, 7, 0].getD i 0
    let pM : Nat → BitVec 16 := fun i => [2, 0, 0, 0, 0, 128, 2, 0].getD i 0
    let y : Nat → BitVec 16 := fun i => [512, -512, 768, -768].getD i 0
    CholeskyRight pSrc (fun _ => 0) 1024 2 0 ∧ LtrisolRight pM y (fun _ => 0) 1024 2 0 0 := by
  intro pSrc pM y
  have hfactor : ∀ i < 2, ∀ j ≤ i, exactFactor 2 pSrc (i, j) =
      choleskyComputed 2 pSrc (exactFactor 2 pSrc) (i, j) := by decide +kernel
  have hsolution : ∀ i < 2, exactSolution 2 2 0 pM y i =
      ltrisolComputed 2 2 0 pM y (exactSolution 2 2 0 pM y) i := by decide +kernel
  exact (triangular_q16_iff (fun h => absurd rfl h) (by decide)).mpr
    ⟨fun e he => hfactor e.1 he.2 e.2 he.1, hsolution⟩

/-- The matrix with the rows `4 0` and `1024 16`, all of it real. -/
def rowsOfTwo : Nat → BitVec 16 := fun i => [4, 0, 0, 0, 1024, 0, 16, 0].getD i 0

/-- The element below the diagonal is one, and comes out as the imaginary unit. -/
theorem triangular_q16_two :
    ¬(CholeskyRight rowsOfTwo (fun _ => 0) 1024 2 0 ∧
      LtrisolRight (fun _ => 256) (fun _ => 256) (fun _ => 0) 1024 2 0 0) := by
  rintro ⟨hright, -⟩
  have hholds : CholeskyHolds rowsOfTwo 1024 2 0 :=
    (cholesky_q16_iff (by decide) (by decide)).mp hright
  have helem : exactFactor 2 rowsOfTwo (1, 0) =
      choleskyComputed 2 rowsOfTwo (exactFactor 2 rowsOfTwo) (1, 0) :=
    hholds (1, 0) ⟨by decide, by decide⟩
  exact absurd helem (by decide +kernel)

end TeraNoC.Kernels
