import TeraNoC.Proofs.FoldedLayout

/-!
# The stages of the folded transforms

A stage loads from one buffer of numbers and one table, and stores to the other ones. What each
cell gets is a matter of its key, so that it does not matter which core stores first.
-/

namespace TeraNoC.Kernels

open TeraNoC.Lib TeraNoC.Runtime

/-! ## Buffers -/

section Buffers

variable {foldedTwiddles : Bool} {s : Nat}

/-- The numbers before stage `s`. -/
def dataBuffer (s : Nat) : Nat → FftLoc := if s % 2 = 0 then .src else .dst

/-- The twiddle factors of stage `s`. -/
def coefBuffer (foldedTwiddles : Bool) (s : Nat) : Nat → FftLoc :=
  if foldedTwiddles = true ∧ s % 2 = 1 then .coefDst else .coefSrc

/-- Where those of the next stage go. -/
def coefTarget (foldedTwiddles : Bool) (s : Nat) : Nat → FftLoc :=
  if foldedTwiddles = true ∧ s % 2 = 1 then .coefSrc else .coefDst

theorem dataBuffer_cases (s : Nat) : (dataBuffer s = .src ∧ dataBuffer (s + 1) = .dst) ∨
    (dataBuffer s = .dst ∧ dataBuffer (s + 1) = .src) := by
  unfold dataBuffer
  rcases Nat.mod_two_eq_zero_or_one s with h | h
  · exact Or.inl ⟨if_pos h, if_neg (by omega)⟩
  · exact Or.inr ⟨if_neg (by omega), if_pos (by omega)⟩

theorem coefBuffer_cases (foldedTwiddles : Bool) (s : Nat) :
    (coefBuffer foldedTwiddles s = .coefSrc ∧ coefTarget foldedTwiddles s = .coefDst) ∨
      (coefBuffer foldedTwiddles s = .coefDst ∧ coefTarget foldedTwiddles s = .coefSrc) := by
  unfold coefBuffer coefTarget
  split
  · exact Or.inr ⟨rfl, rfl⟩
  · exact Or.inl ⟨rfl, rfl⟩

theorem coefTarget_true (s : Nat) : coefTarget true s = coefBuffer true (s + 1) := by
  unfold coefBuffer coefTarget
  rcases Nat.mod_two_eq_zero_or_one s with h | h
  · rw [if_neg fun hs => by omega, if_pos ⟨rfl, by omega⟩]
  · rw [if_pos ⟨rfl, h⟩, if_neg fun hs => by omega]

section Apart

variable {i j : Nat}

theorem dataBuffer_inj (h : dataBuffer s i = dataBuffer s j) : i = j := by
  rcases dataBuffer_cases s with ⟨hs, -⟩ | ⟨hs, -⟩
  · rw [hs] at h
    exact FftLoc.src.inj h
  · rw [hs] at h
    exact FftLoc.dst.inj h

theorem dataBuffer_succ_ne : dataBuffer (s + 1) i ≠ dataBuffer s j := by
  rcases dataBuffer_cases s with ⟨hs, hn⟩ | ⟨hs, hn⟩
  · rw [hs, hn]
    exact FftLoc.noConfusion
  · rw [hs, hn]
    exact FftLoc.noConfusion

theorem coefTarget_inj (h : coefTarget foldedTwiddles s i = coefTarget foldedTwiddles s j) :
    i = j := by
  rcases coefBuffer_cases foldedTwiddles s with ⟨-, hs⟩ | ⟨-, hs⟩
  · rw [hs] at h
    exact FftLoc.coefDst.inj h
  · rw [hs] at h
    exact FftLoc.coefSrc.inj h

theorem coefTarget_ne : coefTarget foldedTwiddles s i ≠ coefBuffer foldedTwiddles s j := by
  rcases coefBuffer_cases foldedTwiddles s with ⟨hs, hn⟩ | ⟨hs, hn⟩
  · rw [hs, hn]
    exact FftLoc.noConfusion
  · rw [hs, hn]
    exact FftLoc.noConfusion

/-- Numbers and twiddle factors are in different arrays. -/
theorem dataBuffer_ne_coef {s' : Nat} : dataBuffer s i ≠ coefBuffer foldedTwiddles s' j ∧
    dataBuffer s i ≠ coefTarget foldedTwiddles s' j := by
  unfold dataBuffer coefBuffer coefTarget
  split <;> split <;> exact ⟨FftLoc.noConfusion, FftLoc.noConfusion⟩

end Apart

/-- What a stage may load. -/
def StageReads (foldedTwiddles : Bool) (s : Nat) (a : FftLoc) : Prop :=
  (∃ i, a = dataBuffer s i) ∨ ∃ i, a = coefBuffer foldedTwiddles s i

end Buffers

/-! ## Keys -/

section Keys

variable {NB nROW nCOL m s : Nat} {foldedTwiddles : Bool}

/-- The numbers of the transforms, by row, column and element, and the twiddle factors of the
columns, by column, row of banks and place. -/
abbrev Key (nROW nCOL m : Nat) : Type :=
  (Fin nROW × Fin nCOL × Fin (4 ^ m)) ⊕ (Fin nCOL × Fin 3 × Fin (4 ^ (m - 1)))

/-- The halfword of a twiddle factor. -/
def coefCell (NB m c k x : Nat) : Nat := c * 4 ^ (m - 1) * 2 + (x + k * NB) * 2

def keyLoc (L : Layout NB nCOL m) (foldedTwiddles : Bool) (s : Nat) : Key nROW nCOL m → FftLoc
  | .inl key => dataBuffer (s + 1) (L.cell key.1 key.2.1 key.2.2)
  | .inr key => coefTarget foldedTwiddles s (coefCell NB m key.1 key.2.1 key.2.2)

/-- The numbers before stage `s`; there are `m` stages that change them. -/
def stageData (W : Nat → V2s) (m : Nat) (X : Nat → Nat → Nat → V2s) (s r c e : Nat) : V2s :=
  fftVector W m (X r c) (min s m) e

/-- The twiddle factors of stage `s` in row `k` of the banks. -/
def stageCoef (W : Nat → V2s) (m s k x : Nat) : V2s := W ((k + 1) * (x % 4 ^ (m - 1 - s) * 4 ^ s))

def keyVal (W : Nat → V2s) (X : Nat → Nat → Nat → V2s) (s : Nat) : Key nROW nCOL m → V2s
  | .inl key => stageData W m X (s + 1) key.1 key.2.1 key.2.2
  | .inr key => stageCoef W m (s + 1) key.2.1 key.2.2

theorem keyLoc_side (L : Layout NB nCOL m) (key : Key nROW nCOL m) :
    ¬StageReads foldedTwiddles s (keyLoc L foldedTwiddles s key) := by
  cases key with
  | inl key =>
      rintro (⟨i, h⟩ | ⟨i, h⟩)
      · exact dataBuffer_succ_ne h
      · exact dataBuffer_ne_coef.1 h
  | inr key =>
      rintro (⟨i, h⟩ | ⟨i, h⟩)
      · exact dataBuffer_ne_coef.2 h.symm
      · exact coefTarget_ne h

theorem coefCell_inj (hcols : nCOL * 4 ^ (m - 1) ≤ NB) {c c' k k' x x' : Nat} (hc : c < nCOL)
    (hc' : c' < nCOL) (hx : x < 4 ^ (m - 1)) (hx' : x' < 4 ^ (m - 1))
    (h : coefCell NB m c k x = coefCell NB m c' k' x') : c = c' ∧ k = k' ∧ x = x' := by
  have hplace := (block_lt hc hx).trans_le hcols
  have hplace' := (block_lt hc' hx').trans_le hcols
  have hbank : k * NB + (c * 4 ^ (m - 1) + x) = k' * NB + (c' * 4 ^ (m - 1) + x') := by
    unfold coefCell at h
    omega
  obtain ⟨hk, hplaces⟩ := block_inj hplace hplace' hbank
  obtain ⟨hcc, hxx⟩ := block_inj hx hx' hplaces
  exact ⟨hcc, hk, hxx⟩

theorem keyLoc_injective (L : Layout NB nCOL m) (hcols : nCOL * 4 ^ (m - 1) ≤ NB) :
    (keyLoc L foldedTwiddles s : Key nROW nCOL m → FftLoc).Injective := by
  intro key key' h
  cases key with
  | inl key =>
      cases key' with
      | inl key' =>
          obtain ⟨hr, hc, he⟩ := L.cell_inj key.2.1.isLt key.2.2.isLt key'.2.1.isLt key'.2.2.isLt
            (dataBuffer_inj h)
          exact congrArg Sum.inl (Prod.ext (Fin.ext hr) (Prod.ext (Fin.ext hc) (Fin.ext he)))
      | inr key' => exact (dataBuffer_ne_coef.2 h).elim
  | inr key =>
      cases key' with
      | inl key' => exact (dataBuffer_ne_coef.2 h.symm).elim
      | inr key' =>
          obtain ⟨hc, hk, hx⟩ := coefCell_inj hcols key.1.isLt key'.1.isLt key.2.2.isLt
            key'.2.2.isLt (coefTarget_inj h)
          exact congrArg Sum.inr (Prod.ext (Fin.ext hc) (Prod.ext (Fin.ext hk) (Fin.ext hx)))

end Keys

/-! ## What the memory holds before a stage -/

section Stage

variable {NB nROW nCOL m s : Nat} {foldedTwiddles : Bool} {W : Nat → V2s}
  {X : Nat → Nat → Nat → V2s} {mem : FftLoc → V2s} {L L' : Layout NB nCOL m}

/-- The numbers of every transform, and the twiddle factors as far as a stage still needs them. -/
structure Holds (L : Layout NB nCOL m) (nROW : Nat) (foldedTwiddles : Bool) (W : Nat → V2s)
    (X : Nat → Nat → Nat → V2s) (s : Nat) (mem : FftLoc → V2s) : Prop where
  data : ∀ r < nROW, ∀ c < nCOL, ∀ e < 4 ^ m,
    mem (dataBuffer s (L.cell r c e)) = stageData W m X s r c e
  plain : foldedTwiddles = false → HoldsTable W m mem
  folded : foldedTwiddles = true → s < m → ∀ c < nCOL, ∀ k < 3, ∀ x < 4 ^ (m - 1),
    mem (coefBuffer true s (coefCell NB m c k x)) = stageCoef W m s k x

/-! ## Butterflies -/

theorem columnElement_lt (hs : s < m) {i0 q : Nat} (hi0 : i0 < 4 ^ (m - 1)) (hq : q < 4) :
    columnElement (4 ^ (m - 1 - s)) i0 q < 4 ^ m := by
  have hsplit : 4 ^ s * 4 ^ (m - 1 - s) = 4 ^ (m - 1) := by
    rw [← Nat.pow_add]
    congr 1
    omega
  have hmem : columnButterfly (4 ^ (m - 1 - s)) i0 ∈ stageButterflies 4 m s :=
    columnElement_mem (Nat.pow_pos (by decide)) (hsplit.symm ▸ hi0)
  have hlt := element_lt hmem hq
  rwa [stage_length hs] at hlt

theorem stageData_succ (hs : s < m) {r c i0 q : Nat} (hq : q < 4) :
    let n2 := 4 ^ (m - 1 - s)
    let x := fun q => stageData W m X s r c (columnElement n2 i0 q)
    stageData W m X (s + 1) r c (columnElement n2 i0 q) =
      pick q (butterflyAt W m s (i0 % n2) (x 0) (x 1) (x 2) (x 3)) := by
  have hn2 : 0 < 4 ^ (m - 1 - s) := Nat.pow_pos (by decide)
  dsimp only
  unfold stageData
  rw [Nat.min_eq_left hs, Nat.min_eq_left hs.le, fftVector, stageVector]
  rw [butterflyOn_columnElement hn2 hq, wing_columnElement hn2 hq]
  rfl

/-- The keys of a column. -/
def OwnsColumn (m s r c i0 : Nat) : Key nROW nCOL m → Prop
  | .inl key => key.1.val = r ∧ key.2.1.val = c ∧ column (4 ^ (m - 1 - s)) key.2.2 = i0
  | .inr _ => False

theorem radix4Column_scatters (h : Holds L nROW foldedTwiddles W X s mem)
    (hcols : nCOL * 4 ^ (m - 1) ≤ NB) (hs : s < m) {r c i0 : Nat} (hr : r < nROW) (hc : c < nCOL)
    (hi0 : i0 < 4 ^ (m - 1)) {pIn pOut : Nat → FftLoc} {inp out : Nat → Nat}
    (hin : ∀ q < 4, pIn (u32 (inp q * 2)) =
      dataBuffer s (L.cell r c (columnElement (4 ^ (m - 1 - s)) i0 q)))
    (hout : ∀ q < 4, pOut (u32 (out q * 2)) =
      dataBuffer (s + 1) (L'.cell r c (columnElement (4 ^ (m - 1 - s)) i0 q))) :
    (radix4Column (butterflyAt W m s (i0 % 4 ^ (m - 1 - s))) pIn pOut inp out).Scatters
      (StageReads foldedTwiddles s) (keyLoc L' foldedTwiddles s) (keyVal W X s) mem
      (OwnsColumn m s r c i0 : Key nROW nCOL m → Prop) () := by
  have hn2 : 0 < 4 ^ (m - 1 - s) := Nat.pow_pos (by decide)
  have hside := fun key : Key nROW nCOL m => @keyLoc_side NB nROW nCOL m s foldedTwiddles L' key
  have hinj := @keyLoc_injective NB nROW nCOL m s foldedTwiddles L' hcols
  have helement : ∀ {q}, q < 4 → columnElement (4 ^ (m - 1 - s)) i0 q < 4 ^ m := fun hq =>
    columnElement_lt hs hi0 hq
  let key (q : Nat) (hq : q < 4) : Key nROW nCOL m :=
    .inl (⟨r, hr⟩, ⟨c, hc⟩, ⟨columnElement (4 ^ (m - 1 - s)) i0 q, helement hq⟩)
  have hload : ∀ q (hq : q < 4), StageReads foldedTwiddles s (pIn (u32 (inp q * 2))) ∧
      mem (pIn (u32 (inp q * 2))) =
        stageData W m X s r c (columnElement (4 ^ (m - 1 - s)) i0 q) := fun q hq => by
    rw [hin q hq]
    exact ⟨Or.inl ⟨_, rfl⟩, h.data r hr c hc _ (helement hq)⟩
  have hstore : ∀ q (hq : q < 4), pOut (u32 (out q * 2)) =
      keyLoc L' foldedTwiddles s (key q hq) := hout
  have hval : ∀ q (hq : q < 4), pick q (butterflyAt W m s (i0 % 4 ^ (m - 1 - s))
      (mem (pIn (u32 (inp 0 * 2)))) (mem (pIn (u32 (inp 1 * 2)))) (mem (pIn (u32 (inp 2 * 2))))
      (mem (pIn (u32 (inp 3 * 2))))) = keyVal W X s (key q hq) := fun q hq => by
    rw [(hload 0 (by decide)).2, (hload 1 (by decide)).2, (hload 2 (by decide)).2,
      (hload 3 (by decide)).2]
    exact (stageData_succ hs hq).symm
  unfold radix4Column radix4Butterfly
  refine Prog.Scatters.get_bind hside hinj (hload 1 (by decide)).1 ?_
  refine Prog.Scatters.get_bind hside hinj (hload 3 (by decide)).1 ?_
  refine Prog.Scatters.get_bind hside hinj (hload 0 (by decide)).1 ?_
  refine Prog.Scatters.get_bind hside hinj (hload 2 (by decide)).1 ?_
  refine Prog.Scatters.congr (Prog.Scatters.bind hside hinj
    (Prog.Scatters.set (key 0 (by decide)) (hstore 0 (by decide)) (hval 0 (by decide)))
    (Prog.Scatters.bind hside hinj
    (Prog.Scatters.set (key 1 (by decide)) (hstore 1 (by decide)) (hval 1 (by decide)))
    (Prog.Scatters.bind hside hinj
    (Prog.Scatters.set (key 2 (by decide)) (hstore 2 (by decide)) (hval 2 (by decide)))
    (Prog.Scatters.set (key 3 (by decide)) (hstore 3 (by decide)) (hval 3 (by decide)))))) ?_
  have hmine : ∀ q (hq : q < 4), OwnsColumn m s r c i0 (key q hq) := fun q hq =>
    ⟨rfl, rfl, column_columnElement hn2 hq⟩
  have hback : ∀ e, column (4 ^ (m - 1 - s)) e = i0 →
      e = columnElement (4 ^ (m - 1 - s)) i0 (wing (4 ^ (m - 1 - s)) e) := fun e he => by
    rw [← he, columnElement_column hn2]
  intro k
  constructor
  · rintro (rfl | rfl | rfl | rfl)
    · exact hmine 0 (by decide)
    · exact hmine 1 (by decide)
    · exact hmine 2 (by decide)
    · exact hmine 3 (by decide)
  · cases k with
    | inl k =>
        rintro ⟨hr', hc', he⟩
        have hkey : ∀ q (hq : q < 4), wing (4 ^ (m - 1 - s)) k.2.2 = q → Sum.inl k = key q hq :=
          fun q hq hw => congrArg Sum.inl (Prod.ext (Fin.ext hr') (Prod.ext (Fin.ext hc')
            (Fin.ext ((hback _ he).trans (congrArg (columnElement _ i0) hw)))))
        have hwing := @wing_lt_four (4 ^ (m - 1 - s)) k.2.2
        obtain hw | hw | hw | hw : wing (4 ^ (m - 1 - s)) k.2.2 = 0 ∨
            wing (4 ^ (m - 1 - s)) k.2.2 = 1 ∨ wing (4 ^ (m - 1 - s)) k.2.2 = 2 ∨
              wing (4 ^ (m - 1 - s)) k.2.2 = 3 := by omega
        · exact Or.inl (hkey 0 (by decide) hw)
        · exact Or.inr (Or.inl (hkey 1 (by decide) hw))
        · exact Or.inr (Or.inr (Or.inl (hkey 2 (by decide) hw)))
        · exact Or.inr (Or.inr (Or.inr (hkey 3 (by decide) hw)))
    | inr k => exact False.elim

/-! ## Twiddle factors -/

/-- The keys of the twiddle factors of a column in row `k` of the banks. -/
def OwnsFactor (m s c i0 k : Nat) : Key nROW nCOL m → Prop
  | .inl _ => False
  | .inr key => key.1.val = c ∧ key.2.1.val = k ∧ factorColumn (4 ^ (m - 1 - (s + 1))) key.2.2 = i0

/-- They are those of the next stage. -/
theorem stageCoef_succ (hmid : s + 1 < m) {k x : Nat} :
    stageCoef W m (s + 1) k x = stageCoef W m s k (factorColumn (4 ^ (m - 1 - (s + 1))) x) := by
  have hn2 : 4 * 4 ^ (m - 1 - (s + 1)) = 4 ^ (m - 1 - s) := by
    rw [← Nat.pow_succ']
    congr 1
    omega
  obtain ⟨-, hplace, -⟩ := @factorColumn_facts (4 ^ (m - 1 - (s + 1))) x (Nat.pow_pos (by decide))
  rw [stageCoef, stageCoef, ← hn2, hplace, Nat.pow_succ', Nat.mul_assoc]

theorem factorPlace_lt (hmid : s + 1 < m) {i0 t : Nat} (hi0 : i0 < 4 ^ (m - 1)) (ht : t < 4) :
    factorPlace (4 ^ (m - 1 - (s + 1))) i0 + t * 4 ^ (m - 1 - (s + 1)) < 4 ^ (m - 1) := by
  have hn2 : 4 * 4 ^ (m - 1 - (s + 1)) = 4 ^ (m - 1 - s) := by
    rw [← Nat.pow_succ']
    congr 1
    omega
  have hsplit : 4 ^ s * 4 ^ (m - 1 - s) = 4 ^ (m - 1) := by
    rw [← Nat.pow_add]
    congr 1
    omega
  have hpos : 0 < 4 ^ (m - 1 - (s + 1)) := Nat.pow_pos (by decide)
  have hplace : i0 % 4 ^ (m - 1 - s) / 4 < 4 ^ (m - 1 - (s + 1)) :=
    Nat.div_lt_of_lt_mul (hn2 ▸ Nat.mod_lt i0 (by omega))
  have hblock : i0 / 4 ^ (m - 1 - s) < 4 ^ s :=
    Nat.div_lt_of_lt_mul (by rwa [Nat.mul_comm, hsplit])
  have hlt := block_lt hblock (hn2 ▸ wing_lt hplace ht)
  rw [hsplit] at hlt
  rw [factorPlace, hn2]
  omega

theorem storeTwiddlefact_scatters (hcols : nCOL * 4 ^ (m - 1) ≤ NB) (hfit : NB ≤ 2 ^ 28)
    (hmid : s + 1 < m) {c i0 k : Nat} (hc : c < nCOL) (hk : k < 3) (hi0 : i0 < 4 ^ (m - 1))
    (h4 : i0 % 4 = 0) {p : Nat → FftLoc}
    (hp : ∀ i, p i = coefTarget foldedTwiddles s (c * 4 ^ (m - 1) * 2 + i)) :
    (storeTwiddlefact p (stageCoef W m s k i0) (factorPlace (4 ^ (m - 1 - (s + 1))) i0 + k * NB)
      (4 ^ (m - 1 - (s + 1)))).Scatters (StageReads foldedTwiddles s) (keyLoc L' foldedTwiddles s)
        (keyVal W X s) mem (OwnsFactor m s c i0 k : Key nROW nCOL m → Prop) () := by
  have hside := fun key : Key nROW nCOL m => @keyLoc_side NB nROW nCOL m s foldedTwiddles L' key
  have hinj := @keyLoc_injective NB nROW nCOL m s foldedTwiddles L' hcols
  have hplace : ∀ t, t < 4 → factorPlace (4 ^ (m - 1 - (s + 1))) i0 + t * 4 ^ (m - 1 - (s + 1)) <
      4 ^ (m - 1) := fun t ht => factorPlace_lt hmid hi0 ht
  have hpos : 0 < 4 ^ (m - 1 - (s + 1)) := Nat.pow_pos (by decide)
  let key (t : Nat) (ht : t < 4) : Key nROW nCOL m :=
    .inr (⟨c, hc⟩, ⟨k, hk⟩, ⟨factorPlace (4 ^ (m - 1 - (s + 1))) i0 +
      t * 4 ^ (m - 1 - (s + 1)), hplace t ht⟩)
  have hmine : ∀ t (ht : t < 4), OwnsFactor m s c i0 k (key t ht) := fun t ht =>
    ⟨rfl, rfl, factorColumn_place hpos h4 ht⟩
  have hval : ∀ t (ht : t < 4), stageCoef W m s k i0 = keyVal W X s (key t ht) := fun t ht => by
    change _ = stageCoef W m (s + 1) k _
    rw [stageCoef_succ hmid, factorColumn_place hpos h4 ht]
  have hloc : ∀ t (ht : t < 4), p ((factorPlace (4 ^ (m - 1 - (s + 1))) i0 +
      t * 4 ^ (m - 1 - (s + 1)) + k * NB) * 2) = keyLoc L' foldedTwiddles s (key t ht) :=
    fun t ht => hp _
  have hbanks : k * NB ≤ 2 * NB := Nat.mul_le_mul_right NB (Nat.le_of_lt_succ hk)
  have hfits : 4 ^ (m - 1) ≤ NB := (Nat.le_mul_of_pos_left _ (by omega)).trans hcols
  have hstart : p (u32 (2 * (factorPlace (4 ^ (m - 1 - (s + 1))) i0 + k * NB))) =
      keyLoc L' foldedTwiddles s (key 0 (by decide)) := by
    have hlt := hplace 0 (by decide)
    rw [← hloc 0 (by decide), u32_eq (by omega)]
    congr 1
    omega
  have hnext : ∀ t (ht : t < 4), p (u32 (2 * u32 (u32 (4 ^ (m - 1 - (s + 1)) * t) +
      (factorPlace (4 ^ (m - 1 - (s + 1))) i0 + k * NB)))) =
        keyLoc L' foldedTwiddles s (key t ht) := fun t ht => by
    have hlt := hplace t ht
    rw [← hloc t ht, Nat.mul_comm _ t, u32_eq (show t * 4 ^ (m - 1 - (s + 1)) < 2 ^ 32 by omega),
      u32_eq (show t * 4 ^ (m - 1 - (s + 1)) + (factorPlace (4 ^ (m - 1 - (s + 1))) i0 + k * NB) <
        2 ^ 32 by omega), u32_eq (by omega)]
    congr 1
    omega
  unfold storeTwiddlefact
  refine Prog.Scatters.congr (Prog.Scatters.bind hside hinj
    (Prog.Scatters.set (key 0 (by decide)) hstart (hval 0 (by decide)))
    (Prog.Scatters.bind hside hinj
    (Prog.Scatters.set (key 1 (by decide)) (hnext 1 (by decide)) (hval 1 (by decide)))
    (Prog.Scatters.bind hside hinj
    (Prog.Scatters.set (key 2 (by decide)) (hnext 2 (by decide)) (hval 2 (by decide)))
    (Prog.Scatters.set (key 3 (by decide)) (hnext 3 (by decide)) (hval 3 (by decide)))))) ?_
  have hback : ∀ x, factorColumn (4 ^ (m - 1 - (s + 1))) x = i0 →
      x = factorPlace (4 ^ (m - 1 - (s + 1))) i0 +
        x % (4 * 4 ^ (m - 1 - (s + 1))) / 4 ^ (m - 1 - (s + 1)) * 4 ^ (m - 1 - (s + 1)) :=
    fun x hx => by
      rw [← hx]
      exact factorPlace_column hpos
  intro key'
  constructor
  · rintro (rfl | rfl | rfl | rfl)
    · exact hmine 0 (by decide)
    · exact hmine 1 (by decide)
    · exact hmine 2 (by decide)
    · exact hmine 3 (by decide)
  · cases key' with
    | inl key' => exact False.elim
    | inr key' =>
        rintro ⟨hc', hk', hx⟩
        have hturn : key'.2.2.val % (4 * 4 ^ (m - 1 - (s + 1))) / 4 ^ (m - 1 - (s + 1)) < 4 :=
          Nat.div_lt_of_lt_mul (Nat.mul_comm (4 ^ (m - 1 - (s + 1))) 4 ▸ Nat.mod_lt _ (by omega))
        have hplace' := hback _ hx
        generalize key'.2.2.val % (4 * 4 ^ (m - 1 - (s + 1))) / 4 ^ (m - 1 - (s + 1)) = turn
          at hturn hplace'
        have hkey : ∀ t (ht : t < 4), turn = t → Sum.inr key' = key t ht := fun t ht hw =>
          congrArg Sum.inr (Prod.ext (Fin.ext hc') (Prod.ext (Fin.ext hk')
            (Fin.ext (hplace'.trans (congrArg (fun t => factorPlace _ i0 + t * _) hw)))))
        obtain hw | hw | hw | hw : turn = 0 ∨ turn = 1 ∨ turn = 2 ∨ turn = 3 := by omega
        · exact Or.inl (hkey 0 (by decide) hw)
        · exact Or.inr (Or.inl (hkey 1 (by decide) hw))
        · exact Or.inr (Or.inr (Or.inl (hkey 2 (by decide) hw)))
        · exact Or.inr (Or.inr (Or.inr (hkey 3 (by decide) hw)))

/-- The keys of the twiddle factors that a column is the source of. -/
def OwnsFactors (foldedTwiddles : Bool) (m s c i0 : Nat) : Key nROW nCOL m → Prop
  | .inl _ => False
  | .inr key => foldedTwiddles = true ∧ key.1.val = c ∧
      factorColumn (4 ^ (m - 1 - (s + 1))) key.2.2 = i0

theorem stageIndex_lt (hs : s < m) (i0 : Nat) : i0 % 4 ^ (m - 1 - s) * 4 ^ s < 4 ^ (m - 1) := by
  have hplace := Nat.mul_lt_mul_of_pos_right (Nat.mod_lt i0 (Nat.pow_pos (n := m - 1 - s)
    (show 0 < 4 by decide))) (Nat.pow_pos (n := s) (show 0 < 4 by decide))
  rwa [← Nat.pow_add, show m - 1 - s + s = m - 1 by omega] at hplace

/-- The twiddle factors of a column, from the whole table. -/
theorem loadTwiddlefact_plain (h : Holds L nROW false W X s mem) (hcols : nCOL * 4 ^ (m - 1) ≤ NB)
    (hlen : 4 ^ (m - 1) ≤ 2 ^ 28) (hs : s < m) {c i0 icStore n2Store : Nat} {b : Buffers}
    (hsrc : b.pCoefSrc = .coefSrc) :
    (loadStoreTwiddlefact NB false b (i0 % 4 ^ (m - 1 - s) * 4 ^ s) icStore n2Store).Scatters
      (StageReads false s) (keyLoc L' false s) (keyVal W X s) mem
      (OwnsFactors false m s c i0 : Key nROW nCOL m → Prop)
      (twiddlesOf W (i0 % 4 ^ (m - 1 - s) * 4 ^ s)) := by
  have hside := fun key : Key nROW nCOL m => @keyLoc_side NB nROW nCOL m s false L' key
  have hinj := @keyLoc_injective NB nROW nCOL m s false L' hcols
  have hic := stageIndex_lt hs i0
  generalize i0 % 4 ^ (m - 1 - s) * 4 ^ s = ic at hic
  have htable := h.plain rfl
  have h1 : mem (.coefSrc (u32 (2 * ic))) = W ic := by
    rw [u32_eq (by omega)]
    exact htable ic (by omega)
  have h2 : mem (.coefSrc (u32 (2 * u32 (ic * 2)))) = W (2 * ic) := by
    rw [u32_eq (show ic * 2 < 2 ^ 32 by omega), u32_eq (by omega), Nat.mul_comm ic]
    exact htable (2 * ic) (by omega)
  have h3 : mem (.coefSrc (u32 (2 * u32 (ic * 3)))) = W (3 * ic) := by
    rw [u32_eq (show ic * 3 < 2 ^ 32 by omega), u32_eq (by omega), Nat.mul_comm ic]
    exact htable (3 * ic) (by omega)
  have hreads : ∀ i, StageReads false s (.coefSrc i) := fun i => Or.inr ⟨i, rfl⟩
  unfold loadStoreTwiddlefact
  rw [if_neg Bool.false_ne_true, hsrc]
  refine Prog.Scatters.get_bind hside hinj (hreads _) ?_
  refine Prog.Scatters.get_bind hside hinj (hreads _) ?_
  refine Prog.Scatters.get_bind hside hinj (hreads _) ?_
  rw [h1, h2, h3]
  refine (Prog.Scatters.ret _).congr fun key => ⟨False.elim, fun hkey => ?_⟩
  cases key with
  | inl key => exact hkey
  | inr key => exact absurd hkey.1 Bool.false_ne_true

/-- The twiddle factors of a column, from its banks, and those that it is the source of. -/
theorem loadStoreTwiddlefact_folded (h : Holds L nROW true W X s mem)
    (hcols : nCOL * 4 ^ (m - 1) ≤ NB) (hfit : NB ≤ 2 ^ 28) (hmid : s + 1 < m) {c i0 : Nat}
    (hc : c < nCOL) (hi0 : i0 < 4 ^ (m - 1)) {b : Buffers}
    (hsrc : ∀ i, b.pCoefSrc i = coefBuffer true s (c * 4 ^ (m - 1) * 2 + i))
    (hdst : ∀ i, b.pCoefDst i = coefTarget true s (c * 4 ^ (m - 1) * 2 + i)) :
    (loadStoreTwiddlefact NB true b i0 (factorPlace (4 ^ (m - 1 - (s + 1))) i0)
      (4 ^ (m - 1 - (s + 1)))).Scatters (StageReads true s) (keyLoc L' true s) (keyVal W X s) mem
      (OwnsFactors true m s c i0 : Key nROW nCOL m → Prop)
      (twiddlesOf W (i0 % 4 ^ (m - 1 - s) * 4 ^ s)) := by
  have hside := fun key : Key nROW nCOL m => @keyLoc_side NB nROW nCOL m s true L' key
  have hinj := @keyLoc_injective NB nROW nCOL m s true L' hcols
  have hfits : 4 ^ (m - 1) ≤ NB := (Nat.le_mul_of_pos_left _ (by omega)).trans hcols
  have hplace := factorPlace_lt hmid hi0 (show 0 < 4 by decide)
  have hload : ∀ k < 3, StageReads true s (b.pCoefSrc ((i0 + k * NB) * 2)) ∧
      mem (b.pCoefSrc ((i0 + k * NB) * 2)) = stageCoef W m s k i0 := fun k hk => by
    rw [hsrc]
    exact ⟨Or.inr ⟨_, rfl⟩, h.folded rfl (by omega) c hc k hk i0 hi0⟩
  have hw : shuffleTwiddlefact (stageCoef W m s 0 i0) (stageCoef W m s 1 i0)
      (stageCoef W m s 2 i0) = twiddlesOf W (i0 % 4 ^ (m - 1 - s) * 4 ^ s) := by
    unfold stageCoef twiddlesOf
    rw [Nat.zero_add, Nat.one_mul]
  have hi1 : u32 (2 * i0) = (i0 + 0 * NB) * 2 := by rw [u32_eq (by omega)]; omega
  have hi2 : u32 (2 * u32 (i0 + u32 (1 * NB))) = (i0 + 1 * NB) * 2 := by
    rw [u32_eq (show 1 * NB < 2 ^ 32 by omega), u32_eq (show i0 + 1 * NB < 2 ^ 32 by omega),
      u32_eq (by omega), Nat.mul_comm]
  have hi3 : u32 (2 * u32 (i0 + u32 (2 * NB))) = (i0 + 2 * NB) * 2 := by
    rw [u32_eq (show 2 * NB < 2 ^ 32 by omega), u32_eq (show i0 + 2 * NB < 2 ^ 32 by omega),
      u32_eq (by omega), Nat.mul_comm]
  have hs1 : u32 (factorPlace (4 ^ (m - 1 - (s + 1))) i0 + NB) =
      factorPlace (4 ^ (m - 1 - (s + 1))) i0 + 1 * NB := by rw [u32_eq (by omega), Nat.one_mul]
  have hs2 : u32 (factorPlace (4 ^ (m - 1 - (s + 1))) i0 + 1 * NB + NB) =
      factorPlace (4 ^ (m - 1 - (s + 1))) i0 + 2 * NB := by rw [u32_eq (by omega)]; omega
  unfold loadStoreTwiddlefact
  rw [if_pos rfl, hi1, hi2, hi3]
  refine Prog.Scatters.get_bind hside hinj (hload 0 (by decide)).1 ?_
  refine Prog.Scatters.get_bind hside hinj (hload 1 (by decide)).1 ?_
  refine Prog.Scatters.get_bind hside hinj (hload 2 (by decide)).1 ?_
  rw [(hload 0 (by decide)).2, (hload 1 (by decide)).2, (hload 2 (by decide)).2, hw]
  split
  · rename_i h4
    dsimp only
    rw [hs1, hs2]
    have hstore : ∀ k < 3, (storeTwiddlefact b.pCoefDst (stageCoef W m s k i0)
        (factorPlace (4 ^ (m - 1 - (s + 1))) i0 + k * NB) (4 ^ (m - 1 - (s + 1)))).Scatters
          (StageReads true s) (keyLoc L' true s) (keyVal W X s) mem
          (OwnsFactor m s c i0 k : Key nROW nCOL m → Prop) () := fun k hk =>
      storeTwiddlefact_scatters hcols hfit hmid hc hk hi0 h4 hdst
    have hfirst := hstore 0 (by decide)
    rw [Nat.zero_mul, Nat.add_zero] at hfirst
    let w := twiddlesOf W (i0 % 4 ^ (m - 1 - s) * 4 ^ s)
    refine (Prog.Scatters.bind hside hinj hfirst (Prog.Scatters.bind hside hinj
      (hstore 1 (by decide)) (Prog.Scatters.bind (f := fun _ => pure w) hside hinj
        (hstore 2 (by decide)) (Prog.Scatters.ret w)))).congr fun key => ?_
    cases key with
    | inl key => exact ⟨fun hkey => hkey.elim id fun hkey => hkey.elim id fun hkey =>
        hkey.elim id id, fun hkey => Or.inl hkey⟩
    | inr key =>
        constructor
        · rintro (⟨hc', -, hx⟩ | ⟨hc', -, hx⟩ | ⟨hc', -, hx⟩ | hno)
          · exact ⟨rfl, hc', hx⟩
          · exact ⟨rfl, hc', hx⟩
          · exact ⟨rfl, hc', hx⟩
          · exact hno.elim
        · rintro ⟨-, hc', hx⟩
          obtain hk | hk | hk : key.2.1.val = 0 ∨ key.2.1.val = 1 ∨ key.2.1.val = 2 := by omega
          · exact Or.inl ⟨hc', hk, hx⟩
          · exact Or.inr (Or.inl ⟨hc', hk, hx⟩)
          · exact Or.inr (Or.inr (Or.inl ⟨hc', hk, hx⟩))
  · rename_i h4
    refine (Prog.Scatters.ret _).congr fun key => ⟨False.elim, fun hkey => ?_⟩
    cases key with
    | inl key => exact hkey
    | inr key =>
        obtain ⟨-, -, hx⟩ := hkey
        exact h4 (hx ▸ (factorColumn_facts (Nat.pow_pos (by decide))).2.2)

/-! ## The work of a core -/

/-- The keys that a stage stores to. -/
def Active (foldedTwiddles : Bool) (m s : Nat) : Key nROW nCOL m → Prop
  | .inl _ => True
  | .inr _ => foldedTwiddles = true ∧ s + 1 < m

/-- The keys of a column in all rows of transforms. -/
def OwnsTask (foldedTwiddles : Bool) (m s c i0 : Nat) : Key nROW nCOL m → Prop
  | .inl key => key.2.1.val = c ∧ column (4 ^ (m - 1 - s)) key.2.2 = i0
  | .inr key => (foldedTwiddles = true ∧ s + 1 < m) ∧ key.1.val = c ∧
      factorColumn (4 ^ (m - 1 - (s + 1))) key.2.2 = i0

/-- The core that stores to a key: those of a column of transforms have four columns each. -/
def stageOwner (m s : Nat) : Key nROW nCOL m → Nat
  | .inl key => key.2.1 * 4 ^ (m - 2) + column (4 ^ (m - 1 - s)) key.2.2 / 4
  | .inr key => key.1 * 4 ^ (m - 2) + factorColumn (4 ^ (m - 1 - (s + 1))) key.2.2 / 4

theorem factorColumn_lt (hmid : s + 1 < m) {x : Nat} (hx : x < 4 ^ (m - 1)) :
    factorColumn (4 ^ (m - 1 - (s + 1))) x < 4 ^ (m - 1) := by
  have hpos : 0 < 4 ^ (m - 1 - (s + 1)) := Nat.pow_pos (by decide)
  have hsplit : 4 ^ s * (4 * 4 ^ (m - 1 - (s + 1))) = 4 ^ (m - 1) := by
    rw [← Nat.pow_succ', ← Nat.pow_add]
    congr 1
    omega
  have hblock : x / (4 * 4 ^ (m - 1 - (s + 1))) < 4 ^ s :=
    Nat.div_lt_of_lt_mul (by rwa [Nat.mul_comm, hsplit])
  have hplace := Nat.mod_lt x hpos
  have hlt := block_lt hblock (show x % 4 ^ (m - 1 - (s + 1)) * 4 < 4 * 4 ^ (m - 1 - (s + 1)) by
    omega)
  rwa [hsplit] at hlt

theorem sixteenth (hm : 2 ≤ m) : 4 ^ (m - 1) = 4 * 4 ^ (m - 2) := by
  rw [← Nat.pow_succ']
  congr 1
  omega

/-- A column of all rows of transforms, with its twiddle factors. -/
theorem task_scatters (hcols : nCOL * 4 ^ (m - 1) ≤ NB) {c i0 : Nat}
    {load : Prog FftLoc V2s Twiddles} {butterfly : Twiddles → Nat → Prog FftLoc V2s Unit}
    {w : Twiddles} {mem : FftLoc → V2s} (hmid : s + 1 < m)
    (hload : load.Scatters (StageReads foldedTwiddles s) (keyLoc L' foldedTwiddles s)
      (keyVal W X s) mem (OwnsFactors foldedTwiddles m s c i0 : Key nROW nCOL m → Prop) w)
    (hbutterfly : ∀ r < nROW, (butterfly w r).Scatters (StageReads foldedTwiddles s)
      (keyLoc L' foldedTwiddles s) (keyVal W X s) mem
      (OwnsColumn m s r c i0 : Key nROW nCOL m → Prop) ()) :
    (load >>= fun w => Prog.each (butterfly w) (List.range nROW)).Scatters
      (StageReads foldedTwiddles s) (keyLoc L' foldedTwiddles s) (keyVal W X s) mem
      (OwnsTask foldedTwiddles m s c i0 : Key nROW nCOL m → Prop) () := by
  have hside := fun key : Key nROW nCOL m => @keyLoc_side NB nROW nCOL m s foldedTwiddles L' key
  have hinj := @keyLoc_injective NB nROW nCOL m s foldedTwiddles L' hcols
  refine (Prog.Scatters.bind hside hinj hload (Prog.Scatters.each hside hinj fun r hr =>
    hbutterfly r (List.mem_range.mp hr))).congr fun key => ?_
  cases key with
  | inl key =>
      constructor
      · rintro (hno | ⟨r, -, -, hc, hi0⟩)
        · exact hno.elim
        · exact ⟨hc, hi0⟩
      · rintro ⟨hc, hi0⟩
        exact Or.inr ⟨key.1, List.mem_range.mpr key.1.isLt, rfl, hc, hi0⟩
  | inr key =>
      constructor
      · rintro (⟨hf, hc, hx⟩ | ⟨r, -, hno⟩)
        · exact ⟨⟨hf, hmid⟩, hc, hx⟩
        · exact hno.elim
      · rintro ⟨⟨hf, -⟩, hc, hx⟩
        exact Or.inl ⟨hf, hc, hx⟩

/-- The same for the last stage, which has no twiddle factors. -/
theorem lastTask_scatters (hcols : nCOL * 4 ^ (m - 1) ≤ NB) {c i0 : Nat}
    {butterfly : Nat → Prog FftLoc V2s Unit} {mem : FftLoc → V2s} (hlast : ¬s + 1 < m)
    (hbutterfly : ∀ r < nROW, (butterfly r).Scatters (StageReads foldedTwiddles s)
      (keyLoc L' foldedTwiddles s) (keyVal W X s) mem
      (OwnsColumn m s r c i0 : Key nROW nCOL m → Prop) ()) :
    (Prog.each butterfly (List.range nROW)).Scatters
      (StageReads foldedTwiddles s) (keyLoc L' foldedTwiddles s) (keyVal W X s) mem
      (OwnsTask foldedTwiddles m s c i0 : Key nROW nCOL m → Prop) () := by
  have hside := fun key : Key nROW nCOL m => @keyLoc_side NB nROW nCOL m s foldedTwiddles L' key
  have hinj := @keyLoc_injective NB nROW nCOL m s foldedTwiddles L' hcols
  refine (Prog.Scatters.each hside hinj fun r hr =>
    hbutterfly r (List.mem_range.mp hr)).congr fun key => ?_
  cases key with
  | inl key =>
      constructor
      · rintro ⟨r, -, -, hc, hi0⟩
        exact ⟨hc, hi0⟩
      · rintro ⟨hc, hi0⟩
        exact ⟨key.1, List.mem_range.mpr key.1.isLt, rfl, hc, hi0⟩
  | inr key =>
      constructor
      · rintro ⟨r, -, hno⟩
        exact hno.elim
      · rintro ⟨⟨-, hmid⟩, -⟩
        exact (hlast hmid).elim

/-- The four columns of a core. -/
def coreColumns (k : Nat) : List Nat := (List.range 4).map fun t => k * 4 + t * 1

theorem mem_coreColumns {k i0 : Nat} : i0 ∈ coreColumns k ↔ i0 / 4 = k := by
  rw [coreColumns, List.mem_map]
  constructor
  · rintro ⟨t, ht, rfl⟩
    have := List.mem_range.mp ht
    omega
  · intro hi0
    exact ⟨i0 % 4, List.mem_range.mpr (Nat.mod_lt _ (by decide)), by omega⟩

theorem core_scatters (hcols : nCOL * 4 ^ (m - 1) ≤ NB) (hm : 2 ≤ m) {c k : Nat}
    (hk : k < 4 ^ (m - 2)) {task : Nat → Prog FftLoc V2s Unit} {mem : FftLoc → V2s}
    (htask : ∀ i0 < 4 ^ (m - 1), (task i0).Scatters (StageReads foldedTwiddles s)
      (keyLoc L' foldedTwiddles s) (keyVal W X s) mem
      (OwnsTask foldedTwiddles m s c i0 : Key nROW nCOL m → Prop) ()) :
    (Prog.each task (coreColumns k)).Scatters
      (StageReads foldedTwiddles s) (keyLoc L' foldedTwiddles s) (keyVal W X s) mem
      (fun key : Key nROW nCOL m => Active foldedTwiddles m s key ∧
        stageOwner m s key = c * 4 ^ (m - 2) + k) () := by
  have hside := fun key : Key nROW nCOL m => @keyLoc_side NB nROW nCOL m s foldedTwiddles L' key
  have hinj := @keyLoc_injective NB nROW nCOL m s foldedTwiddles L' hcols
  have hquarter := sixteenth hm
  have howner : ∀ {c' i0 : Nat}, i0 < 4 ^ (m - 1) →
      (c' * 4 ^ (m - 2) + i0 / 4 = c * 4 ^ (m - 2) + k ↔ c' = c ∧ i0 / 4 = k) := fun hi0 =>
    ⟨block_inj (by omega) hk, fun h => by rw [h.1, h.2]⟩
  refine (Prog.Scatters.each hside hinj fun i0 hi0 => htask i0 ?_).congr fun key => ?_
  · have := mem_coreColumns.mp hi0
    omega
  · cases key with
    | inl key =>
        have hcolumn := @column_of_stage m key.2.2 (by omega) s key.2.2.isLt
        constructor
        · rintro ⟨i0, hi0, hc, rfl⟩
          exact ⟨trivial, (howner hcolumn).mpr ⟨hc, mem_coreColumns.mp hi0⟩⟩
        · rintro ⟨-, h⟩
          obtain ⟨hc, hi0⟩ := (howner hcolumn).mp h
          exact ⟨_, mem_coreColumns.mpr hi0, hc, rfl⟩
    | inr key =>
        constructor
        · rintro ⟨i0, hi0, hact, hc, rfl⟩
          exact ⟨hact, (howner (factorColumn_lt hact.2 key.2.2.isLt)).mpr
            ⟨hc, mem_coreColumns.mp hi0⟩⟩
        · rintro ⟨hact, h⟩
          obtain ⟨hc, hi0⟩ := (howner (factorColumn_lt hact.2 key.2.2.isLt)).mp h
          exact ⟨_, mem_coreColumns.mpr hi0, hact, hc, rfl⟩

/-- A stage in which every key has its core. -/
theorem Holds.finally {n : Nat} {P : Team FftLoc V2s Unit n → Prop}
    {p K : Fin n → Prog FftLoc V2s Unit} {owner : Key nROW nCOL m → Nat}
    (h : Holds L nROW foldedTwiddles W X s mem) (hcols : nCOL * 4 ^ (m - 1) ≤ NB)
    (howner : ∀ key, Active foldedTwiddles m s key → owner key < n)
    (hp : ∀ core : Fin n, (p core).Scatters (StageReads foldedTwiddles s)
      (keyLoc L' foldedTwiddles s) (keyVal W X s) mem
      (fun key => Active foldedTwiddles m s key ∧ owner key = core) ())
    (hnext : ∀ mem', Holds L' nROW foldedTwiddles W X (s + 1) mem' → Team.Finally P ⟨mem', K⟩) :
    Team.Finally P ⟨mem, fun core => p core >>= fun _ => .barrier (K core)⟩ := by
  refine Team.Finally.scatter (fun key => keyLoc_side L' key) (keyLoc_injective L' hcols) hp
    (fun core core' key hkey hkey' => Fin.ext (hkey.2.symm.trans hkey'.2)) fun mem' hval hframe =>
      hnext mem' ⟨fun r hr c hc e he => ?_, fun hplain i hi => ?_,
        fun hfolded hs c hc k hk x hx => ?_⟩
  · let key : Key nROW nCOL m := .inl (⟨r, hr⟩, ⟨c, hc⟩, ⟨e, he⟩)
    exact hval ⟨owner key, howner key trivial⟩ key ⟨trivial, rfl⟩
  · refine (hframe _ fun core key hkey heq => ?_).trans (h.plain hplain i hi)
    cases key with
    | inl key =>
        have hcoef : coefBuffer false s = .coefSrc := if_neg fun hno => Bool.false_ne_true hno.1
        exact dataBuffer_ne_coef.1 (heq.trans (congrFun hcoef.symm _))
    | inr key => exact absurd (hplain.symm.trans hkey.1.1) Bool.false_ne_true
  · subst hfolded
    let key : Key nROW nCOL m := .inr (⟨c, hc⟩, ⟨k, hk⟩, ⟨x, hx⟩)
    have hact : Active true m s key := ⟨rfl, hs⟩
    rw [← coefTarget_true]
    exact hval ⟨owner key, howner key hact⟩ key ⟨hact, rfl⟩

/-- The owners of a stage are cores. -/
theorem stageOwner_lt (hm : 2 ≤ m) (key : Key nROW nCOL m)
    (hkey : Active foldedTwiddles m s key) : stageOwner m s key < nCOL * 4 ^ (m - 2) := by
  have hquarter := sixteenth hm
  cases key with
  | inl key =>
      have hcolumn := column_of_stage (by omega) s key.2.2.isLt
      exact block_lt key.2.1.isLt (by omega)
  | inr key =>
      have hcolumn := factorColumn_lt hkey.2 key.2.2.isLt
      exact block_lt key.1.isLt (by omega)

end Stage

end TeraNoC.Kernels
