import Mathlib.Data.Set.Function
import TeraNoC.Hw.Remapper

/-!
# The remapper is a rotating permutation

After `t` cycles the select register of a group holds the table it was reset to, read from place
`t` on. The reset table is a permutation, so in every cycle the crossbar of a group sees no
conflict, and a crossbar without conflicts connects each input to its output and nothing else.
In `GroupSize` cycles an input reads every entry of the table once.
-/

namespace TeraNoC.Hw

/-! ## The table -/

/-- The place in the table where output `o` stands. -/
def selPlace (groupSize o : Nat) : Nat := if o % 2 = 0 then o / 2 else (o + groupSize - 1) / 2

section Table

variable {n i o t : Nat} {f : Nat → Nat}

theorem selReset_lt (heven : n % 2 = 0) (hi : i < n) : selReset n i < n := by
  rw [selReset]
  split <;> omega

theorem selPlace_lt (heven : n % 2 = 0) (ho : o < n) : selPlace n o < n := by
  rw [selPlace]
  split <;> omega

theorem selReset_selPlace (heven : n % 2 = 0) (ho : o < n) : selReset n (selPlace n o) = o := by
  rw [selReset, selPlace]
  split <;> split <;> omega

theorem selPlace_selReset (heven : n % 2 = 0) (hi : i < n) : selPlace n (selReset n i) = i := by
  rw [selReset, selPlace]
  split <;> split <;> omega

/-- Turning a table `t` times reads it from place `t` on. -/
theorem selNext_iterate (hn : 0 < n) (hi : i < n) :
    (selNext n)^[t] f i = f ((i + t) % n) := by
  induction t generalizing i with
  | zero => rw [Function.iterate_zero, id, Nat.add_zero, Nat.mod_eq_of_lt hi]
  | succ t ih =>
      rw [Function.iterate_succ_apply', selNext]
      split
      · rename_i hlast
        rw [ih hn, Nat.zero_add, show i + (t + 1) = t + n by omega, Nat.add_mod_right]
      · rw [ih (by omega), show i + 1 + t = i + (t + 1) by omega]

/-- A window of `n` cycles passes every place once. -/
theorem exists_unique_turn (hn : 0 < n) (x : Nat) {a : Nat} (ha : a < n) :
    ∃! d, d < n ∧ (x + d) % n = a := by
  refine ⟨(a + (n - x % n)) % n, ⟨Nat.mod_lt _ hn, ?_⟩, ?_⟩
  · have hx := Nat.mod_lt x hn
    rw [Nat.add_mod_mod, Nat.add_mod, ← Nat.add_mod, ← Nat.mod_add_mod,
      show x % n + (a + (n - x % n)) = a + n by omega, Nat.add_mod_right, Nat.mod_eq_of_lt ha]
  · rintro d ⟨hd, rfl⟩
    have hx := Nat.mod_lt x hn
    have hmod : (x + d) % n = (x % n + d) % n := (Nat.mod_add_mod x n d).symm
    by_cases hwrap : x % n + d < n
    · rw [hmod, Nat.mod_eq_of_lt hwrap, show x % n + d + (n - x % n) = d + n by omega,
        Nat.add_mod_right, Nat.mod_eq_of_lt hd]
    · have hsub : (x % n + d) % n = x % n + d - n := by
        rw [Nat.mod_eq_sub_mod (by omega), Nat.mod_eq_of_lt (by omega)]
      rw [hmod, hsub, show x % n + d - n + (n - x % n) = d by omega, Nat.mod_eq_of_lt hd]

end Table

/-! ## A crossbar without conflicts -/

section Xbar

variable {payload : Type} {n i : Nat} (xbar : StreamXbar payload n) (s : xbar.State)
  {x : XbarIn payload}

theorem StreamXbar.valid_of_injOn (hsel : ∀ i < n, x.sel i < n)
    (hinj : ∀ i < n, ∀ i' < n, x.sel i = x.sel i' → i = i') (hi : i < n) :
    (xbar.out s x).valid (x.sel i) = x.valid i := by
  rw [Bool.eq_iff_iff, xbar.valid_iff s x _ (hsel i hi)]
  constructor
  · rintro ⟨i', hi', hvalid, heq⟩
    rw [hinj i hi i' hi' heq.symm]
    exact hvalid
  · exact fun hvalid => ⟨i, hi, hvalid, rfl⟩

/-- The only input that asks for an output gets it. -/
theorem StreamXbar.granted_of_injOn (hsel : ∀ i < n, x.sel i < n)
    (hinj : ∀ i < n, ∀ i' < n, x.sel i = x.sel i' → i = i') (hi : i < n)
    (hvalid : x.valid i = true) : Granted n x (xbar.out s x) (x.sel i) i := by
  have hout := (xbar.valid_of_injOn s hsel hinj hi).trans hvalid
  obtain ⟨i', hgrant⟩ := xbar.granted s x _ (hsel i hi) hout
  obtain rfl := hinj i hi i' hgrant.lt hgrant.sel.symm
  exact hgrant

end Xbar

/-! ## The groups -/

namespace Remapper

variable {r : Remapper} {inp oup g i j : Nat}

theorem groupSize_pos (r : Remapper) : 0 < r.groupSize := by
  obtain ⟨k, hk⟩ := r.pow
  rw [hk]
  exact Nat.two_pow_pos _

theorem groupSize_even (r : Remapper) : r.groupSize % 2 = 0 := by
  obtain ⟨k, hk⟩ := r.pow
  rw [hk, Nat.pow_succ]
  exact Nat.mul_mod_left _ _

theorem numGroup_mul (r : Remapper) : r.numGroup * r.groupSize = r.numInp :=
  Nat.div_mul_cancel r.dvd

theorem numGroup_pos (hinp : inp < r.numInp) : 0 < r.numGroup := by
  refine Nat.pos_of_ne_zero fun hzero => ?_
  have := r.numGroup_mul
  rw [hzero, Nat.zero_mul] at this
  omega

theorem groupOf_lt (hinp : inp < r.numInp) : r.groupOf inp < r.numGroup := by
  rw [groupOf]
  split
  · exact Nat.mod_lt _ (numGroup_pos hinp)
  · rw [Nat.div_lt_iff_lt_mul r.groupSize_pos, r.numGroup_mul]
    exact hinp

theorem placeOf_lt (hinp : inp < r.numInp) : r.placeOf inp < r.groupSize := by
  rw [placeOf]
  split
  · rw [Nat.div_lt_iff_lt_mul (numGroup_pos hinp), Nat.mul_comm, r.numGroup_mul]
    exact hinp
  · exact Nat.mod_lt _ r.groupSize_pos

/-- The inputs of the groups are the inputs of the module, each once. -/
theorem inpOf_groupOf (r : Remapper) (inp : Nat) :
    r.inpOf (r.groupOf inp) (r.placeOf inp) = inp := by
  rw [inpOf, groupOf, placeOf]
  split
  · exact Nat.mod_add_div' inp r.numGroup
  · exact Nat.div_add_mod' inp r.groupSize

theorem groupOf_inpOf (hg : g < r.numGroup) (hi : i < r.groupSize) :
    r.groupOf (r.inpOf g i) = g ∧ r.placeOf (r.inpOf g i) = i := by
  have hpos : 0 < r.numGroup := by omega
  rw [groupOf, placeOf, inpOf]
  split
  · rw [Nat.add_mul_mod_self_right, Nat.mod_eq_of_lt hg, Nat.add_mul_div_right _ _ hpos,
      Nat.div_eq_of_lt hg, Nat.zero_add]
    exact ⟨rfl, rfl⟩
  · rw [Nat.mul_comm, Nat.mul_add_div r.groupSize_pos, Nat.div_eq_of_lt hi, Nat.add_zero,
      Nat.mul_add_mod, Nat.mod_eq_of_lt hi]
    exact ⟨rfl, rfl⟩

theorem oupOf_lt (hg : g < r.numGroup) (hj : j < r.groupSize) : r.oupOf g j < r.numInp := by
  rw [oupOf, ← r.numGroup_mul]
  calc g * r.groupSize + j < g * r.groupSize + r.groupSize := by omega
    _ = (g + 1) * r.groupSize := by rw [Nat.add_mul, Nat.one_mul]
    _ ≤ r.numGroup * r.groupSize := Nat.mul_le_mul_right _ hg

theorem inpOf_lt (hg : g < r.numGroup) (hi : i < r.groupSize) : r.inpOf g i < r.numInp := by
  rw [inpOf]
  split
  · calc g + i * r.numGroup < r.numGroup + i * r.numGroup := by omega
      _ = (i + 1) * r.numGroup := by rw [Nat.add_mul, Nat.one_mul, Nat.add_comm]
      _ ≤ r.groupSize * r.numGroup := Nat.mul_le_mul_right _ hi
      _ = r.numInp := by rw [Nat.mul_comm, r.numGroup_mul]
  · exact oupOf_lt hg hi

theorem oupOf_div (hj : j < r.groupSize) : r.oupOf g j / r.groupSize = g := by
  rw [oupOf, Nat.mul_comm, Nat.mul_add_div r.groupSize_pos, Nat.div_eq_of_lt hj, Nat.add_zero]

theorem oupOf_mod (hj : j < r.groupSize) : r.oupOf g j % r.groupSize = j := by
  rw [oupOf, Nat.mul_comm, Nat.mul_add_mod, Nat.mod_eq_of_lt hj]

/-! ## The run -/

variable {payload : Type} {xbar : StreamXbar payload r.groupSize} {x : Nat → RemapIn payload}
  {s : RemapState xbar} {y : RemapIn payload} {t : Nat}

theorem selQ_after (x : Nat → RemapIn payload) (t g : Nat) (hi : i < r.groupSize) :
    (r.after xbar x t).selQ g i = selReset r.groupSize ((i + t) % r.groupSize) := by
  have hturn : ∀ t, (r.after xbar x t).selQ g =
      (selNext r.groupSize)^[t] (selReset r.groupSize) := by
    intro t
    induction t with
    | zero => rfl
    | succ t ih =>
        rw [Function.iterate_succ_apply', ← ih]
        rfl
  rw [hturn, selNext_iterate r.groupSize_pos hi]

/-- The select register holds a permutation. -/
structure Permutes (r : Remapper) (sel : Nat → Nat) : Prop where
  lt : ∀ i < r.groupSize, sel i < r.groupSize
  inj : ∀ i < r.groupSize, ∀ i' < r.groupSize, sel i = sel i' → i = i'
  surj : ∀ j < r.groupSize, ∃ i < r.groupSize, sel i = j

theorem permutes_after (x : Nat → RemapIn payload) (t g : Nat) :
    r.Permutes ((r.after xbar x t).selQ g) where
  lt i hi := by
    rw [selQ_after x t g hi]
    exact selReset_lt r.groupSize_even (Nat.mod_lt _ r.groupSize_pos)
  inj i hi i' hi' heq := by
    rw [selQ_after x t g hi, selQ_after x t g hi'] at heq
    have hmod := congrArg (selPlace r.groupSize) heq
    rw [selPlace_selReset r.groupSize_even (Nat.mod_lt _ r.groupSize_pos),
      selPlace_selReset r.groupSize_even (Nat.mod_lt _ r.groupSize_pos), Nat.add_comm i,
      Nat.add_comm i'] at hmod
    exact (exists_unique_turn r.groupSize_pos t (Nat.mod_lt _ r.groupSize_pos)).unique
      ⟨hi, hmod⟩ ⟨hi', rfl⟩
  surj j hj := by
    obtain ⟨i, ⟨hi, hmod⟩, -⟩ := exists_unique_turn r.groupSize_pos t
      (selPlace_lt r.groupSize_even hj)
    refine ⟨i, hi, ?_⟩
    rw [selQ_after x t g hi, Nat.add_comm, hmod, selReset_selPlace r.groupSize_even hj]

theorem connected_lt (hperm : ∀ g, r.Permutes (s.selQ g)) (hinp : inp < r.numInp) :
    connected s inp < r.numInp :=
  oupOf_lt (groupOf_lt hinp) ((hperm _).lt _ (placeOf_lt hinp))

theorem connected_bijOn (hperm : ∀ g, r.Permutes (s.selQ g)) :
    Set.BijOn (connected s) (Set.Iio r.numInp) (Set.Iio r.numInp) := by
  refine ⟨fun inp hinp => connected_lt hperm hinp, fun inp hinp inp' hinp' heq => ?_,
    fun oup houp => ?_⟩
  · rw [Set.mem_Iio] at hinp hinp'
    have hlt := (hperm (r.groupOf inp)).lt _ (placeOf_lt hinp)
    have hlt' := (hperm (r.groupOf inp')).lt _ (placeOf_lt hinp')
    have hgroup : r.groupOf inp = r.groupOf inp' := by
      have := congrArg (· / r.groupSize) heq
      simp only [connected, oupOf_div hlt, oupOf_div hlt'] at this
      exact this
    have hplace : r.placeOf inp = r.placeOf inp' := by
      have := congrArg (· % r.groupSize) heq
      simp only [connected, oupOf_mod hlt, oupOf_mod hlt'] at this
      rw [← hgroup] at this
      exact (hperm _).inj _ (placeOf_lt hinp) _ (placeOf_lt hinp') this
    rw [← r.inpOf_groupOf inp, ← r.inpOf_groupOf inp', hgroup, hplace]
  · rw [Set.mem_Iio] at houp
    have hg : oup / r.groupSize < r.numGroup := by
      rw [Nat.div_lt_iff_lt_mul r.groupSize_pos, r.numGroup_mul]
      exact houp
    obtain ⟨i, hi, hsel⟩ := (hperm (oup / r.groupSize)).surj _ (Nat.mod_lt oup r.groupSize_pos)
    refine ⟨r.inpOf (oup / r.groupSize) i, inpOf_lt hg hi, ?_⟩
    obtain ⟨hgroup, hplace⟩ := groupOf_inpOf hg hi
    rw [connected, hgroup, hplace, hsel]
    exact Nat.div_add_mod' oup r.groupSize

/-- The output of an input shows what the input shows. -/
theorem oupValid_connected (hperm : ∀ g, r.Permutes (s.selQ g)) (hinp : inp < r.numInp) :
    oupValid s y (connected s inp) = y.inpValid inp := by
  have hplace := placeOf_lt hinp
  have hperm := hperm (r.groupOf inp)
  have hlt := hperm.lt _ hplace
  rw [oupValid, connected, oupOf_div hlt, oupOf_mod hlt]
  have hvalid := xbar.valid_of_injOn (s.arb (r.groupOf inp))
    (x := r.xbarIn xbar s y (r.groupOf inp)) hperm.lt hperm.inj hplace
  refine hvalid.trans ?_
  exact congrArg y.inpValid (r.inpOf_groupOf inp)

/-- A valid input is taken exactly when its output is, and its data are what the output shows. -/
theorem granted_connected (hperm : ∀ g, r.Permutes (s.selQ g)) (hinp : inp < r.numInp)
    (hvalid : y.inpValid inp = true) :
    inpReady s y inp = y.oupReady (connected s inp) ∧
      oupData s y (connected s inp) = y.inpData inp := by
  have hplace := placeOf_lt hinp
  have hperm := hperm (r.groupOf inp)
  have hlt := hperm.lt _ hplace
  have hgrant := xbar.granted_of_injOn (s.arb (r.groupOf inp))
    (x := r.xbarIn xbar s y (r.groupOf inp)) hperm.lt hperm.inj hplace
    ((congrArg y.inpValid (r.inpOf_groupOf inp)).trans hvalid)
  refine ⟨hgrant.ready, ?_⟩
  rw [oupData, connected, oupOf_div hlt, oupOf_mod hlt]
  exact hgrant.data.trans (congrArg y.inpData (r.inpOf_groupOf inp))

theorem handshake_iff (hperm : ∀ g, r.Permutes (s.selQ g)) (hinp : inp < r.numInp) :
    OupHandshake s y (connected s inp) ↔ InpHandshake s y inp := by
  rw [OupHandshake, InpHandshake, oupValid_connected hperm hinp]
  constructor
  · rintro ⟨hvalid, hready⟩
    exact ⟨hvalid, (granted_connected hperm hinp hvalid).1.trans hready⟩
  · rintro ⟨hvalid, hready⟩
    exact ⟨hvalid, (granted_connected hperm hinp hvalid).1.symm.trans hready⟩

/-- In a window of `GroupSize` cycles an input meets every output of its group once. -/
theorem connected_turn (x : Nat → RemapIn payload) (t : Nat) (hinp : inp < r.numInp)
    (houp : oup / r.groupSize = r.groupOf inp) :
    ∃! d, d < r.groupSize ∧ connected (r.after xbar x (t + d)) inp = oup := by
  have hplace := placeOf_lt hinp
  have hmod := Nat.mod_lt oup r.groupSize_pos
  have hmeets : ∀ d, connected (r.after xbar x (t + d)) inp = oup ↔
      (r.placeOf inp + t + d) % r.groupSize = selPlace r.groupSize (oup % r.groupSize) := by
    intro d
    rw [connected, selQ_after x _ _ hplace, ← Nat.add_assoc, oupOf, ← houp]
    have hturn := Nat.mod_lt (r.placeOf inp + t + d) r.groupSize_pos
    constructor
    · intro heq
      have hsel : selReset r.groupSize ((r.placeOf inp + t + d) % r.groupSize)
          = oup % r.groupSize := by
        have := Nat.div_add_mod' oup r.groupSize
        omega
      rw [← hsel, selPlace_selReset r.groupSize_even hturn]
    · intro heq
      rw [heq, selReset_selPlace r.groupSize_even hmod]
      exact Nat.div_add_mod' oup r.groupSize
  simp only [hmeets]
  exact exists_unique_turn r.groupSize_pos _ (selPlace_lt r.groupSize_even hmod)

/-- In state `s` the module passes on what it takes, and nothing else. -/
structure Passes (s : RemapState xbar) (y : RemapIn payload) : Prop where
  bijective : Set.BijOn (connected s) (Set.Iio r.numInp) (Set.Iio r.numInp)
  taken : ∀ inp < r.numInp, InpHandshake s y inp →
    OupHandshake s y (connected s inp) ∧ oupData s y (connected s inp) = y.inpData inp
  stems : ∀ oup < r.numInp, OupHandshake s y oup →
    ∃! inp, inp < r.numInp ∧ connected s inp = oup ∧ InpHandshake s y inp

theorem passes_of_permutes (hperm : ∀ g, r.Permutes (s.selQ g)) (y : RemapIn payload) :
    Passes s y where
  bijective := connected_bijOn hperm
  taken inp hinp hhand :=
    ⟨(handshake_iff hperm hinp).mpr hhand, (granted_connected hperm hinp hhand.1).2⟩
  stems oup houp hhand := by
    obtain ⟨inp, hinp, rfl⟩ := (connected_bijOn hperm).surjOn houp
    refine ⟨inp, ⟨hinp, rfl, (handshake_iff hperm hinp).mp hhand⟩, ?_⟩
    rintro inp' ⟨hinp', heq, -⟩
    exact (connected_bijOn hperm).injOn hinp' hinp heq

end Remapper

/-- In every cycle, whatever is presented, the remapper passes flits on through a bijection of
its inputs and outputs; and in any `GroupSize` cycles on end each input is connected once to each
output of its group. -/
theorem floo_remapper_rotates (r : Remapper) {payload : Type}
    (xbar : StreamXbar payload r.groupSize) (x : Nat → RemapIn payload) (t : Nat) :
    (∀ y, Remapper.Passes (r.after xbar x t) y) ∧
      ∀ inp < r.numInp, ∀ oup, oup / r.groupSize = r.groupOf inp →
        ∃! d, d < r.groupSize ∧ Remapper.connected (r.after xbar x (t + d)) inp = oup :=
  ⟨Remapper.passes_of_permutes (Remapper.permutes_after x t),
    fun _ hinp _ houp => Remapper.connected_turn x t hinp houp⟩

/-- A crossbar that prefers the lowest input. -/
def StreamXbar.lowestFirst (n : Nat) : StreamXbar Nat n :=
  let grant (x : XbarIn Nat) (j : Nat) : Option Nat :=
    (List.range n).find? fun i => x.valid i && x.sel i == j
  { State := Unit
    reset := ()
    next := fun _ _ => ()
    out := fun _ x =>
      { data := fun j => ((grant x j).map x.data).getD 0
        valid := fun j => (grant x j).isSome
        ready := fun i => grant x (x.sel i) == some i && x.ready (x.sel i) }
    valid_iff := by
      intro _ x j hj
      simp [grant, List.find?_isSome]
    granted := by
      intro _ x j hj hvalid
      obtain ⟨i, hgrant⟩ := Option.isSome_iff_exists.mp hvalid
      have hfound := List.find?_some hgrant
      rw [Bool.and_eq_true, beq_iff_eq] at hfound
      have hmem := List.mem_range.mp (List.mem_of_find?_eq_some hgrant)
      refine ⟨i, hmem, hfound.1, hfound.2, ?_, ?_, fun i' _ hne _ hsel => ?_⟩
      · simp only [hgrant, Option.map_some, Option.getD_some]
      · simp only [hfound.2, hgrant, BEq.rfl, Bool.true_and]
      · simp only [hsel, hgrant, Option.some_beq_some, beq_eq_false_iff_ne.mpr (Ne.symm hne),
          Bool.false_and] }

theorem four_even_pow : ∃ k, 4 = 2 ^ (k + 1) := ⟨1, rfl⟩

def eightInputs : Remapper where
  numInp := 8
  groupSize := 4
  interleaved := true
  dvd := by decide
  pow := four_even_pow

theorem floo_remapper_rotates_eightInputs :
    ∀ x t, (∀ y, Remapper.Passes (r := eightInputs) (eightInputs.after (.lowestFirst 4) x t) y) ∧
      ∀ inp < 8, ∀ oup, oup / 4 = eightInputs.groupOf inp →
        ∃! d, d < 4 ∧
          Remapper.connected (r := eightInputs) (eightInputs.after (.lowestFirst 4) x (t + d)) inp
            = oup :=
  floo_remapper_rotates eightInputs (.lowestFirst 4)

end TeraNoC.Hw
