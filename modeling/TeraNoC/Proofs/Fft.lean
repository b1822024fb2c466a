import Mathlib.Data.List.ProdSigma
import TeraNoC.Kernels.Fft

/-!
# The parallel transforms

A stage has its butterflies, each a block and a place in the wings of the block. As the wings
get shorter, the cores first share the places and take every block, and then share the blocks
too.
-/

namespace TeraNoC.Kernels

open TeraNoC.Lib TeraNoC.Runtime

/-! ## Who does what -/

/-- The butterflies of a stage with `blocks` blocks, whose wings have `n2` places. -/
def butterflies (blocks n2 : Nat) : List (Nat × Nat) := (List.range blocks) ×ˢ (List.range n2)

theorem mem_butterflies {blocks n2 : Nat} {x : Nat × Nat} :
    x ∈ butterflies blocks n2 ↔ x.1 < blocks ∧ x.2 < n2 := by
  rw [butterflies, List.mem_product, List.mem_range, List.mem_range]

theorem nodup_butterflies (blocks n2 : Nat) : (butterflies blocks n2).Nodup :=
  List.nodup_range.product List.nodup_range

/-- The work of a core in a stage: places, and the blocks that it takes there. -/
abbrev Work := List (Nat × List Nat)

/-- The butterflies of a core. -/
def Work.butterflies (work : Work) : List (Nat × Nat) :=
  work.flatMap fun col => col.2.map fun b => (b, col.1)

/-- The values of `for (i = id * step; i < MIN(id * step + step, total); i++)`. -/
def chunk (total nPE id : Nat) : List Nat :=
  let step := (total + nPE - 1) / nPE
  List.range' (id * step) (min (id * step + step) total - id * step)

section Chunk

variable {total nPE id x : Nat}

theorem ceil_pos (htotal : 0 < total) (hnPE : 0 < nPE) : 0 < (total + nPE - 1) / nPE :=
  Nat.div_pos (by omega) hnPE

theorem le_mul_ceil (total : Nat) (hnPE : 0 < nPE) : total ≤ nPE * ((total + nPE - 1) / nPE) := by
  have hdiv := Nat.div_add_mod (total + nPE - 1) nPE
  have hmod := Nat.mod_lt (total + nPE - 1) hnPE
  omega

theorem mem_chunk (htotal : 0 < total) (hnPE : 0 < nPE) :
    x ∈ chunk total nPE id ↔ x < total ∧ x / ((total + nPE - 1) / nPE) = id := by
  have hstep := ceil_pos htotal hnPE
  rw [chunk, List.mem_range'_1, Nat.div_eq_iff hstep]
  omega

theorem nodup_chunk : (chunk total nPE id).Nodup := List.nodup_range'

theorem chunk_owner (hnPE : 0 < nPE) (hx : x < total) :
    x / ((total + nPE - 1) / nPE) < nPE := by
  have hle := le_mul_ceil total hnPE
  exact (Nat.div_lt_iff_lt_mul (ceil_pos (by omega) hnPE)).mpr (by omega)

end Chunk

section Shares

variable {blocks n2 nPE : Nat}

/-- The first stage has one block. -/
def firstWork (n2 nPE core : Nat) : Work := (chunk n2 nPE core).map fun j => (j, [0])

/-- Every block that the loop of a middle stage gets to. -/
def middleBlocks (blocks n2 nPE core : Nat) : List Nat :=
  (List.range (turns (core / n2) blocks ((nPE + n2 - 1) / n2))).map fun t =>
    core / n2 + t * ((nPE + n2 - 1) / n2)

def middleWork (blocks n2 nPE core : Nat) : Work :=
  (chunk n2 nPE (core % n2)).map fun j => (j, middleBlocks blocks n2 nPE core)

/-- The last stage has one place. -/
def lastWork (blocks nPE core : Nat) : Work := [(0, chunk blocks nPE core)]

theorem firstWork_perm (hn2 : 0 < n2) (hnPE : 0 < nPE) :
    ((List.range nPE).flatMap fun core => (firstWork n2 nPE core).butterflies).Perm
      (butterflies 1 n2) := by
  have hwork : ∀ core, (firstWork n2 nPE core).butterflies =
      (chunk n2 nPE core).map fun j => (0, j) := fun core => by
    rw [firstWork, Work.butterflies, List.flatMap_map, List.map_eq_flatMap]
    rfl
  simp only [hwork]
  refine perm_of_owner (fun x => x.2 / ((n2 + nPE - 1) / nPE)) (nodup_butterflies 1 n2)
    (fun core _ => nodup_chunk.map fun j j' h => (Prod.mk.inj h).2) (fun core _ x => ?_)
    (fun x hx => chunk_owner hnPE (mem_butterflies.mp hx).2)
  rw [mem_butterflies, Nat.lt_one_iff, and_assoc, ← mem_chunk hn2 hnPE, List.mem_map]
  exact ⟨fun ⟨j, hj, heq⟩ => heq ▸ ⟨rfl, hj⟩, fun ⟨hb, hj⟩ => ⟨x.2, hj, Prod.ext hb.symm rfl⟩⟩

theorem lastWork_perm (hblocks : 0 < blocks) (hnPE : 0 < nPE) :
    ((List.range nPE).flatMap fun core => (lastWork blocks nPE core).butterflies).Perm
      (butterflies blocks 1) := by
  have hwork : ∀ core, (lastWork blocks nPE core).butterflies =
      (chunk blocks nPE core).map fun b => (b, 0) := fun core => by
    rw [lastWork, Work.butterflies, List.flatMap_singleton]
  simp only [hwork]
  refine perm_of_owner (fun x => x.1 / ((blocks + nPE - 1) / nPE)) (nodup_butterflies blocks 1)
    (fun core _ => nodup_chunk.map fun b b' h => (Prod.mk.inj h).1) (fun core _ x => ?_)
    (fun x hx => chunk_owner hnPE (mem_butterflies.mp hx).1)
  rw [mem_butterflies, Nat.lt_one_iff, and_right_comm, ← mem_chunk hblocks hnPE, List.mem_map]
  exact ⟨fun ⟨b, hb, heq⟩ => heq ▸ ⟨hb, rfl⟩, fun ⟨hb, hj⟩ => ⟨x.1, hb, Prod.ext rfl hj.symm⟩⟩

theorem mem_middleWork {core : Nat} (hn2 : 0 < n2) (hnPE : 0 < nPE) {x : Nat × Nat} :
    x ∈ (middleWork blocks n2 nPE core).butterflies ↔
      (x.2 < n2 ∧ x.2 / ((n2 + nPE - 1) / nPE) = core % n2) ∧
        x.1 < blocks ∧ core / n2 ≤ x.1 ∧
          x.1 % ((nPE + n2 - 1) / n2) = core / n2 % ((nPE + n2 - 1) / n2) := by
  rw [← mem_chunk hn2 hnPE, ← mem_counter (ceil_pos hnPE hn2), ← middleBlocks, Work.butterflies,
    middleWork, List.flatMap_map, List.mem_flatMap]
  constructor
  · rintro ⟨j, hj, hx⟩
    obtain ⟨b, hb, rfl⟩ := List.mem_map.mp hx
    exact ⟨hj, hb⟩
  · rintro ⟨hj, hb⟩
    exact ⟨x.2, hj, List.mem_map.mpr ⟨x.1, hb, rfl⟩⟩

theorem nodup_middleWork {core : Nat} (hn2 : 0 < n2) (hnPE : 0 < nPE) :
    (middleWork blocks n2 nPE core).butterflies.Nodup := by
  rw [Work.butterflies, middleWork, List.flatMap_map]
  refine List.nodup_flatMap.mpr ⟨fun j _ => ?_, ?_⟩
  · exact (nodup_counter (ceil_pos hnPE hn2)).map fun b b' h => (Prod.mk.inj h).1
  · refine nodup_chunk.imp fun {j j'} hne x hx hx' => hne ?_
    obtain ⟨b, -, rfl⟩ := List.mem_map.mp hx
    obtain ⟨b', -, heq⟩ := List.mem_map.mp hx'
    exact (Prod.mk.inj heq).2.symm

/-- With at most as many cores as places, each core has places of its own and takes all blocks. -/
theorem middleWork_perm_le (hn2 : 0 < n2) (hnPE : 0 < nPE) (hle : nPE ≤ n2) :
    ((List.range nPE).flatMap fun core => (middleWork blocks n2 nPE core).butterflies).Perm
      (butterflies blocks n2) := by
  have hone : (nPE + n2 - 1) / n2 = 1 := Nat.div_eq_of_lt_le (by omega) (by omega)
  refine perm_of_owner (fun x => x.2 / ((n2 + nPE - 1) / nPE)) (nodup_butterflies blocks n2)
    (fun core _ => nodup_middleWork hn2 hnPE) (fun core hcore x => ?_)
    (fun x hx => chunk_owner hnPE (mem_butterflies.mp hx).2)
  rw [mem_middleWork hn2 hnPE, mem_butterflies, hone, Nat.mod_eq_of_lt (show core < n2 by omega),
    Nat.div_eq_of_lt (show core < n2 by omega), Nat.mod_one, Nat.mod_one]
  constructor
  · rintro ⟨⟨hj, howner⟩, hb, -⟩
    exact ⟨⟨hb, hj⟩, howner⟩
  · rintro ⟨⟨hb, hj⟩, howner⟩
    exact ⟨⟨hj, howner⟩, hb, Nat.zero_le _, rfl⟩

/-- Otherwise it has one place, and the cores of a place share its blocks. -/
theorem middleWork_perm_dvd (hn2 : 0 < n2) (hlt : n2 < nPE) (hdvd : n2 ∣ nPE) :
    ((List.range nPE).flatMap fun core => (middleWork blocks n2 nPE core).butterflies).Perm
      (butterflies blocks n2) := by
  obtain ⟨k, rfl⟩ := hdvd
  have hkpos : 0 < k := Nat.pos_of_mul_pos_left (show 0 < n2 * k by omega)
  have hk : (n2 * k + n2 - 1) / n2 = k := by
    refine Nat.div_eq_of_lt_le ?_ ?_
    · rw [Nat.mul_comm]
      omega
    · rw [Nat.succ_mul, Nat.mul_comm]
      omega
  have hone : (n2 + n2 * k - 1) / (n2 * k) = 1 := Nat.div_eq_of_lt_le (by omega) (by omega)
  have howner : ∀ b j, j < n2 → (b % k * n2 + j) % n2 = j ∧ (b % k * n2 + j) / n2 = b % k := by
    intro b j hj
    rw [Nat.mul_comm]
    exact ⟨by rw [Nat.mul_add_mod, Nat.mod_eq_of_lt hj],
      by rw [Nat.mul_add_div hn2, Nat.div_eq_of_lt hj, Nat.add_zero]⟩
  refine perm_of_owner (fun x => x.1 % k * n2 + x.2) (nodup_butterflies blocks n2)
    (fun core _ => nodup_middleWork hn2 (by omega)) (fun core hcore x => ?_) (fun x hx => ?_)
  · have hshare : core / n2 < k := Nat.div_lt_of_lt_mul hcore
    rw [mem_middleWork hn2 (by omega), mem_butterflies, hone, hk, Nat.div_one,
      Nat.mod_eq_of_lt hshare]
    constructor
    · rintro ⟨⟨hj, hmod⟩, hb, -, hdiv⟩
      refine ⟨⟨hb, hj⟩, ?_⟩
      rw [hdiv, hmod, Nat.div_add_mod']
    · rintro ⟨⟨hb, hj⟩, rfl⟩
      obtain ⟨hmod, hdiv⟩ := howner x.1 x.2 hj
      rw [hmod, hdiv]
      exact ⟨⟨hj, rfl⟩, hb, Nat.mod_le x.1 k, rfl⟩
  · have hmul := Nat.mul_le_mul_right n2 (Nat.succ_le_of_lt (Nat.mod_lt x.1 hkpos))
    rw [Nat.succ_mul, Nat.mul_comm k] at hmul
    have := (mem_butterflies.mp hx).2
    omega

end Shares

/-! ## The loops -/

section Loops

variable {W : Type} {twiddles : Nat → Prog FftLoc V2s W}
  {butterfly : W → Nat → Nat → Prog FftLoc V2s Unit} {last : Nat → Nat → Prog FftLoc V2s Unit}
  {fuel nPE core blocks n1 n2 : Nat}

/-- A stage, with the work of a core. -/
def stageOf (twiddles : Nat → Prog FftLoc V2s W)
    (butterfly : W → Nat → Nat → Prog FftLoc V2s Unit) (index : Nat → Nat) (n1 n2 : Nat)
    (work : Work) : Prog FftLoc V2s Unit :=
  Prog.each (fun col => do
    let w ← twiddles (index col.1)
    Prog.each (fun b => butterfly w (b * n1 + col.1) n2) col.2) work

theorem ceilStep_eq {total : Nat} (hnPE : 0 < nPE) (hfit : total + nPE < 2 ^ 32) :
    ceilStep total nPE = (total + nPE - 1) / nPE := by
  rw [ceilStep, u32_eq hfit, sub32_eq (by omega) hfit]

/-- A loop that ignores what it returns. -/
theorem loop_eq (body : Nat → Prog FftLoc V2s Unit) {a b d n : Nat}
    (hlt : ∀ k < n, a + k * d < b) (hge : b ≤ a + n * d) (hwrap : a + n * d < 2 ^ 32)
    (hfuel : n ≤ fuel) :
    (do
      let _ ← Prog.forLoop (fun i => i < b) (fun i => u32 (i + d)) (fun i _ => body i) fuel a ()
      pure ()) = Prog.each body ((List.range n).map fun k => a + k * d) := by
  have hloop : Prog.forLoop (fun i => i < b) (fun i => (i + d) % 2 ^ 32) (fun i _ => body i) fuel a
      () = _ := Prog.forLoop_add hlt hge hwrap hfuel
  change Prog.bind _ _ = _
  rw [show (fun i => u32 (i + d)) = fun i => (i + d) % 2 ^ 32 from rfl, hloop, Prog.bind_assoc]
  exact Prog.bind_ret _

theorem chunkLoop_eq {id total : Nat} {body : Nat → Prog FftLoc V2s Unit}
    (hfit : id * ((total + nPE - 1) / nPE) + (total + nPE - 1) / nPE < 2 ^ 32)
    (htotal : total < 2 ^ 32) (hfuel : total ≤ fuel) :
    chunkLoop fuel id ((total + nPE - 1) / nPE) total body =
      Prog.each body (chunk total nPE id) := by
  unfold chunkLoop chunk
  generalize (total + nPE - 1) / nPE = step at hfit ⊢
  rw [u32_eq (show id * step < 2 ^ 32 by omega), u32_eq hfit]
  rw [loop_eq body (d := 1) (n := min (id * step + step) total - id * step) (fun k hk => by omega)
    (by omega) (by omega) (by omega), List.range'_eq_map_range]
  simp only [Nat.mul_one]

/-- The places of the cores do not wrap. -/
theorem chunk_fits {id total : Nat} (hid : id < nPE) (hfit : total + nPE < 2 ^ 32) :
    id * ((total + nPE - 1) / nPE) + (total + nPE - 1) / nPE < 2 ^ 32 := by
  have hmul := Nat.mul_le_mul_right ((total + nPE - 1) / nPE) (Nat.succ_le_of_lt hid)
  have hdiv := Nat.mul_div_le (total + nPE - 1) nPE
  rw [Nat.succ_mul] at hmul
  omega

theorem firstStage_eq {twid : Nat} (hcore : core < nPE) (hfit : n2 + nPE < 2 ^ 32)
    (hfuel : n2 ≤ fuel) :
    firstStage twiddles butterfly nPE core fuel n2 twid =
      stageOf twiddles butterfly (fun j => u32 (j * twid)) n1 n2 (firstWork n2 nPE core) := by
  unfold firstStage stageOf firstWork
  rw [ceilStep_eq (by omega) (by omega), chunkLoop_eq (chunk_fits hcore hfit) (by omega) hfuel,
    Prog.each_map]
  refine Prog.each_congr fun j _ => congrArg _ (funext fun w => ?_)
  rw [Prog.each_singleton, Nat.zero_mul, Nat.zero_add]

/-- The blocks that a core goes through at a place. -/
theorem blockLoop_eq {body : Nat → Prog FftLoc V2s Unit} {r j : Nat} (hn1 : n1 = r * n2)
    (hn2 : 0 < n2) (hnPE : 0 < nPE) (hcore : core < nPE) (hj : j < n2) (hr : 0 < r)
    (hlen : blocks * n1 ≤ 2 ^ 30) (hblocks : 0 < blocks) (hcores : nPE * r ≤ 2 ^ 30)
    (hfuel : blocks ≤ fuel) :
    (do
      let _ ← Prog.forLoop (fun i0 => i0 < blocks * n1)
        (fun i0 => u32 (i0 + u32 (sub32 (u32 (nPE + n2)) 1 / n2 * n1))) (fun i0 _ => body i0) fuel
        (u32 (u32 (core / n2 * n1) + j)) ()
      pure ()) = Prog.each (fun b => body (b * n1 + j)) (middleBlocks blocks n2 nPE core) := by
  have hn2le : n2 ≤ n1 := hn1 ▸ Nat.le_mul_of_pos_left n2 hr
  have hn1le : n1 ≤ blocks * n1 := Nat.le_mul_of_pos_left n1 hblocks
  have hPEle : nPE ≤ nPE * r := Nat.le_mul_of_pos_right nPE hr
  have hoffset : core / n2 * n1 ≤ nPE * r := by
    rw [hn1, Nat.mul_left_comm, Nat.mul_comm nPE]
    exact Nat.mul_le_mul_left r ((Nat.div_mul_le_self core n2).trans hcore.le)
  have hg : sub32 (u32 (nPE + n2)) 1 / n2 = (nPE + n2 - 1) / n2 := by
    rw [u32_eq (by omega), sub32_eq (by omega) (by omega)]
  have hstride : (nPE + n2 - 1) / n2 * n1 ≤ nPE * r + n1 := by
    have hmul := Nat.mul_le_mul_right r ((Nat.div_mul_le_self (nPE + n2 - 1) n2).trans
      (show nPE + n2 - 1 ≤ nPE + n2 by omega))
    rw [Nat.add_mul, Nat.mul_assoc, Nat.mul_comm n2, ← hn1] at hmul
    exact hmul
  have hgpos := ceil_pos hnPE hn2
  rw [hg, u32_eq (show (nPE + n2 - 1) / n2 * n1 < 2 ^ 32 by omega),
    u32_eq (show core / n2 * n1 < 2 ^ 32 by omega), u32_eq (by omega)]
  unfold middleBlocks
  generalize (nPE + n2 - 1) / n2 = g at hgpos hstride ⊢
  have hplace : ∀ t, core / n2 * n1 + j + t * (g * n1) = (core / n2 + t * g) * n1 + j := fun t => by
    rw [Nat.add_mul, Nat.mul_assoc]
    omega
  have hrow : ∀ b b', b < b' → b * n1 + j < b' * n1 := fun b b' hb => by
    have := Nat.mul_le_mul_right n1 (Nat.succ_le_of_lt hb)
    rw [Nat.succ_mul] at this
    omega
  have hend := turns_lt (a := core / n2) (b := blocks) hgpos
  have hge := le_turns (a := core / n2) (b := blocks) hgpos
  rw [loop_eq body (n := turns (core / n2) blocks g) (fun t ht => ?_) ?_ ?_
    ((turns_le hgpos).trans hfuel), Prog.each_map, Prog.each_map]
  · exact Prog.each_congr fun t _ => by rw [hplace]
  · rw [hplace]
    exact (Nat.mul_le_mul_right n1 hge).trans (Nat.le_add_right _ _)
  · rw [hplace]
    refine (hrow _ _ hend).trans_le ?_
    rw [Nat.max_def]
    split
    · rw [Nat.add_mul]
      omega
    · rw [Nat.succ_mul]
      omega
  · rw [hplace]
    exact hrow _ _ ((lt_turns hgpos).mp ht)

theorem middleStage_eq {r twid : Nat} (hn1 : n1 = r * n2)
    (hn2 : 0 < n2) (hcore : core < nPE) (hr : 0 < r)
    (hlen : blocks * n1 ≤ 2 ^ 30) (hblocks : 0 < blocks) (hcores : nPE * r ≤ 2 ^ 30)
    (hfuel : blocks * n1 ≤ fuel) :
    middleStage twiddles butterfly (blocks * n1) nPE core fuel n1 n2 twid =
      stageOf twiddles butterfly (fun j => u32 (twid * j)) n1 n2
        (middleWork blocks n2 nPE core) := by
  have hn2le : n2 ≤ n1 := hn1 ▸ Nat.le_mul_of_pos_left n2 hr
  have hn1le : n1 ≤ blocks * n1 := Nat.le_mul_of_pos_left n1 hblocks
  have hble : blocks ≤ blocks * n1 := Nat.le_mul_of_pos_right blocks (by omega)
  have hPEle : nPE ≤ nPE * r := Nat.le_mul_of_pos_right nPE hr
  have hmod := Nat.mod_le core n2
  unfold middleStage stageOf middleWork
  dsimp only
  rw [ceilStep_eq (by omega) (by omega), chunkLoop_eq (chunk_fits (by omega) (by omega)) (by omega)
    (by omega), Prog.each_map]
  refine Prog.each_congr fun j hj => congrArg _ (funext fun w => ?_)
  exact blockLoop_eq hn1 hn2 (by omega) hcore ((mem_chunk hn2 (by omega)).mp hj).1 hr hlen hblocks
    hcores (hble.trans hfuel)

theorem lastStage_eq (hn1 : 0 < n1) (hcore : core < nPE) (hlen : blocks * n1 ≤ 2 ^ 30)
    (hcores : nPE * n1 ≤ 2 ^ 30) (hfuel : blocks * n1 ≤ fuel) :
    lastStage last (blocks * n1) nPE core fuel n1 n2 =
      stageOf (fun _ => pure ()) (fun _ => last) id n1 n2 (lastWork blocks nPE core) := by
  have hble : blocks ≤ blocks * n1 := Nat.le_mul_of_pos_right blocks hn1
  have hPEle : nPE ≤ nPE * n1 := Nat.le_mul_of_pos_right nPE hn1
  unfold lastStage stageOf lastWork chunk
  dsimp only
  rw [Nat.mul_div_cancel blocks hn1, ceilStep_eq (by omega) (by omega), Prog.each_singleton]
  have hfits : core * ((blocks + nPE - 1) / nPE) + (blocks + nPE - 1) / nPE < 2 ^ 32 :=
    chunk_fits hcore (by omega)
  have hstep : (core * ((blocks + nPE - 1) / nPE) + (blocks + nPE - 1) / nPE) * n1 ≤
      blocks * n1 + nPE * n1 := by
    have hmul := Nat.mul_le_mul_right ((blocks + nPE - 1) / nPE) (Nat.succ_le_of_lt hcore)
    have hdiv := Nat.mul_div_le (blocks + nPE - 1) nPE
    rw [Nat.succ_mul] at hmul
    rw [← Nat.add_mul]
    exact Nat.mul_le_mul_right n1 (by omega)
  generalize (blocks + nPE - 1) / nPE = step at hfits hstep ⊢
  have hfirst : core * step * n1 ≤ (core * step + step) * n1 :=
    Nat.mul_le_mul_right n1 (Nat.le_add_right _ _)
  rw [u32_eq (show core * step < 2 ^ 32 by omega), u32_eq hfits,
    u32_eq (show (core * step + step) * n1 < 2 ^ 32 by omega),
    u32_eq (show core * step * n1 < 2 ^ 32 by omega), Nat.mul_min_mul_right]
  have hplace : ∀ t, core * step * n1 + t * n1 = (core * step + t) * n1 := fun t =>
    (Nat.add_mul _ _ _).symm
  rw [loop_eq (fun i0 => last i0 n2) (n := min (core * step + step) blocks - core * step)
    (fun t ht => ?_) ?_ ?_ (by omega), List.range'_eq_map_range, Prog.each_map]
  · refine (Prog.each_congr fun t _ => ?_).trans (Prog.each_map _ _ _).symm
    rw [hplace, Nat.add_zero]
  · rw [hplace]
    exact Nat.mul_le_mul_right n1 (by omega)
  · rw [hplace]
    refine (Nat.mul_le_mul_right n1 (show _ ≤ core * step + step by omega)).trans_lt (by omega)
  · rw [hplace]
    exact Nat.mul_lt_mul_of_pos_right (by omega) hn1

end Loops

/-! ## The stages -/

section Stages

variable {W : Type} {log r m twid nPE core fuel : Nat} {twiddles : Nat → Prog FftLoc V2s W}
  {first middle : W → Nat → Nat → Prog FftLoc V2s Unit} {last : Nat → Nat → Prog FftLoc V2s Unit}

/-- Stage `s` of a transform of length `r ^ m`, with the work of a core. -/
def cfftStage (r : Nat) (twiddles : Nat → Prog FftLoc V2s W)
    (first middle : W → Nat → Nat → Prog FftLoc V2s Unit)
    (last : Nat → Nat → Prog FftLoc V2s Unit) (m twid s : Nat) (work : Work) :
    Prog FftLoc V2s Unit :=
  let n2 := r ^ (m - 1 - s)
  if s = 0 then stageOf twiddles first (fun j => u32 (j * r ^ s * twid)) (r * n2) n2 work
  else if s + 1 < m then stageOf twiddles middle (fun j => u32 (j * r ^ s * twid)) (r * n2) n2 work
  else stageOf (fun _ => pure ()) (fun _ => last) id (r * n2) n2 work

/-- The work of a core in stage `s`. -/
def cfftWork (r m nPE s core : Nat) : Work :=
  let n2 := r ^ (m - 1 - s)
  if s = 0 then firstWork n2 nPE core
  else if s + 1 < m then middleWork (r ^ s) n2 nPE core
  else lastWork (r ^ s) nPE core

variable (hr : r = 2 ^ log) (hlen : r ^ m ≤ 2 ^ 30) (hcores : nPE * r ≤ 2 ^ 30)
  (hcore : core < nPE) (hfuel : r ^ m ≤ fuel)

include hr in
theorem shift_pow (d : Nat) : r ^ (d + 1) >>> log = r ^ d := by
  rw [Nat.shiftRight_eq_div_pow, ← hr, Nat.pow_succ,
    Nat.mul_div_cancel _ (hr ▸ Nat.two_pow_pos log)]

include hr hlen hcores hcore hfuel

/-- From stage `s` on, with `d` middle stages to go. -/
theorem stageLoop_eq (first middle : W → Nat → Nat → Prog FftLoc V2s Unit)
    (last : Nat → Nat → Prog FftLoc V2s Unit) (twiddles : Nat → Prog FftLoc V2s W)
    {d s loops : Nat} (hlog : 0 < log) (hm : s + d + 1 = m) (hs : 0 < s)
    (hloops : d ≤ loops) :
    (Prog.forLoop (fun k => 2 ^ log < k) (fun k => k >>> log)
      (fun _ (s : Nat × Nat) => do
        middleStage twiddles middle (r ^ m) nPE core fuel s.1 (s.1 >>> log) s.2
        Prog.wait
        pure (s.1 >>> log, u32 (s.2 <<< log)))
      loops (r ^ (d + 1)) (r ^ (d + 1), u32 (twid * r ^ s)) >>= fun s => do
        lastStage last (r ^ m) nPE core fuel s.2.1 (s.2.1 >>> log)
        Prog.wait) =
    Prog.stages (fun s => cfftStage r twiddles first middle last m twid s (cfftWork r m nPE s core))
      (d + 1) s := by
  have hrpos : 0 < r := hr ▸ Nat.two_pow_pos log
  induction d generalizing s loops with
  | zero =>
      have hpow : r ^ m = r ^ s * r := by rw [← hm, Nat.add_zero, Nat.pow_succ]
      rw [Prog.forLoop_done (decide_eq_false (by rw [← hr, Nat.zero_add, Nat.pow_one]; omega))]
      change (lastStage last (r ^ m) nPE core fuel (r ^ (0 + 1)) (r ^ (0 + 1) >>> log)).bind _ = _
      rw [shift_pow hr, Nat.zero_add, Nat.pow_one, hpow,
        lastStage_eq hrpos hcore (hpow ▸ hlen) hcores (hpow ▸ hfuel)]
      have hn2 : m - 1 - s = 0 := by omega
      rw [Prog.stages, cfftStage, cfftWork, if_neg (by omega), if_neg (by omega), if_neg (by omega),
        if_neg (by omega), hn2, Nat.pow_zero, Nat.mul_one]
      rfl
  | succ d ih =>
      obtain ⟨loops, rfl⟩ : ∃ l, loops = l + 1 := ⟨loops - 1, by omega⟩
      have hr2 : 2 ≤ r := by
        rw [hr]
        exact Nat.le_self_pow hlog.ne' 2
      have hpow : r ^ m = r ^ s * (r * r ^ (d + 1)) := by
        rw [← Nat.pow_succ', ← Nat.pow_add]
        congr 1
        omega
      have hlt : r < r ^ (d + 1 + 1) := by
        have := Nat.pow_lt_pow_right (show 1 < r by omega) (show 1 < d + 1 + 1 by omega)
        rwa [Nat.pow_one] at this
      have hmiddle : middleStage twiddles middle (r ^ m) nPE core fuel (r ^ (d + 1 + 1))
          (r ^ (d + 1)) (u32 (twid * r ^ s)) =
          cfftStage r twiddles first middle last m twid s (cfftWork r m nPE s core) := by
        have hn2 : m - 1 - s = d + 1 := by omega
        have hindex : (fun j => u32 (u32 (twid * r ^ s) * j)) =
          fun j => u32 (j * r ^ s * twid) := by
          funext j
          simp only [u32, Nat.mod_mul_mod]
          rw [Nat.mul_comm, Nat.mul_comm twid, ← Nat.mul_assoc]
        have hmid : s + 1 < m := by omega
        rw [cfftStage, cfftWork, if_neg hs.ne', if_neg hs.ne', if_pos hmid, if_pos hmid, hn2, hpow,
          show r ^ (d + 1 + 1) = r * r ^ (d + 1) from Nat.pow_succ',
          middleStage_eq rfl (Nat.pow_pos hrpos) hcore hrpos (hpow ▸ hlen) (Nat.pow_pos hrpos)
            hcores (hpow ▸ hfuel), hindex]
      have htwid : u32 (u32 (twid * r ^ s) <<< log) = u32 (twid * r ^ (s + 1)) := by
        rw [Nat.shiftLeft_eq, ← hr, u32, u32, Nat.mod_mul_mod, Nat.pow_succ, Nat.mul_assoc]
        rfl
      have hrest := @ih (s + 1) loops (by omega) (Nat.succ_pos s) (by omega)
      rw [Prog.forLoop_turn (decide_eq_true (hr ▸ hlt)), Prog.stages, ← hrest]
      change Prog.bind (Prog.bind (Prog.bind _ _) _) _ = _
      rw [Prog.bind_assoc, Prog.bind_assoc, shift_pow hr, hmiddle, htwid]
      rfl

/-- A kernel is its stages. -/
theorem cfft_eq (hlog : 0 < log) (hm : 2 ≤ m) :
    cfft log twiddles first middle last (r ^ m) twid nPE core fuel =
      Prog.stages (fun s => cfftStage r twiddles first middle last m twid s
        (cfftWork r m nPE s core))
        m 0 := by
  obtain ⟨d, rfl⟩ : ∃ d, m = d + 2 := ⟨m - 2, by omega⟩
  have hrpos : 0 < r := hr ▸ Nat.two_pow_pos log
  have hn2 : r ^ (d + 1) ≤ r ^ (d + 2) := Nat.pow_le_pow_right hrpos (Nat.le_succ _)
  have hdlt : d < r ^ (d + 2) := by
    have := Nat.lt_pow_self (n := d + 2) (show 1 < r by rw [hr]; exact Nat.one_lt_two_pow hlog.ne')
    omega
  have hPE : nPE ≤ nPE * r := Nat.le_mul_of_pos_right nPE hrpos
  have hfirst : firstStage twiddles first nPE core fuel (r ^ (d + 1)) twid =
      cfftStage r twiddles first middle last (d + 2) twid 0 (cfftWork r (d + 2) nPE 0 core) := by
    have hindex : (fun j => u32 (j * r ^ 0 * twid)) = fun j => u32 (j * twid) := by
      funext j
      rw [Nat.pow_zero, Nat.mul_one]
    rw [cfftStage, cfftWork, if_pos rfl, if_pos rfl, hindex]
    exact firstStage_eq hcore (by omega) (by omega)
  have htwid : u32 (twid <<< log) = u32 (twid * r ^ 1) := by
    rw [Nat.shiftLeft_eq, ← hr, Nat.pow_one]
  have hloop := @stageLoop_eq W log r (d + 2) twid nPE core fuel hr hlen hcores hcore hfuel first
    middle last twiddles d 1 fuel hlog (by omega) Nat.one_pos (by omega)
  have hdiv : r ^ (d + 2) / 2 ^ log = r ^ (d + 1) := by
    rw [← Nat.shiftRight_eq_div_pow, shift_pow hr]
  unfold cfft
  rw [Prog.stages, ← hloop, ← hfirst, shift_pow hr, htwid, hdiv]
  rfl

end Stages

/-! ## What a stage touches -/

section Touches

variable {W : Type} {twiddles : Nat → Prog FftLoc V2s W}
  {butterfly : W → Nat → Nat → Prog FftLoc V2s Unit} {index : Nat → Nat} {n1 n2 : Nat}
  {Q : FftLoc → Prop} {T : Nat × Nat → FftLoc → Prop}

/-- One butterfly, with the loads of its twiddle factors. -/
def butterflyOf (twiddles : Nat → Prog FftLoc V2s W)
    (butterfly : W → Nat → Nat → Prog FftLoc V2s Unit) (index : Nat → Nat) (n1 n2 : Nat)
    (x : Nat × Nat) : Prog FftLoc V2s Unit := do
  let w ← twiddles (index x.2)
  butterfly w (x.1 * n1 + x.2) n2

/-- The twiddle factors are loaded from `Q`, where no butterfly `x` stores, which touches `T x`. -/
structure Touches (twiddles : Nat → Prog FftLoc V2s W)
    (butterfly : W → Nat → Nat → Prog FftLoc V2s Unit) (n1 n2 : Nat) (Q : FftLoc → Prop)
    (T : Nat × Nat → FftLoc → Prop) (xs : List (Nat × Nat)) : Prop where
  loads : ∀ ic m, ∃ w, (twiddles ic).Runs Q (fun _ => False) m w m
  butterfly : ∀ x ∈ xs, ∀ w m, ∃ m', (butterfly w (x.1 * n1 + x.2) n2).Runs (T x) (T x) m () m'
  apart : ∀ x ∈ xs, ∀ a, Q a → ¬T x a

variable {xs : List (Nat × Nat)}

theorem Touches.runs (h : Touches twiddles butterfly n1 n2 Q T xs) {x : Nat × Nat} (hx : x ∈ xs)
    (m : FftLoc → V2s) : (butterflyOf twiddles butterfly index n1 n2 x).Runs
      (fun a => Q a ∨ T x a) (T x) m ()
        ((butterflyOf twiddles butterfly index n1 n2 x).after m) := by
  obtain ⟨w, hw⟩ := h.loads (index x.2) m
  obtain ⟨m', hm'⟩ := h.butterfly x hx w m
  have hruns : (butterflyOf twiddles butterfly index n1 n2 x).Runs (fun a => Q a ∨ T x a) (T x) m ()
      m' := (hw.mono (fun _ => Or.inl) (fun _ => False.elim)).bind
    (hm'.mono (fun _ => Or.inr) fun _ => id)
  rwa [hruns.after]

/-- The same twiddle factors for a number of blocks. -/
theorem Touches.blocks_runs (h : Touches twiddles butterfly n1 n2 Q T xs) (index : Nat → Nat)
    {j : Nat} {w : W}
    {bs : List Nat} {m : FftLoc → V2s}
    (hw : (twiddles (index j)).Runs Q (fun _ => False) m w m) (hbs : ∀ b ∈ bs, (b, j) ∈ xs) :
    (Prog.each (fun b => butterfly w (b * n1 + j) n2) bs).Runs
      (fun a => Q a ∨ ∃ x ∈ bs.map (fun b => (b, j)), T x a)
      (fun a => ∃ x ∈ bs.map (fun b => (b, j)), T x a) m ()
      ((bs.map fun b => (b, j)).foldl
        (fun m x => (butterflyOf twiddles butterfly index n1 n2 x).after m) m) := by
  induction bs generalizing m with
  | nil => exact Prog.Runs.ret () m
  | cons b bs ih =>
      have hb := hbs b List.mem_cons_self
      obtain ⟨m', hm'⟩ := h.butterfly (b, j) hb w m
      have hfirst : (butterflyOf twiddles butterfly index n1 n2 (b, j)).after m = m' := by
        have hruns : (butterflyOf twiddles butterfly index n1 n2 (b, j)).Runs
            (fun a => Q a ∨ T (b, j) a) (T (b, j)) m () m' :=
          (hw.mono (fun _ => Or.inl) (fun _ => False.elim)).bind
            (hm'.mono (fun _ => Or.inr) fun _ => id)
        exact hruns.after
      have hw' : (twiddles (index j)).Runs Q (fun _ => False) m' w m' := by
        have hsame : ∀ a, Q a ∨ False → m a = m' a := fun a ha =>
          (hm'.frame (h.apart (b, j) hb a (ha.elim id False.elim))).symm
        have hcongr := (hw.congr hsame).1
        rwa [hcongr.readOnly] at hcongr
      rw [List.map_cons, List.foldl_cons, hfirst]
      refine (hm'.mono (fun a ha => Or.inr ⟨(b, j), List.mem_cons_self, ha⟩)
        fun a ha => ⟨(b, j), List.mem_cons_self, ha⟩).bind ?_
      refine (ih hw' fun b' hb' => hbs b' (List.mem_cons_of_mem b hb')).mono ?_ ?_
      · rintro a (ha | ⟨x, hx, ha⟩)
        · exact Or.inl ha
        · exact Or.inr ⟨x, List.mem_cons_of_mem _ hx, ha⟩
      · rintro a ⟨x, hx, ha⟩
        exact ⟨x, List.mem_cons_of_mem _ hx, ha⟩

/-- The work of a core does the butterflies of the work. -/
theorem Touches.stage_runs (h : Touches twiddles butterfly n1 n2 Q T xs) {work : Work}
    {m : FftLoc → V2s} (hwork : ∀ x ∈ work.butterflies, x ∈ xs) :
    (stageOf twiddles butterfly index n1 n2 work).Runs
      (fun a => Q a ∨ ∃ x ∈ work.butterflies, T x a) (fun a => ∃ x ∈ work.butterflies, T x a) m ()
      (work.butterflies.foldl
        (fun m x => (butterflyOf twiddles butterfly index n1 n2 x).after m) m) := by
  induction work generalizing m with
  | nil => exact Prog.Runs.ret () m
  | cons col work ih =>
      have hsplit : Work.butterflies (col :: work) =
          col.2.map (fun b => (b, col.1)) ++ Work.butterflies work := List.flatMap_cons
      rw [hsplit] at hwork ⊢
      obtain ⟨w, hw⟩ := h.loads (index col.1) m
      have hcol := h.blocks_runs index hw fun b hb =>
        hwork (b, col.1) (List.mem_append_left _ (List.mem_map_of_mem hb))
      have hrest := ih (m := (col.2.map fun b => (b, col.1)).foldl
        (fun m x => (butterflyOf twiddles butterfly index n1 n2 x).after m) m)
        fun x hx => hwork x (List.mem_append_right _ hx)
      rw [List.foldl_append]
      refine Prog.Runs.bind (x := ()) (Prog.Runs.bind (hw.mono (fun _ => Or.inl)
        fun _ => False.elim) (hcol.mono ?_ ?_)) (hrest.mono ?_ ?_)
      · rintro a (ha | ⟨x, hx, ha⟩)
        · exact Or.inl ha
        · exact Or.inr ⟨x, List.mem_append_left _ hx, ha⟩
      · rintro a ⟨x, hx, ha⟩
        exact ⟨x, List.mem_append_left _ hx, ha⟩
      · rintro a (ha | ⟨x, hx, ha⟩)
        · exact Or.inl ha
        · exact Or.inr ⟨x, List.mem_append_right _ hx, ha⟩
      · rintro a ⟨x, hx, ha⟩
        exact ⟨x, List.mem_append_right _ hx, ha⟩

end Touches

end TeraNoC.Kernels
