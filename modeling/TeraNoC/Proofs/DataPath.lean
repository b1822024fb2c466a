import TeraNoC.Dma.DataPath
import TeraNoC.Lib.Lanes
import TeraNoC.Proofs.BurstReshaper

/-!
# The data path moves bytes, not beats

What is between the read and the write side is a stream of bytes (`Holds`): each byte has the
address it is to be written to, and its lane is that address on the bus. A read beat of a burst
puts the bytes of one row of the burst at the end of the stream, after the barrel shifter has
turned the source's lanes into the destination's; a write beat takes the bytes of one row of its
own burst off the front. The masks are made for exactly that (`inMask_eq`, `outMask_eq`), and that
a write beat goes out as soon as its lanes have something is enough for it to carry the right
bytes (`prefix_of_ready`), whatever the bursts on the two sides are.
-/

namespace TeraNoC.Dma

open TeraNoC.Lib

/-! ## The masks of a burst -/

section Masks

variable {S A off len b i : Nat}

theorem rowsAfter_spec (hS : 0 < S) (hlen : 1 ≤ len) :
    ∃ u, 1 ≤ u ∧ u ≤ S ∧ (A + off) % S + len = S * rowsAfter S A off len + u := by
  have hdiv := Nat.div_add_mod ((A + off) % S + len - 1) S
  have hlt := Nat.mod_lt ((A + off) % S + len - 1) hS
  refine ⟨((A + off) % S + len - 1) % S + 1, by omega, by omega, ?_⟩
  rw [rowsAfter]
  omega

theorem firstMask_iff (hS : 0 < S) : (b = 0 → (A + off) % S ≤ i) ↔
    A + off ≤ rowAt S A off b + i := by
  have hrow := @rowAt_eq S A off b
  have hle := Nat.mod_le (A + off) S
  have hlt := Nat.mod_lt (A + off) hS
  cases b with
  | zero => rw [Nat.mul_zero] at hrow; omega
  | succ b => rw [Nat.mul_succ] at hrow; omega

theorem lastMask_iff (hS : 0 < S) (hlen : 1 ≤ len) (hb : b ≤ rowsAfter S A off len) (hi : i < S) :
    ((len + (A + off) % S) % S ≠ 0 → b = rowsAfter S A off len →
      i + (S - (len + (A + off) % S) % S) < S) ↔ rowAt S A off b + i < A + off + len := by
  obtain ⟨u, hu₁, hu₂, hu⟩ := @rowsAfter_spec S A off len hS hlen
  have hrow := @rowAt_eq S A off b
  have hle := Nat.mod_le (A + off) S
  have htail : (len + (A + off) % S) % S = u % S := by
    rw [Nat.add_comm, hu, Nat.mul_add_mod]
  rw [htail]
  rcases Nat.lt_or_ge b (rowsAfter S A off len) with hlt | hge
  · have hmul : S * (b + 1) ≤ S * rowsAfter S A off len := Nat.mul_le_mul_left S hlt
    rw [Nat.mul_succ] at hmul
    constructor
    · intro _
      omega
    · intro _ _ heq
      omega
  · obtain rfl : b = rowsAfter S A off len := Nat.le_antisymm hb hge
    rcases Nat.eq_or_lt_of_le hu₂ with rfl | hult
    · rw [Nat.mod_self]
      constructor
      · intro _
        omega
      · intro _ h
        exact absurd rfl h
    · rw [Nat.mod_eq_of_lt hult]
      constructor
      · intro h
        have := h (by omega) rfl
        omega
      · intro _ _ _
        omega

end Masks

/-! ## The bytes of a row on their lanes -/

section RowLanes

variable {S A D off len b i l : Nat} {v : Nat → DataByte}

/-- The byte with index `k`: where it goes and its value. -/
def byteOf (D : Nat) (v : Nat → DataByte) (k : Nat) : Nat × DataByte := (D + k, v k)

/-- The lane of a byte. -/
abbrev laneOf (S : Nat) (e : Nat × DataByte) : Nat := e.1 % S

theorem eq_of_mod_eq {k k' : Nat} (h : (D + k) % S = (D + k') % S) (h₁ : k < k' + S)
    (h₂ : k' < k + S) : k = k' := by
  have hmod : k ≡ k' [MOD S] := Nat.ModEq.add_left_cancel' D h
  rcases Nat.le_total k k' with hle | hle
  · have hdvd := (Nat.modEq_iff_dvd' hle).1 hmod
    have := Nat.eq_zero_of_dvd_of_lt hdvd (by omega)
    omega
  · have hdvd := (Nat.modEq_iff_dvd' hle).1 hmod.symm
    have := Nat.eq_zero_of_dvd_of_lt hdvd (by omega)
    omega

theorem nodup_lanes (hS : 0 < S) :
    (((rowBeat S A off len b).map (byteOf D v)).map (laneOf S)).Nodup := by
  rw [List.map_map]
  refine List.Nodup.map_on ?_ List.nodup_range'
  intro k hk k' hk' h
  rw [mem_rowBeat hS] at hk hk'
  exact eq_of_mod_eq h (by omega) (by omega)

theorem onLane_row (hS : 0 < S) (hi : i < S) (hlane : ∀ k, (D + k) % S = l ↔ (A + k) % S = i) :
    onLane (laneOf S) l ((rowBeat S A off len b).map (byteOf D v)) =
      if A + off ≤ rowAt S A off b + i ∧ rowAt S A off b + i < A + off + len then
        [byteOf D v (rowAt S A off b + i - A)] else [] := by
  have hrow : ∀ j, (rowAt S A off b + j) % S = j % S := fun j => by
    rw [rowAt, Nat.mul_comm, Nat.mul_add_mod]
  split_ifs with h
  · refine onLane_beat (nodup_lanes hS) (List.mem_map_of_mem ((mem_rowBeat hS).2 (by omega))) ?_
    refine (hlane _).2 ?_
    rw [show A + (rowAt S A off b + i - A) = rowAt S A off b + i by omega, hrow,
      Nat.mod_eq_of_lt hi]
  · refine onLane_eq_nil fun e he hl => h ?_
    obtain ⟨k, hk, rfl⟩ := List.mem_map.1 he
    obtain ⟨hin, hlo, hhi⟩ := (mem_rowBeat hS).1 hk
    have hk := (hlane k).1 hl
    obtain ⟨j, hj⟩ : ∃ j, A + k = rowAt S A off b + j := ⟨A + k - rowAt S A off b, by omega⟩
    rw [hj, hrow, Nat.mod_eq_of_lt (by omega)] at hk
    omega

/-- A row of a burst, as the lanes of the bus have it. -/
theorem rowBeat_eq (hS : 0 < S) : (rowBeat S A off len b).map (A + ·) =
    ((List.range S).filter fun i => decide
      (A + off ≤ rowAt S A off b + i ∧ rowAt S A off b + i < A + off + len)).map
      (rowAt S A off b + ·) := by
  have hrow := @rowAt_eq S A off b
  have hsucc := @rowAt_succ S A off b
  have hle := Nat.mod_le (A + off) S
  have hlt := Nat.mod_lt (A + off) hS
  have hlow : A + rowLow S A off b = max (A + off) (rowAt S A off b) := by
    rw [rowLow]
    omega
  have hhigh : A + rowLow S A off (b + 1) = max (A + off) (rowAt S A off b + S) := by
    rw [rowLow, hsucc]
    omega
  have hbus : ((List.range S).filter fun i => decide
      (A + off ≤ rowAt S A off b + i ∧ rowAt S A off b + i < A + off + len)).map
      (rowAt S A off b + ·) = (List.range' (rowAt S A off b) S).filter fun x =>
        decide (A + off ≤ x ∧ x < A + off + len) := by
    rw [List.range'_eq_map_range, List.filter_map]
    rfl
  rw [rowBeat, List.map_add_range', hbus, ← filter_range' (R := rowAt S A off b) (S := S)
    (by omega) (by omega)]
  refine List.filter_congr fun x hx => ?_
  rw [List.mem_range'_1] at hx
  rw [decide_eq_decide]
  omega

end RowLanes

/-! ## One clock cycle -/

section Cycle

variable {p : ReshaperParams} {depth : Nat} {F : StreamFifo DataByte depth} {q : PathState F}
  {i : PathIn} {A D off len b : Nat} {v : Nat → DataByte}

/-- The queues hold a stream of bytes, each on the lane it is written from. -/
def Holds (p : ReshaperParams) (q : PathState F) (flight : List (Nat × DataByte)) : Prop :=
  ∀ lane < p.strbWidth, F.contents (q.buffer lane) =
    (onLane (laneOf p.strbWidth) lane flight).map Prod.snd

/-- The `b`-th beat of a read burst of the bytes `[off, off + len)` of a transfer from `A` to `D`
is on the bus. -/
structure ReadBeat (p : ReshaperParams) (q : PathState F) (i : PathIn) (A D off len b : Nat)
    (v : Nat → DataByte) : Prop where
  nonempty : 1 ≤ len
  le : b ≤ rowsAfter p.strbWidth A off len
  first : q.isFirstR = decide (b = 0)
  last : i.rLast = decide (b = rowsAfter p.strbWidth A off len)
  offset : i.r.offset = (A + off) % p.strbWidth
  tailer : i.r.tailer = (len + (A + off) % p.strbWidth) % p.strbWidth
  shift : ∀ l < p.strbWidth, ∀ k,
    (D + k) % p.strbWidth = l ↔ (A + k) % p.strbWidth = (l + i.r.shift) % p.strbWidth
  data : ∀ lane < p.strbWidth, A + off ≤ rowAt p.strbWidth A off b + lane →
    i.rData lane = v (rowAt p.strbWidth A off b + lane - A)

/-- The `b`-th beat of a write burst of the bytes `[off, off + len)` of a transfer to `D` is the
next one. -/
structure WriteBeat (p : ReshaperParams) (q : PathState F) (i : PathIn) (D off len b : Nat) :
    Prop where
  nonempty : 1 ≤ len
  le : b ≤ rowsAfter p.strbWidth D off len
  offset : i.w.offset = (D + off) % p.strbWidth
  tailer : i.w.tailer = (len + (D + off) % p.strbWidth) % p.strbWidth
  numBeats : i.w.numBeats.toNat = rowsAfter p.strbWidth D off len
  single : i.w.isSingle = (i.w.numBeats == 0)
  counting : q.wCntValid = decide (b ≠ 0)
  count : b ≠ 0 → q.wNumBeats.toNat = rowsAfter p.strbWidth D off len - b + 1

theorem onLanes_iff {c : Nat → Bool} :
    p.onLanes c = true ↔ ∀ lane < p.strbWidth, c lane = true := by
  simp [ReshaperParams.onLanes]

theorem valid_iff {s : F.State} : F.valid s = true ↔ F.contents s ≠ [] := by
  rw [F.valid_eq, Bool.not_eq_true', List.isEmpty_eq_false_iff]

section Read

variable (h : ReadBeat p q i A D off len b v) (hS : 0 < p.strbWidth)
include h hS

theorem ReadBeat.inMask_eq (lane : Nat) : p.inMask q i lane = decide
    (A + off ≤ rowAt p.strbWidth A off b + (lane + i.r.shift) % p.strbWidth ∧
      rowAt p.strbWidth A off b + (lane + i.r.shift) % p.strbWidth < A + off + len) := by
  have hi := Nat.mod_lt (lane + i.r.shift) hS
  rw [Bool.eq_iff_iff, decide_eq_true_eq, ← firstMask_iff hS,
    ← lastMask_iff hS h.nonempty h.le hi, ← h.tailer, ← h.offset]
  simp only [ReshaperParams.inMask, ReshaperParams.readAlignedInMask, ReshaperParams.rFirstMask,
    ReshaperParams.rLastMask, h.first, h.last, Bool.and_eq_true, Bool.or_eq_true,
    Bool.not_eq_true', decide_eq_true_eq, decide_eq_false_iff_not,
    Bool.and_eq_false_iff, bne_eq_false_iff_eq]
  tauto

/-- What a read beat adds to a lane. -/
theorem ReadBeat.pushed (lane : Nat) (hl : lane < p.strbWidth) :
    (if p.inMask q i lane then [p.bufferIn i lane] else []) =
      (onLane (laneOf p.strbWidth) lane
        ((rowBeat p.strbWidth A off len b).map (byteOf D v))).map Prod.snd := by
  have hi := Nat.mod_lt (lane + i.r.shift) hS
  rw [onLane_row hS hi (h.shift lane hl), h.inMask_eq hS]
  split_ifs with hin hin' hin'
  · rw [ReshaperParams.bufferIn, h.data _ hi hin'.1]
    rfl
  · exact absurd (of_decide_eq_true hin) hin'
  · exact absurd (decide_eq_true hin') hin
  · rfl

end Read

section Write

variable (h : WriteBeat p q i D off len b) (hS : 0 < p.strbWidth)
include h

theorem WriteBeat.single_iff : i.w.isSingle = true ↔ rowsAfter p.strbWidth D off len = 0 := by
  rw [h.single, beq_iff_eq, ← h.numBeats]
  exact ⟨fun h => by rw [h]; rfl, fun h => BitVec.eq_of_toNat_eq h⟩

theorem WriteBeat.isLastW_eq :
    ReshaperParams.isLastW q i = decide (b = rowsAfter p.strbWidth D off len) := by
  have hle := h.le
  rw [ReshaperParams.isLastW]
  split_ifs with hs
  · have := h.single_iff.1 hs
    exact (decide_eq_true (by omega)).symm
  · have hne : rowsAfter p.strbWidth D off len ≠ 0 := fun h₀ => hs (h.single_iff.2 h₀)
    rw [h.counting, Bool.eq_iff_iff, Bool.and_eq_true, decide_eq_true_eq, decide_eq_true_eq,
      beq_iff_eq]
    constructor
    · rintro ⟨hb, h₁⟩
      have := h.count hb
      rw [h₁] at this
      change 1 = _ at this
      omega
    · rintro rfl
      refine ⟨hne, BitVec.eq_of_toNat_eq ?_⟩
      rw [h.count hne]
      change _ = 1
      omega

/-- A first beat that cannot go out does not look like one, but then nothing goes out. -/
theorem WriteBeat.isFirstW_eq (hready : p.readyToWrite q i = true) :
    p.isFirstW q i = decide (b = 0) := by
  have hle := h.le
  by_cases hs : i.w.isSingle = true
  · rw [ReshaperParams.isFirstW, if_pos hs]
    have := h.single_iff.1 hs
    exact (decide_eq_true (by omega)).symm
  · rw [ReshaperParams.isFirstW, if_neg hs, h.counting]
    by_cases hb : b = 0
    · subst hb
      simp only [ne_eq, not_true_eq_false, decide_false, Bool.not_false, Bool.and_true, decide_true]
      -- were the first mask not held, the mask would be full and hold less
      by_contra hfirst
      rw [Bool.not_eq_true] at hfirst
      have hlast : ReshaperParams.isLastW q i = false := by
        rw [ReshaperParams.isLastW, if_neg hs, h.counting]
        rfl
      have hmask : p.outMask q i = fun _ => true := by
        funext lane
        rw [ReshaperParams.outMask, hlast, ReshaperParams.isFirstW, if_neg hs, hfirst]
        simp
      rw [ReshaperParams.readyToWrite, hmask] at hready
      have : p.holds q (ReshaperParams.wFirstMask i) = true := by
        rw [ReshaperParams.holds, Bool.and_eq_true] at hready ⊢
        refine ⟨onLanes_iff.2 fun lane hl => ?_, hready.2⟩
        have hv := onLanes_iff.1 hready.1 lane hl
        simp only [Bool.not_true, Bool.or_false] at hv
        rw [hv]
        rfl
      rw [hfirst] at this
      cases this
    · simp [hb]

include hS

theorem WriteBeat.outMask_of_first (hfirst : p.isFirstW q i = decide (b = 0)) (lane : Nat)
    (hl : lane < p.strbWidth) : p.outMask q i lane = decide
      (D + off ≤ rowAt p.strbWidth D off b + lane ∧
        rowAt p.strbWidth D off b + lane < D + off + len) := by
  rw [Bool.eq_iff_iff, decide_eq_true_eq, ← firstMask_iff hS,
    ← lastMask_iff hS h.nonempty h.le hl, ← h.tailer, ← h.offset]
  simp only [ReshaperParams.outMask, ReshaperParams.wFirstMask, ReshaperParams.wLastMask,
    hfirst, h.isLastW_eq, Bool.and_eq_true, Bool.or_eq_true,
    Bool.not_eq_true', decide_eq_true_eq, decide_eq_false_iff_not,
    Bool.and_eq_false_iff, bne_eq_false_iff_eq]
  tauto

theorem WriteBeat.outMask_eq (hready : p.readyToWrite q i = true) (lane : Nat)
    (hl : lane < p.strbWidth) : p.outMask q i lane = decide
      (D + off ≤ rowAt p.strbWidth D off b + lane ∧
        rowAt p.strbWidth D off b + lane < D + off + len) :=
  h.outMask_of_first hS (h.isFirstW_eq hready) lane hl

theorem WriteBeat.onLane_eq (lane : Nat) (hl : lane < p.strbWidth)
    (hready : p.readyToWrite q i = true) :
    onLane (laneOf p.strbWidth) lane ((rowBeat p.strbWidth D off len b).map (byteOf D v)) =
      if p.outMask q i lane then [byteOf D v (rowAt p.strbWidth D off b + lane - D)] else [] := by
  rw [onLane_row hS hl (fun k => Iff.rfl), h.outMask_eq hS hready lane hl]
  simp only [decide_eq_true_eq]

/-- A write beat that is ready is the front of the stream. -/
theorem WriteBeat.ready_prefix (hready : p.readyToWrite q i = true)
    {flight future rest : List (Nat × DataByte)} (hholds : Holds p q flight)
    (hstream : flight ++ future = (rowBeat p.strbWidth D off len b).map (byteOf D v) ++ rest) :
    (rowBeat p.strbWidth D off len b).map (byteOf D v) <+: flight := by
  refine prefix_of_ready (nodup_lanes hS) hstream fun e he => ?_
  have hl : laneOf p.strbWidth e < p.strbWidth := Nat.mod_lt _ hS
  have hmask : p.outMask q i (laneOf p.strbWidth e) = true := by
    by_contra hno
    have honLane := h.onLane_eq (v := v) hS _ hl hready
    rw [if_neg hno, onLane, List.filter_eq_nil_iff] at honLane
    exact honLane e he (decide_eq_true rfl)
  have hvalid : F.valid (q.buffer (laneOf p.strbWidth e)) = true := by
    have hall := hready
    rw [ReshaperParams.readyToWrite, ReshaperParams.holds, Bool.and_eq_true] at hall
    have := onLanes_iff.1 hall.1 _ hl
    rw [hmask] at this
    simpa using this
  have hcontents := valid_iff.1 hvalid
  rw [hholds _ hl] at hcontents
  exact fun hnil => hcontents (by rw [hnil]; rfl)

/-- A write beat that has arrived is ready. -/
theorem WriteBeat.ready_of_prefix {flight : List (Nat × DataByte)} (hholds : Holds p q flight)
    (hpre : (rowBeat p.strbWidth D off len b).map (byteOf D v) <+: flight) :
    p.readyToWrite q i = true := by
  have hle := h.le
  have hvalid : ∀ lane < p.strbWidth, D + off ≤ rowAt p.strbWidth D off b + lane →
      rowAt p.strbWidth D off b + lane < D + off + len → F.valid (q.buffer lane) = true := by
    intro lane hl hlo hhi
    obtain ⟨later, hlater⟩ := hpre
    rw [valid_iff, hholds lane hl, ← hlater, onLane_append, onLane_row hS hl fun k => Iff.rfl,
      if_pos ⟨hlo, hhi⟩]
    exact List.cons_ne_nil _ _
  have hsome : (!p.onLanes fun lane => !F.valid (q.buffer lane)) = true := by
    obtain ⟨k, hk⟩ := List.exists_mem_of_ne_nil _ (rowBeat_ne_nil hS h.nonempty hle)
    obtain ⟨hin, hlo, hhi⟩ := (mem_rowBeat hS).1 hk
    have hv := hvalid (D + k - rowAt p.strbWidth D off b) (by omega) (by omega) (by omega)
    rw [Bool.not_eq_true', ← Bool.not_eq_true, onLanes_iff]
    intro hall
    have := hall (D + k - rowAt p.strbWidth D off b) (by omega)
    rw [hv] at this
    cases this
  have hfirst : p.isFirstW q i = decide (b = 0) := by
    by_cases hs : i.w.isSingle = true
    · rw [ReshaperParams.isFirstW, if_pos hs]
      have := h.single_iff.1 hs
      exact (decide_eq_true (by omega)).symm
    · rw [ReshaperParams.isFirstW, if_neg hs, h.counting]
      by_cases hb : b = 0
      · have hmore : rowsAfter p.strbWidth D off len ≠ 0 := fun h₀ => hs (h.single_iff.2 h₀)
        have hmask : p.holds q (ReshaperParams.wFirstMask i) = true := by
          rw [ReshaperParams.holds, Bool.and_eq_true]
          refine ⟨onLanes_iff.2 fun lane hl => ?_, hsome⟩
          rw [ReshaperParams.wFirstMask, h.offset, Bool.or_eq_true, Bool.not_eq_true',
            decide_eq_false_iff_not]
          by_cases hlo : (D + off) % p.strbWidth ≤ lane
          · exact .inl (hvalid lane hl ((firstMask_iff hS).1 fun _ => hlo)
              ((lastMask_iff hS h.nonempty hle hl).1 fun _ hend => absurd (hb ▸ hend).symm hmore))
          · exact .inr hlo
        rw [hmask, hb]
        rfl
      · simp [hb]
  rw [ReshaperParams.readyToWrite, ReshaperParams.holds, Bool.and_eq_true]
  refine ⟨onLanes_iff.2 fun lane hl => ?_, hsome⟩
  rw [h.outMask_of_first hS hfirst lane hl, Bool.or_eq_true, Bool.not_eq_true',
    decide_eq_false_iff_not]
  by_cases hin : D + off ≤ rowAt p.strbWidth D off b + lane ∧
      rowAt p.strbWidth D off b + lane < D + off + len
  · exact .inl (hvalid lane hl hin.1 hin.2)
  · exact .inr hin

/-- What a beat that goes out takes off a lane. -/
theorem WriteBeat.popped (hready : p.readyToWrite q i = true)
    {flight : List (Nat × DataByte)}
    (hholds : Holds p q ((rowBeat p.strbWidth D off len b).map (byteOf D v) ++ flight))
    (lane : Nat) (hl : lane < p.strbWidth) :
    (if p.outMask q i lane then (F.contents (q.buffer lane)).tail
      else F.contents (q.buffer lane)) =
        (onLane (laneOf p.strbWidth) lane flight).map Prod.snd := by
  rw [hholds lane hl, onLane_append, h.onLane_eq hS lane hl hready]
  split_ifs
  · rfl
  · rfl

/-- The bytes of a beat that goes out, by address. -/
theorem WriteBeat.beat_eq (hready : p.readyToWrite q i = true) {flight : List (Nat × DataByte)}
    (hholds : Holds p q ((rowBeat p.strbWidth D off len b).map (byteOf D v) ++ flight)) :
    ((List.range p.strbWidth).filter (p.dataPath q i).wStrb).map (fun lane =>
        (rowAt p.strbWidth D off b + lane, (p.dataPath q i).wData lane)) =
      (rowBeat p.strbWidth D off len b).map (byteOf D v) := by
  have hstrb : ∀ lane < p.strbWidth, (p.dataPath q i).wStrb lane = decide
      (D + off ≤ rowAt p.strbWidth D off b + lane ∧
        rowAt p.strbWidth D off b + lane < D + off + len) := by
    intro lane hl
    rw [← h.outMask_eq hS hready lane hl]
    exact Bool.and_eq_right_iff_imp.2 fun _ => hready
  have hrow : (rowBeat p.strbWidth D off len b).map (byteOf D v) =
      ((rowBeat p.strbWidth D off len b).map (D + ·)).map fun x => (x, v (x - D)) := by
    rw [List.map_map]
    refine List.map_congr_left fun k _ => ?_
    rw [byteOf, Function.comp_apply, Nat.add_sub_cancel_left]
  rw [hrow, rowBeat_eq hS, List.map_map, List.filter_congr (q := fun lane => decide
      (D + off ≤ rowAt p.strbWidth D off b + lane ∧
        rowAt p.strbWidth D off b + lane < D + off + len))
    fun lane hl => hstrb lane (List.mem_range.1 hl)]
  refine List.map_congr_left fun lane hlane => ?_
  obtain ⟨hl, hin⟩ := List.mem_filter.1 hlane
  replace hl := List.mem_range.1 hl
  have hmask : p.outMask q i lane = true := (h.outMask_eq hS hready lane hl).trans hin
  have hcontents := hholds lane hl
  rw [onLane_append, h.onLane_eq hS lane hl hready, if_pos hmask] at hcontents
  have hdata := F.data_eq (q.buffer lane) (v (rowAt p.strbWidth D off b + lane - D))
    (by rw [hcontents]; rfl)
  rw [Function.comp_apply, ← hdata]
  refine Prod.ext rfl ?_
  exact if_pos (by rw [hready, hmask]; rfl)

omit hS

/-- The counter after a beat that went out. -/
theorem WriteBeat.count_next (hfire : p.writeHappening q i = true) :
    (p.dataPath q i).next.wCntValid = decide (b ≠ rowsAfter p.strbWidth D off len) ∧
    (b ≠ rowsAfter p.strbWidth D off len → (p.dataPath q i).next.wNumBeats.toNat =
      rowsAfter p.strbWidth D off len - (b + 1) + 1) := by
  have hle := h.le
  have hready : p.readyToWrite q i = true := (Bool.and_eq_true _ _ ▸ hfire).1
  have hfirst := h.isFirstW_eq hready
  have hlast := h.isLastW_eq
  by_cases hs : i.w.isSingle = true
  · have h₀ := h.single_iff.1 hs
    have hb : b = 0 := by omega
    refine ⟨?_, fun hne => absurd (hb.trans h₀.symm) hne⟩
    simp only [ReshaperParams.dataPath, hs, Bool.not_true, Bool.false_and, Bool.false_eq_true,
      if_false]
    rw [h.counting, hb, h₀]
  · have hs' : i.w.isSingle = false := Bool.not_eq_true _ ▸ hs
    by_cases hend : b = rowsAfter p.strbWidth D off len
    · refine ⟨?_, fun hne => absurd hend hne⟩
      simp only [ReshaperParams.dataPath, hs', hfire, hlast, decide_eq_true hend, Bool.not_false,
        Bool.and_self, if_true]
      exact (decide_eq_false (not_not.2 hend)).symm
    · refine ⟨?_, fun _ => ?_⟩
      · simp only [ReshaperParams.dataPath, hs', hfire, hlast, hfirst, decide_eq_false hend,
          Bool.not_false, Bool.true_and, Bool.and_true, Bool.false_eq_true, if_false]
        rw [h.counting]
        by_cases hb : b = 0
        · subst hb
          simp [hend]
        · simp [hb, hend]
      · simp only [ReshaperParams.dataPath, hs', hfire, hfirst, h.counting, Bool.not_false,
          Bool.true_and, Bool.and_true]
        by_cases hb : b = 0
        · subst hb
          simp only [ne_eq, not_true_eq_false, decide_false, Bool.false_eq_true, if_false,
            decide_true, if_true]
          rw [h.numBeats]
          omega
        · simp only [ne_eq, hb, not_false_eq_true, decide_true, if_true]
          have hcount := h.count hb
          rw [BitVec.toNat_sub_of_le (by rw [BitVec.le_def, hcount]; change 1 ≤ _; omega), hcount]
          change _ - 1 = _
          omega

end Write

/-- The read side looks for the first beat of a burst after the last one. -/
theorem ReadBeat.isFirstR_next (h : ReadBeat p q i A D off len b v)
    (hpush : (i.rValid && !p.pathFull q i) = true) : (p.dataPath q i).next.isFirstR =
      decide (b = rowsAfter p.strbWidth A off len) := by
  have hvalid : i.rValid = true := (Bool.and_eq_true _ _ ▸ hpush).1
  have hnext : (p.dataPath q i).next.isFirstR = ReshaperParams.isFirstRd q i := if_pos hpush
  rw [hnext, ReshaperParams.isFirstRd, hvalid, h.last]
  by_cases hb : b = rowsAfter p.strbWidth A off len <;> simp [hb]

/-- A cycle of the data path, on the stream. -/
theorem Holds.next {flight' added : List (Nat × DataByte)}
    (hread : ∀ lane < p.strbWidth,
      (if i.rValid && !p.pathFull q i && p.inMask q i lane then [p.bufferIn i lane] else []) =
        (onLane (laneOf p.strbWidth) lane added).map Prod.snd)
    (hwrite : ∀ lane < p.strbWidth,
      (if p.writeHappening q i && p.outMask q i lane then (F.contents (q.buffer lane)).tail
        else F.contents (q.buffer lane)) =
        (onLane (laneOf p.strbWidth) lane flight').map Prod.snd) :
    Holds p (p.dataPath q i).next (flight' ++ added) := by
  intro lane hl
  have hready : (i.rValid && !p.pathFull q i && p.inMask q i lane) = true →
      F.ready (q.buffer lane) = true := by
    intro hpush
    rw [Bool.and_eq_true, Bool.and_eq_true, ReshaperParams.pathFull, Bool.not_not] at hpush
    have := onLanes_iff.1 hpush.1.2 lane hl
    rw [hpush.2] at this
    simpa using this
  have hpop : (if F.valid (q.buffer lane) && (p.writeHappening q i && p.outMask q i lane) then
      (F.contents (q.buffer lane)).tail else F.contents (q.buffer lane)) =
      if p.writeHappening q i && p.outMask q i lane then (F.contents (q.buffer lane)).tail
        else F.contents (q.buffer lane) := by
    cases hv : F.valid (q.buffer lane) with
    | true => rw [Bool.true_and]
    | false =>
        have hnil : F.contents (q.buffer lane) = [] := by
          rw [F.valid_eq, Bool.not_eq_false', List.isEmpty_iff] at hv
          exact hv
        simp [hnil]
  rw [onLane_append, List.map_append, ← hread lane hl, ← hwrite lane hl]
  refine (F.contents_push (q.buffer lane) _ _ _ hready).trans ?_
  rw [hpop]

end Cycle

end TeraNoC.Dma
