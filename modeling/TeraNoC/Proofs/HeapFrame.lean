import TeraNoC.Proofs.Alloc

/-!
# What a program keeps in its blocks

The allocator looks at no payload and writes none: a store to a live block and a call of
`simple_malloc` can change places (`simpleMalloc_write`). So the pointers that calls return
do not depend on what is stored between them, and a call leaves what is in the live blocks.
-/

namespace TeraNoC.Runtime

open TeraNoC.Lib

/-! ## A store before an allocation -/

namespace Alloc

variable {a : Alloc} {prev q v w w' v' : Nat}

theorem write_comm (h : w ≠ w') : (a.write w v).write w' v' = (a.write w' v').write w v := by
  simp only [write, Function.update_comm h]

theorem setNext_write (h : prev = 0 ∨ w ≠ prev + nextField) :
    (a.write w v).setNext prev q = (a.setNext prev q).write w v := by
  simp only [setNext]
  split
  · exact write_comm (h.resolve_left ‹_›)
  · rfl

theorem write_self : a.write w (a.mem w) = a := by
  rw [write, Function.update_eq_self]

end Alloc

section Payload

variable {R : Region} {s t : Heap} {free : List Nat} {l : Live} {fuel size w v ptr : Nat}

/-- A word that a store may go to is in no free block. -/
theorem HeapInv.not_free (h : HeapInv R s free) (hw : s.valid w = true) {a : Nat} (ha : a ∈ free) :
    ¬ (a ≤ w ∧ w < a + s.alloc.mem a) := fun hin => by
  obtain ⟨l, hl, hword⟩ := List.any_eq_true.mp hw
  obtain ⟨hlo, hhi, -⟩ := of_decide_eq_true hword
  have hok := h.tiled.liveOk l hl
  have hptr := hok.ptr
  have hroom := hok.room
  exact h.tiled.free_live ha hl hin (by omega)

/-- The search and what it does to the block it finds. -/
theorem HeapInv.allocateMemory_write (h : HeapInv R s free) (hfuel : R.size / 8 < fuel)
    (hw : s.valid w = true) {n : Nat} (hn : 8 ∣ n) :
    ∃ b c, s.alloc.allocateMemory fuel n = some (b, c) ∧
      (s.alloc.write w v).allocateMemory fuel n = some (b.write w v, c) ∧ (c = 0 ∨ c ∈ free) := by
  have hout : ∀ a ∈ free, w ≠ a ∧ w ≠ a + nextField := by
    intro a ha
    have hnot := h.not_free hw ha
    have hpos := (h.tiled.freeOk a ha).pos
    have hsize := (h.tiled.freeOk a ha).size
    rw [nextField]
    omega
  obtain ⟨l₁, l₂, hfree, -, hstop, -, -, hwalk⟩ := @walk_eq s.alloc.mem nextField
    s.alloc.firstBlock free (fun curr => s.alloc.mem curr < n) fuel 0 h.list (h.length_lt hfuel)
  have hwalk' : walk (s.alloc.write w v).mem nextField
      (fun curr => (s.alloc.write w v).mem curr < n) fuel s.alloc.firstBlock 0 = _ :=
    walk_congr fuel 0 h.list (fun x hx => Alloc.write_of_ne (hout x hx).2.symm)
      (fun x hx => by rw [Alloc.write_of_ne (hout x hx).1.symm])
  have hprev : lastOr 0 l₁ = 0 ∨ w ≠ lastOr 0 l₁ + nextField := by
    rcases List.eq_nil_or_concat l₁ with rfl | ⟨l, z, rfl⟩
    · exact .inl (lastOr_nil 0)
    · rw [List.concat_eq_append, lastOr_append]
      exact .inr (hout z (by rw [hfree]; simp)).2
  rw [Alloc.allocateMemory, Alloc.allocateMemory, hwalk]
  rw [show walk (s.alloc.write w v).mem nextField _ fuel (s.alloc.write w v).firstBlock 0 = _ from
    hwalk'.trans hwalk]
  cases l₂ with
  | nil => exact ⟨s.alloc, 0, rfl, rfl, .inl rfl⟩
  | cons c l₂ =>
      have hc : c ∈ free := by rw [hfree]; simp
      have hfit : n ≤ s.alloc.mem c := by simpa using hstop c rfl
      have hin := h.tiled.free_inside hc
      have hhi := R.hi_lt
      have hnot := h.not_free hw hc
      have hmem : (s.alloc.write w v).mem c = s.alloc.mem c := Alloc.write_of_ne (hout c hc).1.symm
      have hlink : (s.alloc.write w v).mem (c + nextField) = s.alloc.mem (c + nextField) :=
        Alloc.write_of_ne (hout c hc).2.symm
      have hc0 : c ≠ 0 := by
        have := R.lo_pos
        omega
      by_cases hwhole : s.alloc.mem c = n
      · refine ⟨s.alloc.setNext (lastOr 0 l₁) (s.alloc.mem (c + nextField)), c, ?_, ?_, .inr hc⟩
        · simp only [Option.map_some, List.headD_cons, if_pos hc0, if_pos hwhole]
        · simp only [Option.map_some, List.headD_cons, if_pos hc0, hmem, hlink, if_pos hwhole,
            Alloc.setNext_write hprev]
      · have hsize := (h.tiled.freeOk c hc).size
        have hnew : u32 (c + n) = c + n := u32_eq (by omega)
        have hne : w ≠ c + n ∧ w ≠ c + n + nextField := by
          rw [nextField]
          omega
        have hapart : c + nextField ≠ c + n := by
          rw [nextField]
          omega
        refine ⟨((s.alloc.write (c + n) (sub32 (s.alloc.mem c) n)).write (c + n + nextField)
          (s.alloc.mem (c + nextField))).setNext (lastOr 0 l₁) (c + n), c, ?_, ?_, .inr hc⟩
        · simp only [Option.map_some, List.headD_cons, if_pos hc0, if_neg hwhole, hnew,
            Alloc.write_of_ne hapart]
        · simp only [Option.map_some, List.headD_cons, if_pos hc0, hmem, if_neg hwhole, hnew,
            Alloc.write_comm hne.1, Alloc.write_of_ne (hout c hc).2.symm, Alloc.write_of_ne hapart,
            Alloc.write_comm hne.2, Alloc.setNext_write hprev]

/-- A store to a payload and a call change places. -/
theorem HeapInv.simpleMalloc_write (h : HeapInv R s free) (hfuel : R.size / 8 < fuel)
    (hw : s.valid w = true) :
    (s.write w v).simpleMalloc fuel size =
      (s.simpleMalloc fuel size).map fun (t, ptr) => (t.write w v, ptr) := by
  have hblock : 8 ∣ alignUp (u32 (size + 4)) minBlockSize := by
    rw [alignUp_mod]
    exact Nat.dvd_mul_left 8 _
  rw [Heap.simpleMalloc, Heap.simpleMalloc, Alloc.domainMalloc, Alloc.domainMalloc]
  generalize alignUp (u32 (size + 4)) minBlockSize = n at hblock
  simp only
  split
  · rfl
  · obtain ⟨b, c, hs, ht, hc⟩ := h.allocateMemory_write (v := v) hfuel hw hblock
    rw [show (s.write w v).alloc.allocateMemory fuel n = _ from ht, hs]
    simp only [Option.map_some]
    by_cases hc0 : c = 0
    · rw [if_pos hc0]
      simp only [if_pos hc0]
      rfl
    · have hcw : w ≠ c := by
        have hmem := hc.resolve_left hc0
        have hnot := h.not_free hw hmem
        have hpos := (h.tiled.freeOk c hmem).pos
        omega
      simp only [if_neg hc0, Alloc.write_comm hcw]
      rfl

/-- A call leaves what is in the live blocks. -/
theorem HeapInv.simpleMalloc (h : HeapInv R s free) (hfuel : R.size / 8 < fuel)
    (hsize : size + 11 < 2 ^ 32) :
    ∃ t ptr, s.simpleMalloc fuel size = some (t, ptr) ∧ (∃ free', HeapInv R t free') ∧
      t.live = (if ptr = 0 then s.live else ⟨ptr, size⟩ :: s.live) ∧
      ∀ w, s.valid w = true → t.alloc.mem w = s.alloc.mem w := by
  obtain ⟨t, hstep, free', ht⟩ := h.malloc hfuel hsize
  rw [Heap.step] at hstep
  obtain ⟨⟨a, ptr⟩, hmalloc, rfl⟩ := Option.map_eq_some_iff.mp hstep
  have hcall : s.simpleMalloc fuel size =
      some (⟨a, if ptr = 0 then s.live else ⟨ptr, size⟩ :: s.live⟩, ptr) := by
    rw [Heap.simpleMalloc, hmalloc]
    rfl
  refine ⟨_, ptr, hcall, ⟨free', ht⟩, rfl, fun w hw => ?_⟩
  -- storing what is there already changes nothing, before the call and after it
  have hsame : (s.write w (s.alloc.mem w)).simpleMalloc fuel size = _ :=
    h.simpleMalloc_write hfuel hw
  rw [Heap.write, Alloc.write_self, hcall] at hsame
  have hafter := congrArg (fun t => t.alloc.mem w) (Prod.mk.inj (Option.some.inj hsame)).1
  exact hafter.trans Alloc.write_same

theorem Heap.valid_mono (hsub : s.live ⊆ t.live) (hw : s.valid w = true) : t.valid w = true := by
  obtain ⟨l, hl, hword⟩ := List.any_eq_true.mp hw
  exact List.any_eq_true.mpr ⟨l, hsub hl, hword⟩

/-- The pointers of later calls do not depend on the store. -/
theorem HeapInv.mallocs_write (h : HeapInv R s free) (hfuel : R.size / 8 < fuel)
    (hw : s.valid w = true) {sizes : List Nat} (hsizes : ∀ size ∈ sizes, size + 11 < 2 ^ 32) :
    (s.write w v).mallocs fuel sizes = s.mallocs fuel sizes := by
  induction sizes generalizing s free with
  | nil => rfl
  | cons size sizes ih =>
      obtain ⟨t, ptr, hcall, ⟨free', ht⟩, hlive, -⟩ := h.simpleMalloc hfuel (hsizes size (by simp))
      have hsub : s.live ⊆ t.live := by
        rw [hlive]
        split
        · exact List.Subset.refl _
        · exact List.subset_cons_self _ _
      rw [Heap.mallocs, Heap.mallocs, h.simpleMalloc_write hfuel hw, hcall]
      simp only [Option.map_some, Option.bind_some]
      rw [ih ht (Heap.valid_mono hsub hw) fun size hmem =>
        hsizes size (List.mem_cons_of_mem _ hmem)]

/-! ## Stores to one block -/

/-- A word of a live block is where the pointer arithmetic says. -/
theorem HeapInv.word (h : HeapInv R s free) (hl : l ∈ s.live) {i : Nat} (hi : 4 * i + 4 ≤ l.size) :
    u32 (l.ptr + 4 * i) = l.ptr + 4 * i ∧ s.valid (l.ptr + 4 * i) = true := by
  have hok := h.tiled.liveOk l hl
  have hptr := hok.ptr
  have hroom := hok.room
  have hin := h.tiled.live_inside hl
  have hhi := R.hi_lt
  exact ⟨u32_eq (by omega), List.any_eq_true.mpr ⟨l, hl, decide_eq_true (by omega)⟩⟩

/-- `t` is what stores to the payload of `l` have made of `s`. -/
structure Wrote (R : Region) (fuel : Nat) (l : Live) (s t : Heap) : Prop where
  inv : ∃ free, HeapInv R t free
  live : t.live = s.live
  outside : ∀ w, ¬ (l.ptr ≤ w ∧ w < l.ptr + l.size) → t.alloc.mem w = s.alloc.mem w
  mallocs : ∀ sizes : List Nat, (∀ size ∈ sizes, size + 11 < 2 ^ 32) →
    t.mallocs fuel sizes = s.mallocs fuel sizes

theorem HeapInv.wrote (h : HeapInv R s free) : Wrote R fuel l s s :=
  ⟨⟨free, h⟩, rfl, fun _ _ => rfl, fun _ _ => rfl⟩

theorem Wrote.trans {u : Heap} (h : Wrote R fuel l s t) (h' : Wrote R fuel l t u) :
    Wrote R fuel l s u where
  inv := h'.inv
  live := h'.live.trans h.live
  outside w hw := (h'.outside w hw).trans (h.outside w hw)
  mallocs sizes hsizes := (h'.mallocs sizes hsizes).trans (h.mallocs sizes hsizes)

/-- A store to word `i` of the block goes through. -/
theorem HeapInv.store_word (h : HeapInv R s free) (hfuel : R.size / 8 < fuel) (hl : l ∈ s.live)
    {i : Nat} (hi : 4 * i + 4 ≤ l.size) (v : Nat) :
    s.store (u32 (l.ptr + 4 * i)) v = some (s.write (l.ptr + 4 * i) v) ∧
      Wrote R fuel l s (s.write (l.ptr + 4 * i) v) := by
  obtain ⟨hword, hvalid⟩ := h.word hl hi
  rw [Heap.store, hword, if_pos hvalid]
  refine ⟨rfl, ⟨free, h.write hl (by omega) (by omega) v⟩, rfl, fun w hw => ?_,
    fun sizes hsizes => h.mallocs_write hfuel hvalid hsizes⟩
  exact Alloc.write_of_ne (by omega)

/-! ## More blocks -/

/-- The calls are served: none of them returns NULL. -/
def Heap.Serves (s : Heap) (fuel : Nat) (sizes : List Nat) : Prop :=
  (∀ size ∈ sizes, size + 11 < 2 ^ 32) ∧ ∃ ptrs, s.mallocs fuel sizes = some ptrs ∧ 0 ∉ ptrs

/-- `t` has the blocks of `s`, with what is in them, and new ones. -/
structure Extends (R : Region) (s t : Heap) (new : List Live) : Prop where
  inv : ∃ free, HeapInv R t free
  live : t.live = new ++ s.live
  kept : ∀ w, s.valid w = true → t.alloc.mem w = s.alloc.mem w

theorem Extends.valid {new : List Live} (h : Extends R s t new) (hw : s.valid w = true) :
    t.valid w = true :=
  Heap.valid_mono (by rw [h.live]; exact List.subset_append_right _ _) hw

theorem Extends.trans {u : Heap} {new new' : List Live} (h : Extends R s t new)
    (h' : Extends R t u new') : Extends R s u (new' ++ new) where
  inv := h'.inv
  live := by rw [h'.live, h.live, List.append_assoc]
  kept w hw := (h'.kept w (h.valid hw)).trans (h.kept w hw)

/-- Stores to a new block leave the ones before. -/
theorem Extends.wrote {u : Heap} {new : List Live} (h : Extends R s t new) (hl : l ∈ new)
    (h' : Wrote R fuel l t u) : Extends R s u new := by
  refine ⟨h'.inv, h'.live.trans h.live, fun w hw => ?_⟩
  obtain ⟨free, ht⟩ := h.inv
  obtain ⟨l', hl', hword⟩ := List.any_eq_true.mp hw
  obtain ⟨hlo, hhi, -⟩ := of_decide_eq_true hword
  have hapart := ht.live_apart
  rw [h.live] at hapart
  have hother := (List.pairwise_append.mp hapart).2.2 l hl l' hl' w
  refine (h'.outside w fun hin => ?_).trans (h.kept w hw)
  exact hother (by omega) hin.2 (by omega) (by omega)

theorem Wrote.serves {sizes : List Nat} (h : Wrote R fuel l s t) (hs : s.Serves fuel sizes) :
    t.Serves fuel sizes := by
  refine ⟨hs.1, ?_⟩
  rw [h.mallocs sizes hs.1]
  exact hs.2

/-- The first of the calls. -/
theorem Heap.Serves.malloc {sizes : List Nat} (hs : s.Serves fuel (size :: sizes))
    (h : HeapInv R s free) (hfuel : R.size / 8 < fuel) :
    ∃ t ptr, s.simpleMalloc fuel size = some (t, ptr) ∧ Extends R s t [⟨ptr, size⟩] ∧
      t.Serves fuel sizes := by
  obtain ⟨hsizes, ptrs, hptrs, hnull⟩ := hs
  obtain ⟨t, ptr, hcall, ht, hlive, hkept⟩ := h.simpleMalloc hfuel (hsizes size (by simp))
  rw [Heap.mallocs, hcall, Option.bind_some] at hptrs
  obtain ⟨ptrs', hptrs', rfl⟩ := Option.map_eq_some_iff.mp hptrs
  rw [List.mem_cons, not_or] at hnull
  rw [if_neg (Ne.symm hnull.1)] at hlive
  exact ⟨t, ptr, hcall, ⟨ht, hlive, hkept⟩,
    fun size hmem => hsizes size (List.mem_cons_of_mem _ hmem), ptrs', hptrs', hnull.2⟩

end Payload

end TeraNoC.Runtime
