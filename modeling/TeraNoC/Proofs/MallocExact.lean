import TeraNoC.Proofs.Alloc

/-!
# When `domain_malloc` is exact

What a request needs is its size and the header, rounded up to a multiple of a block. Up to a
size of `2 ^ 32 - 12` the code computes just that, and then the search takes the first block
that is large enough and leaves the rest of it. Above, the sum wraps before it is compared with
the largest block size: the code goes looking for a block of 0 or 8 bytes, and every free block
will do. A request that cannot be met is then answered with the first block, unless there is
none.
-/

namespace TeraNoC.Runtime

open TeraNoC.Lib

/-- What a request of `size` bytes needs, in unbounded arithmetic. -/
def needOf (size : Nat) : Nat := (size + 4 + 7) / 8 * 8

namespace Alloc

variable (a : Alloc)

/-- The allocator is `a'` afterwards: the first of the free blocks that has room has been taken,
and what it has more than `need` is free as before. -/
def Takes (free : List Nat) (need : Nat) (a' : Alloc) (ptr : Nat) : Prop :=
  ∃ l₁ c l₂, free = l₁ ++ c :: l₂ ∧ (∀ x ∈ l₁, a.mem x < need) ∧ need ≤ a.mem c ∧ ptr = c + 4 ∧
    ∃ free', Seg a'.mem nextField a'.firstBlock free' 0 ∧
      free'.map (freeBlock a'.mem) = l₁.map (freeBlock a.mem) ++
        (if a.mem c = need then [] else [⟨c + need, a.mem c - need⟩]) ++ l₂.map (freeBlock a.mem)

/-- The call returns; it returns a pointer exactly when a free block has room for what is needed,
and then has taken it, and otherwise has changed nothing. -/
def MallocExact (free : List Nat) (fuel size : Nat) : Prop :=
  ∃ a' ptr, a.domainMalloc fuel size = some (a', ptr) ∧
    (ptr ≠ 0 ↔ needOf size < 2 ^ 24 ∧ ∃ c ∈ free, needOf size ≤ a.mem c) ∧
    (ptr ≠ 0 → a.Takes free (needOf size) a' ptr) ∧ (ptr = 0 → a' = a)

end Alloc

section Exact

variable {R : Region} {s : Heap} {free l₁ l₂ : List Nat} {c n size fuel : Nat}

/-- A sum that wraps asks for next to nothing. -/
theorem blockSize_wrap (hsize : size < 2 ^ 32) (hwrap : 2 ^ 32 ≤ size + 11) :
    alignUp (u32 (size + 4)) minBlockSize ≤ 8 := by
  by_cases hcarry : 2 ^ 32 ≤ size + 4
  · have hdata : u32 (size + 4) = size + 4 - 2 ^ 32 := by
      rw [u32]
      omega
    rw [hdata, alignUp_eq (by omega)]
    omega
  · have hsum : sub32 (u32 (u32 (size + 4) + minBlockSize)) 1 = size + 11 - 2 ^ 32 := by
      rw [minBlockSize, u32_eq (show size + 4 < 2 ^ 32 by omega), u32, sub32, u32]
      omega
    rw [alignUp, hsum, ← alignDown, alignDown_eq (by omega)]
    omega

theorem HeapInv.eight_le (h : HeapInv R s free) {x : Nat} (hx : x ∈ free) : 8 ≤ s.alloc.mem x := by
  have hok := h.tiled.freeOk x hx
  have hpos := hok.pos
  have hsize := hok.size
  omega

theorem HeapInv.ne_taken (h : HeapInv R s (l₁ ++ c :: l₂)) {y : Nat} (hy : y ∈ l₁ ++ l₂) :
    8 ∣ y ∧ y ≠ c := by
  obtain ⟨-, hnd₂, hdis⟩ := List.nodup_append.mp h.nodup
  rcases List.mem_append.mp hy with hy | hy
  · exact ⟨h.aligned (by simp [hy]), hdis y hy c (by simp)⟩
  · refine ⟨h.aligned (by simp [hy]), ?_⟩
    rintro rfl
    exact (List.nodup_cons.mp hnd₂).1 hy

/-- What `domain_malloc` does with a block of the right size. -/
theorem HeapInv.takes_whole (h : HeapInv R s (l₁ ++ c :: l₂)) (hc : s.alloc.mem c = n)
    (hn : n < 2 ^ 24) (hroom : size + 4 ≤ n) (hsmall : ∀ x ∈ l₁, s.alloc.mem x < n)
    (hs₁ : Seg s.alloc.mem nextField s.alloc.firstBlock l₁ c)
    (hs₂ : Seg s.alloc.mem nextField (s.alloc.mem (c + nextField)) l₂ 0) :
    s.alloc.Takes (l₁ ++ c :: l₂) n
      ((s.alloc.setNext (lastOr 0 l₁) (s.alloc.mem (c + nextField))).write c (canaryEncode c n))
      (c + 4) := by
  have hprev : 8 ∣ lastOr 0 l₁ := Alloc.lastOr_aligned fun x hx => h.aligned (by simp [hx])
  refine ⟨l₁, c, l₂, rfl, hsmall, Nat.le_of_eq hc.symm, rfl, l₁ ++ l₂,
    (h.take hc hn hroom hs₁ hs₂).list, ?_⟩
  rw [if_pos hc, List.append_nil, ← List.map_append]
  refine freeBlock_map fun y hy => ?_
  obtain ⟨hy8, hyc⟩ := h.ne_taken hy
  exact Alloc.take_header hprev hy8 hyc

/-- What `domain_malloc` does with a larger block. -/
theorem HeapInv.takes_part (h : HeapInv R s (l₁ ++ c :: l₂)) (hlt : n < s.alloc.mem c)
    (h8 : 8 ∣ n) (hn : n < 2 ^ 24) (hroom : size + 4 ≤ n) (hsmall : ∀ x ∈ l₁, s.alloc.mem x < n)
    (hs₁ : Seg s.alloc.mem nextField s.alloc.firstBlock l₁ c)
    (hs₂ : Seg s.alloc.mem nextField (s.alloc.mem (c + nextField)) l₂ 0) :
    s.alloc.Takes (l₁ ++ c :: l₂) n
      ((((s.alloc.write (c + n) (s.alloc.mem c - n)).write (c + n + nextField)
        (s.alloc.mem (c + nextField))).setNext (lastOr 0 l₁) (c + n)).write c (canaryEncode c n))
      (c + 4) := by
  have hprev : 8 ∣ lastOr 0 l₁ := Alloc.lastOr_aligned fun x hx => h.aligned (by simp [hx])
  have hc8 : 8 ∣ c := h.aligned (by simp)
  obtain ⟨-, hap₂, hap⟩ := List.pairwise_append.mp h.apart
  have hsplit : ∀ y ∈ l₁ ++ l₂, y ≠ c + n := by
    intro y hy
    rcases List.mem_append.mp hy with hy | hy
    · have := hap y hy c (by simp)
      omega
    · have := (List.pairwise_cons.mp hap₂).1 y hy
      omega
  have hsame : ∀ y ∈ l₁ ++ l₂, _ = s.alloc.mem y := fun y hy =>
    Alloc.split_header (a := s.alloc) (x := s.alloc.mem c - n)
      (y := s.alloc.mem (c + nextField)) (v := canaryEncode c n) hprev (h.ne_taken hy).1 hc8 h8
      (h.ne_taken hy).2 (hsplit y hy)
  refine ⟨l₁, c, l₂, rfl, hsmall, Nat.le_of_lt hlt, rfl, l₁ ++ (c + n) :: l₂,
    (h.split hlt h8 hn hroom hs₁ hs₂).list, ?_⟩
  rw [if_neg (by omega), List.map_append, List.map_cons,
    freeBlock_map fun y hy => hsame y (by simp [hy]),
    freeBlock_map fun y hy => hsame y (by simp [hy]),
    freeBlock, Alloc.split_new hprev hc8 h8 (by omega), List.append_assoc]
  rfl

/-- The call without a wrap. -/
theorem HeapInv.mallocExact (h : HeapInv R s free) (hfuel : R.size / 8 < fuel)
    (hsize : size + 11 < 2 ^ 32) : s.alloc.MallocExact free fuel size := by
  have hneed : alignUp (u32 (size + 4)) minBlockSize = needOf size := blockSize_eq hsize
  rw [Alloc.MallocExact, Alloc.domainMalloc, hneed]
  have hroom : size + 4 ≤ needOf size ∧ 8 ∣ needOf size := by
    rw [needOf]
    omega
  generalize needOf size = n at hroom
  by_cases hbig : n ≥ 2 ^ 24
  · exact ⟨s.alloc, 0, if_pos hbig, by omega, by omega, fun _ => rfl⟩
  rw [if_neg hbig]
  rcases @Alloc.allocateMemory_eq s.alloc fuel n free h.list (h.length_lt hfuel) with
    ⟨hsmall, hnone⟩ | ⟨l₁, c, l₂, rfl, hsmall, hfit, hc, hs₁, hs₂, heq⟩
  · refine ⟨s.alloc, 0, by rw [hnone]; rfl, ⟨fun hne => absurd rfl hne, ?_⟩, by omega,
      fun _ => rfl⟩
    rintro ⟨-, c, hc, hfit⟩
    have := hsmall c hc
    omega
  · have hin := h.tiled.free_inside (a := c) (by simp)
    have hhi := R.hi_lt
    have hc8 := h.aligned (a := c) (by simp)
    have hend : u32 (c + n) = c + n := u32_eq (by omega)
    have hdata : u32 (c + 4) = c + 4 := u32_eq (by omega)
    have hfound : c + 4 ≠ 0 ↔ n < 2 ^ 24 ∧ ∃ x ∈ l₁ ++ c :: l₂, n ≤ s.alloc.mem x :=
      ⟨fun _ => ⟨by omega, c, by simp, hfit⟩, fun _ => by omega⟩
    rw [heq]
    by_cases hwhole : s.alloc.mem c = n
    · refine ⟨_, c + 4, ?_, hfound, fun _ => h.takes_whole hwhole (by omega) hroom.1 hsmall hs₁ hs₂,
        by omega⟩
      simp only [if_pos hwhole, Option.map_some, if_neg hc, hdata]
    · have hlink : (s.alloc.write (c + n) (s.alloc.mem c - n)).mem (c + nextField)
          = s.alloc.mem (c + nextField) := Alloc.write_of_ne (by rw [nextField]; omega)
      refine ⟨_, c + 4, ?_, hfound, fun _ =>
        h.takes_part (by omega) hroom.2 (by omega) hroom.1 hsmall hs₁ hs₂, by omega⟩
      simp only [if_neg hwhole, Option.map_some, if_neg hc, hdata, hend, hlink,
        sub32_eq hfit (by omega : _ < 2 ^ 32)]

/-- Without a free block the search finds nothing, whatever it looks for. -/
theorem HeapInv.mallocExact_nil (h : HeapInv R s []) (hfuel : R.size / 8 < fuel) (size : Nat) :
    s.alloc.MallocExact [] fuel size := by
  refine ⟨s.alloc, 0, ?_, ⟨fun hne => absurd rfl hne, ?_⟩, by omega, fun _ => rfl⟩
  · rw [Alloc.domainMalloc]
    simp only
    split
    · rfl
    · rcases @Alloc.allocateMemory_eq s.alloc fuel (alignUp (u32 (size + 4)) minBlockSize) [] h.list
        (h.length_lt hfuel) with ⟨-, hnone⟩ | ⟨l₁, c, l₂, hnil, -⟩
      · rw [hnone]
        rfl
      · cases l₁ <;> cases hnil
  · rintro ⟨-, c, hc, -⟩
    cases hc

/-- A wrapped request is handed a block. -/
theorem HeapInv.malloc_wrap (h : HeapInv R s free) (hfuel : R.size / 8 < fuel)
    (hsize : size < 2 ^ 32) (hwrap : 2 ^ 32 ≤ size + 11) (hfree : free ≠ []) :
    ∃ a' ptr, s.alloc.domainMalloc fuel size = some (a', ptr) ∧ ptr ≠ 0 := by
  have hle := blockSize_wrap hsize hwrap
  obtain ⟨x, rest, rfl⟩ := List.exists_cons_of_ne_nil hfree
  rw [Alloc.domainMalloc]
  generalize alignUp (u32 (size + 4)) minBlockSize = n at hle
  rw [if_neg (by omega)]
  rcases @Alloc.allocateMemory_eq s.alloc fuel n _ h.list (h.length_lt hfuel) with
    ⟨hsmall, -⟩ | ⟨l₁, c, l₂, hsplit, -, -, hc, -, -, heq⟩
  · have := hsmall x (by simp)
    have := h.eight_le (x := x) (by simp)
    omega
  · have hin := h.tiled.free_inside (a := c) (by rw [hsplit]; simp)
    have hsize := h.eight_le (x := c) (by rw [hsplit]; simp)
    have hhi := R.hi_lt
    have hdata : u32 (c + 4) = c + 4 := u32_eq (by omega)
    rw [heq]
    by_cases hwhole : s.alloc.mem c = n
    · simp only [if_pos hwhole, Option.map_some, if_neg hc, hdata]
      exact ⟨_, c + 4, rfl, by omega⟩
    · simp only [if_neg hwhole, Option.map_some, if_neg hc, hdata]
      exact ⟨_, c + 4, rfl, by omega⟩

end Exact

theorem malloc_exact_iff (R : Region) (s : Heap) (free : List Nat) (h : HeapInv R s free)
    (fuel : Nat) (hfuel : R.size / 8 < fuel) (size : Nat) (hsize : size < 2 ^ 32) :
    s.alloc.MallocExact free fuel size ↔ size + 11 < 2 ^ 32 ∨ free = [] := by
  constructor
  · rintro ⟨a', ptr, hcall, hiff, -, -⟩
    by_contra hno
    rw [not_or] at hno
    obtain ⟨a'', ptr', hcall', hptr⟩ := h.malloc_wrap hfuel hsize (by omega) hno.2
    rw [hcall'] at hcall
    cases hcall
    have hneed := (hiff.mp hptr).1
    rw [needOf] at hneed
    omega
  · rintro (hfits | rfl)
    · exact h.mallocExact hfuel hfits
    · exact h.mallocExact_nil hfuel size

/-- The first request of a program, for twenty bytes. -/
theorem malloc_exact_twenty :
    (Heap.start (fun _ => 1) 4 100).alloc.MallocExact [8] 13 20 :=
  (malloc_exact_iff smallRegion _ [8] (start_inv smallRegion fun _ => 1).1 13 (by decide) 20
    (by decide)).mpr (.inl (by decide))

/-- A request for all but four bytes of the address space is given the first block. -/
theorem malloc_wraps :
    HeapInv smallRegion (.start (fun _ => 1) 4 100) [8] ∧
    ((Heap.start (fun _ => 1) 4 100).alloc.domainMalloc 13 (2 ^ 32 - 4)).map Prod.snd = some 12 ∧
      ¬(Heap.start (fun _ => 1) 4 100).alloc.MallocExact [8] 13 (2 ^ 32 - 4) := by
  refine ⟨(start_inv smallRegion fun _ => 1).1, by decide +kernel, ?_⟩
  rintro ⟨a', ptr, hcall, hiff, -, -⟩
  have hptr : ((Heap.start (fun _ => 1) 4 100).alloc.domainMalloc 13 (2 ^ 32 - 4)).map Prod.snd
      = some 12 := by decide +kernel
  rw [hcall] at hptr
  cases hptr
  have hneed := (hiff.mp (by decide)).1
  exact absurd hneed (by decide)

end TeraNoC.Runtime
