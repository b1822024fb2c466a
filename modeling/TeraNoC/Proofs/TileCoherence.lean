import TeraNoC.Proofs.TileInterco

/-!
# The narrow and the wide path see one memory

A logical word is an address of the narrow path. Its owner is the bank the narrow
select picks, its place there the row. Word `j` of a wide request is the logical
word `j` further on, and the wide path takes it to the owner of that word
(`wide_place`); so a bank only ever holds accesses to words it owns, each at its
own row, and its memory is the fold of its log (`Coherent.mem`).
-/

namespace TeraNoC.Hw

open TeraNoC.Lib

/-- The logical word of an access. -/
def Access.word {w : Nat} {M : Type} : Access w M → Nat
  | .narrow r => r.tgtAddr.toNat
  | .wide _ r j => r.tgtAddr.toNat + j

/-- Word `a` after an access, byte by byte. -/
def Access.write {w : Nat} {M : Type} (acc : Access w M) (a : Nat) (x : Word) : Word :=
  if acc.wen = true ∧ acc.word = a then mergeBytes acc.be x acc.wdata else x

/-- Word `a` after all accesses of a log. -/
def content {w : Nat} {M : Type} (init : Word) (a : Nat) (log : List (Access w M × Word)) : Word :=
  log.foldl (fun x e => e.1.write a x) init

namespace IntercoConfig

variable {q : IntercoConfig} {F : TileCells q.numBanksPerSB} {rowBits : Nat} {M : Type}
variable {s : TileState F (q.bankOffsetBits + rowBits) M}
variable {i : TileIn (q.bankOffsetBits + rowBits) M}

/-! ## The place of a word -/

/-- Superbank-aligned: the low `BankIdLoBits` of the address are zero. -/
def Aligned (q : IntercoConfig) (r : WideReq (q.bankOffsetBits + rowBits) M) : Prop :=
  slice r.tgtAddr.toNat 0 q.bankIdLoBits = 0

theorem concat_row_bank {a : Nat} (ha : a < 2 ^ (q.bankOffsetBits + rowBits)) :
    concat (slice a q.bankOffsetBits rowBits) (slice a 0 (q.loBits + q.hiBits))
      (q.loBits + q.hiBits) = a := by
  rw [q.bankOffsetBits_eq] at ha ⊢
  have h := concat_slice a 0 (q.loBits + q.hiBits) rowBits
  rw [Nat.zero_add] at h
  rw [h, slice_eq_self ha]

/-- A word is determined by its owner and its row. -/
theorem place_inj {a a' : Nat} (ha : a < 2 ^ (q.bankOffsetBits + rowBits))
    (ha' : a' < 2 ^ (q.bankOffsetBits + rowBits)) (hbank : q.narrowSel a = q.narrowSel a')
    (hrow : slice a q.bankOffsetBits rowBits = slice a' q.bankOffsetBits rowBits) : a = a' := by
  rw [← concat_row_bank ha, ← concat_row_bank ha', narrowSel_concat (slice_lt _ _ _),
    narrowSel_concat (slice_lt _ _ _), hrow] at hbank
  rw [← concat_row_bank ha, ← concat_row_bank ha', hrow,
    q.bankRemap_inj (slice_lt _ _ _) (slice_lt _ _ _) hbank]

/-- Word `j` of an aligned wide request goes to the owner of the logical word, in
the row of the request. -/
theorem wide_place {r : WideReq (q.bankOffsetBits + rowBits) M} (hr : q.Aligned r) {j : Nat}
    (hj : j < q.numBanksPerSB) :
    q.narrowSel (r.tgtAddr.toNat + j) = q.wideBank r.tgtAddr.toNat j ∧
    slice (r.tgtAddr.toNat + j) q.bankOffsetBits rowBits = q.bankRow r.tgtAddr ∧
    r.tgtAddr.toNat + j < 2 ^ (q.bankOffsetBits + rowBits) := by
  rw [q.numBanksPerSB_eq] at hj
  generalize ha : r.tgtAddr.toNat = a
  have hlt : a < 2 ^ (q.bankOffsetBits + rowBits) := by rw [← ha]; exact r.tgtAddr.isLt
  rw [Aligned, ha] at hr
  have hfield : slice a 0 (q.loBits + q.hiBits) =
    concat (slice a q.loBits q.hiBits) 0 q.loBits := by
    have h := concat_slice a 0 q.loBits q.hiBits
    rw [Nat.zero_add, show slice a 0 q.loBits = 0 from hr] at h
    exact h.symm
  have hsum : a + j = concat (slice a q.bankOffsetBits rowBits)
      (concat (slice a q.loBits q.hiBits) j q.loBits) (q.loBits + q.hiBits) := by
    have h := concat_row_bank hlt
    rw [hfield] at h
    simp only [concat] at h ⊢
    omega
  have hbank : concat (slice a q.loBits q.hiBits) j q.loBits < 2 ^ (q.loBits + q.hiBits) :=
    concat_lt hj (slice_lt _ _ _)
  have hwide : q.wideBank a j = q.bankRemap (slice a q.bankOffsetBits rowBits)
      (concat (slice a q.loBits q.hiBits) j q.loBits) := by
    have h : q.wideBank (concat (slice a q.bankOffsetBits rowBits)
        (concat (slice a q.loBits q.hiBits) 0 q.loBits) (q.loBits + q.hiBits)) j = _ :=
      wideBank_concat (slice_lt a q.loBits q.hiBits) hj
    rw [← hfield, concat_row_bank hlt] at h
    exact h
  refine ⟨?_, ?_, ?_⟩
  · rw [hsum, narrowSel_concat hbank, hwide]
  · rw [hsum, slice_row hbank, Nat.mod_eq_of_lt (slice_lt _ _ _), IntercoParams.bankRow, ha]
  · rw [hsum, q.bankOffsetBits_eq]
    exact concat_lt hbank (slice_lt _ _ _)

/-- An access is at its place: the bank is the owner of its word, and the row it is
executed at is that of the word. -/
structure Placed (q : IntercoConfig) (b : Nat) (acc : Access (q.bankOffsetBits + rowBits) M) :
    Prop where
  owner : q.narrowSel acc.word = b
  row : slice acc.word q.bankOffsetBits rowBits = q.bankRow acc.tgtAddr
  lt : acc.word < 2 ^ (q.bankOffsetBits + rowBits)

theorem wideBank_port {r : WideReq (q.bankOffsetBits + rowBits) M} {b : Nat}
    (hsel : q.wideSel r.tgtAddr.toNat = q.sbOf b) :
    q.wideBank r.tgtAddr.toNat (q.wideWord (q.reqRot r.tgtAddr.toNat) (q.portOf b)) = b := by
  have hport : q.portOf b < q.numBanksPerSB := Nat.mod_lt _ q.numBanksPerSB_pos
  have hword : q.wideWord (q.reqRot r.tgtAddr.toNat) (q.portOf b) < q.numBanksPerSB :=
    Nat.mod_lt _ q.numBanksPerSB_pos
  have hrot := q.reqRot_lt r.tgtAddr.toNat
  rw [wideBank_eq _ hrot hword, hsel, ← (wideWord_eq_iff hrot hport hword).mp rfl,
    IntercoParams.globalBank, IntercoParams.sbOf, IntercoParams.portOf, Nat.mul_comm]
  exact Nat.div_add_mod b q.numBanksPerSB

theorem placed_mstReq (hal : ∀ r, q.slvWideReq s i = some r → q.Aligned r) {b : Nat}
    {acc : Access (q.bankOffsetBits + rowBits) M} (h : q.mstReq s i b = some acc) :
    q.Placed b acc := by
  rw [IntercoParams.mstReq] at h
  split at h
  · rename_i hv
    obtain ⟨r, hr, rfl⟩ := Option.map_eq_some_iff.mp h
    rw [IntercoParams.wideForkValid, F.fork.valid_eq, IntercoParams.forkValid, Bool.and_eq_true,
      Bool.and_eq_true] at hv
    obtain ⟨r', hr', hsel⟩ := wideToSbValid_iff.mp hv.1.1
    rw [hr] at hr'
    cases hr'
    have hword : q.wideWord (q.reqRot r.tgtAddr.toNat) (q.portOf b) < q.numBanksPerSB :=
      Nat.mod_lt _ q.numBanksPerSB_pos
    obtain ⟨hown, hrow, hlt⟩ := wide_place (hal r hr) hword
    exact ⟨hown.trans (wideBank_port hsel), hrow, hlt⟩
  · obtain ⟨r, hr, rfl⟩ := Option.map_eq_some_iff.mp h
    rw [IntercoParams.narrowToBank, Option.filter_eq_some_iff, beq_iff_eq] at hr
    exact ⟨hr.2, rfl, r.tgtAddr.isLt⟩

/-! ## The memory -/

/-- Bank `b`, with `init` its memory at the start: its memory holds the content of
the words it owns, and what it answered to reads is what they held. -/
structure Coherent (q : IntercoConfig) (init : Nat → Word) (b : Nat)
    (bank : Bank (q.bankOffsetBits + rowBits) M) : Prop where
  placed : ∀ e ∈ bank.log, q.Placed b e.1
  mem : ∀ a < 2 ^ (q.bankOffsetBits + rowBits), q.narrowSel a = b →
    bank.mem (slice a q.bankOffsetBits rowBits)
      = content (init (slice a q.bankOffsetBits rowBits)) a bank.log
  reads : ∀ k e, bank.log[k]? = some e → e.1.wen = false →
    e.2 = content (init (q.bankRow e.1.tgtAddr)) e.1.word (bank.log.take k)

theorem content_append (init : Word) (a : Nat) {w : Nat} (log : List (Access w M × Word))
    (e : Access w M × Word) :
    content init a (log ++ [e]) = e.1.write a (content init a log) := by
  rw [content, List.foldl_append]
  rfl

theorem Coherent.accept {init : Nat → Word} {b : Nat} {bank : Bank (q.bankOffsetBits + rowBits) M}
    (h : q.Coherent init b bank) {acc : Access (q.bankOffsetBits + rowBits) M}
    (hp : q.Placed b acc) (junk : Word) :
    q.Coherent init b (bank.accept (q.bankRow acc.tgtAddr) acc junk) where
  placed := by
    intro e he
    rcases List.mem_append.mp he with he | he
    · exact h.placed e he
    · rw [List.mem_singleton.mp he]
      exact hp
  mem := by
    intro a ha hown
    show (if acc.wen then setWord bank.mem (q.bankRow acc.tgtAddr)
        (mergeBytes acc.be (bank.mem (q.bankRow acc.tgtAddr)) acc.wdata) else bank.mem)
      (slice a q.bankOffsetBits rowBits) = content _ a (bank.log ++ [_])
    rw [content_append, ← h.mem a ha hown, Access.write]
    cases hw : acc.wen with
    | false => simp
    | true =>
        simp only [if_true, true_and]
        by_cases haw : acc.word = a
        · rw [if_pos haw, ← haw, hp.row, setWord_same]
        · -- another word of this bank is in another row
          have hrow : slice a q.bankOffsetBits rowBits ≠ q.bankRow acc.tgtAddr := by
            rw [← hp.row]
            intro hrow
            exact haw (place_inj hp.lt ha (hp.owner.trans hown.symm) hrow.symm)
          rw [if_neg haw, setWord, if_neg hrow]
  reads := by
    intro k e he hread
    have hlog : (bank.accept (q.bankRow acc.tgtAddr) acc junk).log
        = bank.log ++ [(acc, if acc.wen then junk else bank.mem (q.bankRow acc.tgtAddr))] := rfl
    rw [hlog] at he ⊢
    rcases Nat.lt_or_ge k bank.log.length with hk | hk
    · rw [List.getElem?_append_left hk] at he
      rw [List.take_append_of_le_length (Nat.le_of_lt hk)]
      exact h.reads k e he hread
    · rw [List.getElem?_append_right hk] at he
      have hk0 : k - bank.log.length = 0 := by
        have := (List.getElem?_eq_some_iff.mp he).1
        rw [List.length_singleton] at this
        omega
      rw [hk0] at he
      cases he
      rw [show k = bank.log.length by omega, List.take_left]
      simp only [hread, Bool.false_eq_true, if_false]
      have hmem := h.mem acc.word hp.lt hp.owner
      rw [hp.row] at hmem
      exact hmem

theorem Coherent.next {init : Nat → Word} {b : Nat} (h : q.Coherent init b (s.bank b))
    (hal : ∀ r, q.slvWideReq s i = some r → q.Aligned r) :
    q.Coherent init b ((q.tileNext s i).bank b) := by
  have hans : ∀ n, q.Coherent init b { s.bank b with answered := n } :=
    fun n => ⟨h.placed, h.mem, h.reads⟩
  show q.Coherent init b (q.bankNext s i b)
  rw [IntercoParams.bankNext]
  cases hm : q.mstReq s i b with
  | none => exact hans _
  | some acc =>
      cases hr : i.bankReady b with
      | false => exact hans _
      | true => exact (hans _).accept (placed_mstReq hal hm) _

theorem coherent_reset (mem : Nat → Nat → Word) (b : Nat) :
    q.Coherent (mem b) b
      ((TileState.reset mem : TileState F (q.bankOffsetBits + rowBits) M).bank b) where
  placed _ he := by cases he
  mem _ _ _ := rfl
  reads k e he := by cases he

section Run

variable (mem : Nat → Nat → Word) {inp : Nat → TileIn (q.bankOffsetBits + rowBits) M}
  (hal : ∀ t r, (inp t).wideNew = some r → q.Aligned r)

include hal in
theorem aligned_after (t : Nat) :
    ∀ r, (q.tileAfter (.reset mem : TileState F _ M) inp t).wide = some r → q.Aligned r := by
  induction t with
  | zero => exact fun r hr => by cases hr
  | succ t ih =>
      intro r hr
      have hnext : (if q.slvWideReqReady (q.tileAfter (.reset mem : TileState F _ M) inp t) (inp t)
          then none else q.slvWideReq (q.tileAfter (.reset mem) inp t) (inp t)) = some r := hr
      split at hnext
      · cases hnext
      · rw [IntercoParams.slvWideReq, Option.or_eq_some_iff] at hnext
        rcases hnext with hnext | hnext
        · exact ih r hnext
        · exact hal t r hnext.2

include hal in
theorem coherent_after (t b : Nat) :
    q.Coherent (mem b) b ((q.tileAfter (.reset mem : TileState F _ M) inp t).bank b) := by
  induction t with
  | zero => exact coherent_reset mem b
  | succ t ih =>
      refine ih.next fun r hr => ?_
      rw [IntercoParams.slvWideReq, Option.or_eq_some_iff] at hr
      rcases hr with hr | hr
      · exact aligned_after mem hal t r hr
      · exact hal t r hr.2

end Run

/-- Every word of an accepted request is in the log of its owner. -/
theorem accepted_logged {n : Nat} {r : WideReq (q.bankOffsetBits + rowBits) M} {j : Nat}
    {init : Nat → Word} (h : SbInv q s (q.wideSel r.tgtAddr.toNat))
    (hcoh : q.Coherent init (q.wideBank r.tgtAddr.toNat j)
      (s.bank (q.wideBank r.tgtAddr.toNat j)))
    (hn : s.accepted[n]? = some r) (hj : j < q.numBanksPerSB) :
    ∃ x, (Access.wide n r j, x) ∈ (s.bank (q.narrowSel (r.tgtAddr.toNat + j))).log := by
  have hrot := q.reqRot_lt r.tgtAddr.toNat
  have hp : (j + q.reqRot r.tgtAddr.toNat) % q.numBanksPerSB < q.numBanksPerSB :=
    Nat.mod_lt _ q.numBanksPerSB_pos
  have hacc : (r, n) ∈ q.acceptedOf s (q.wideSel r.tgtAddr.toNat) := by
    rw [acceptedOf, List.mem_filter]
    exact ⟨List.mem_zipIdx_iff_getElem?.mpr hn, beq_iff_eq.mpr rfl⟩
  have hid : q.portId ((j + q.reqRot r.tgtAddr.toNat) % q.numBanksPerSB) (r, n)
      ∈ wideIds (s.bank (q.wideBank r.tgtAddr.toNat j)).log := by
    rw [wideBank_eq _ hrot hj, h.taken _ hp]
    exact List.mem_map_of_mem (List.mem_append_left _ hacc)
  rw [portId, (wideWord_eq_iff hrot hp hj).mpr rfl, wideIds, List.mem_filterMap] at hid
  obtain ⟨⟨a, x⟩, hmem, hwide⟩ := hid
  cases a with
  | narrow r' => cases hwide
  | wide n' r' j' =>
      cases hwide
      refine ⟨x, ?_⟩
      rw [show q.narrowSel (r.tgtAddr.toNat + j) = q.wideBank r.tgtAddr.toNat j from
        (hcoh.placed _ hmem).owner]
      exact hmem

end IntercoConfig

/-- Memory coherence of the narrow and the wide path. Every access is executed by
the owner of its logical word, and every word of an accepted wide request by the
owner of that word. The answer to a narrow load is the content of its word after
the accesses its bank had accepted before, and so is every word of a wide read:
the responses of a superbank answer the requests it has accepted, in order. -/
theorem tile_coherent (q : IntercoConfig) (F : TileCells q.numBanksPerSB) {rowBits : Nat}
    {M : Type} (mem : Nat → Nat → Word) (inp : Nat → TileIn (q.bankOffsetBits + rowBits) M)
    (hal : ∀ t r, (inp t).wideNew = some r → q.Aligned r) (t : Nat)
    (s : TileState F (q.bankOffsetBits + rowBits) M) (hs : s = q.tileAfter (.reset mem) inp t) :
    (∀ b, ∀ e ∈ (s.bank b).log, q.narrowSel e.1.word = b) ∧
    (∀ n r, s.accepted[n]? = some r → ∀ j < q.numBanksPerSB, ∃ x,
      (Access.wide n r j, x) ∈ (s.bank (q.narrowSel (r.tgtAddr.toNat + j))).log) ∧
    (∀ b r x, q.mstResp s (inp t) b = some (.narrow r, x) → r.wen = false →
      b = q.narrowSel r.tgtAddr.toNat ∧
      x = content (mem b (q.bankRow r.tgtAddr)) r.tgtAddr.toNat
        ((s.bank b).log.take (s.bank b).answered)) ∧
    ∀ d, List.Forall₂
      (fun e resp => resp.metadata = e.1.metadata ∧
        (e.1.wen = false → ∀ j < q.numBanksPerSB, ∃ k,
          (s.bank (q.narrowSel (e.1.tgtAddr.toNat + j))).log[k]?
            = some (.wide e.2 e.1 j, resp.rdata j) ∧
          resp.rdata j = content
            (mem (q.narrowSel (e.1.tgtAddr.toNat + j)) (q.bankRow e.1.tgtAddr))
            (e.1.tgtAddr.toNat + j)
            ((s.bank (q.narrowSel (e.1.tgtAddr.toNat + j))).log.take k)))
      ((q.acceptedOf s d).take (IntercoConfig.deliveredOf s d).length)
      (IntercoConfig.deliveredOf s d) := by
  subst hs
  have hcoh := fun b => IntercoConfig.coherent_after (F := F) mem hal t b
  have hinv := fun d => IntercoConfig.sbInv_after (F := F) mem inp d t
  refine ⟨?_, ?_, ?_, ?_⟩
  · intro b e he
    exact ((hcoh b).placed e he).owner
  · intro n r hn j hj
    exact IntercoConfig.accepted_logged (hinv _) (hcoh _) hn hj
  · intro b r x hm hread
    have hget := IntercoConfig.mstResp_eq_some hm
    refine ⟨((hcoh b).placed _ (List.mem_of_getElem? hget)).owner.symm, ?_⟩
    exact (hcoh b).reads _ _ hget hread
  · intro d
    refine (hinv d).answers.imp ?_
    intro e resp hans
    refine ⟨hans.2, ?_⟩
    intro hread j hj
    have hmem := hans.1 j hj
    have hown := ((hcoh _).placed _ hmem).owner
    rw [← hown] at hmem
    obtain ⟨k, hk⟩ := List.mem_iff_getElem?.mp hmem
    exact ⟨k, hk, (hcoh _).reads k _ hk hread⟩

/-- Words 5 and 6 to logical words 4 and 5. -/
def wideStore : WideReq (fourBanks.bankOffsetBits + 2) Nat where
  tgtAddr := 4
  wen := true
  be _ := 0b1111
  wdata j := BitVec.ofNat 32 (5 + j)
  metadata := 1

def narrowLoad : NarrowReq (fourBanks.bankOffsetBits + 2) Nat where
  tgtAddr := 5
  wen := false
  be := 0
  wdata := 0
  metadata := 2

/-- The wide store, then the load of its second word. -/
def storeThenLoad : Nat → FourBanksIn := tileCycles
  [ { quietCycle with wideNew := some wideStore },
    { quietCycle with narrow := fun _ => some narrowLoad } ]

theorem storeThenLoad_aligned (t : Nat) (r : WideReq (fourBanks.bankOffsetBits + 2) Nat)
    (h : (storeThenLoad t).wideNew = some r) : fourBanks.Aligned r := by
  match t with
  | 0 =>
      cases h
      show slice 4 0 fourBanks.bankIdLoBits = 0
      decide
  | 1 => cases h
  | t + 2 => cases h

def storeThenLoadState :
    TileState (TileCells.list fourBanks.numBanksPerSB) (fourBanks.bankOffsetBits + 2) Nat :=
  fourBanks.tileAfter (.reset fun _ _ => 0) storeThenLoad 2

theorem tile_coherent_storeThenLoad :
    ∃ x, fourBanks.mstResp storeThenLoadState (storeThenLoad 2) 0 = some (.narrow narrowLoad, x) ∧
      x = 6 ∧
      x = content 0 5
        ((storeThenLoadState.bank 0).log.take (storeThenLoadState.bank 0).answered) := by
  refine ⟨6, rfl, rfl, ?_⟩
  exact ((tile_coherent fourBanks (.list _) (fun _ _ => 0) storeThenLoad
    storeThenLoad_aligned 2 storeThenLoadState rfl).2.2.1 0 narrowLoad 6 rfl rfl).2

end TeraNoC.Hw
