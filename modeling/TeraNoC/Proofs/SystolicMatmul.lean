import Mathlib.Algebra.Order.BigOperators.Group.Finset
import TeraNoC.Lib.Count
import TeraNoC.Proofs.SystolicLink
import TeraNoC.Proofs.SystolicPe

/-!
# Systolic matrix multiplication

The elements work on different rounds at the same time; a queue is ahead of its reader by
what it stores. How many entries an element has pushed and popped follows from its rounds
and from where it is in the current one, so the queues' lengths tie neighbours together:
no element is more than a queue behind another.

An element that waits waits for a neighbour that is further behind, if one counts the rows
and columns as well: a pop for the element to the left or above, in the same round, and a
push for the one to the right or below, in an earlier round. So the one that is furthest
behind never waits.
-/

namespace TeraNoC.Systolic

open TeraNoC.Lib TeraNoC.Runtime

/-! ## What the neighbours see of an element -/

namespace Pe

/-- The entries the element has pushed to its right. -/
def sentHorz (pe : Pe) : Nat :=
  match pe.op with
  | .pushVert | .mac => pe.rounds + 1
  | _ => pe.rounds

def gotHorz (pe : Pe) : Nat :=
  match pe.op with
  | .popVert | .pushHorz | .pushVert | .mac => pe.rounds + 1
  | _ => pe.rounds

def sentVert (pe : Pe) : Nat :=
  match pe.op with
  | .mac => pe.rounds + 1
  | _ => pe.rounds

def gotVert (pe : Pe) : Nat :=
  match pe.op with
  | .pushHorz | .pushVert | .mac => pe.rounds + 1
  | _ => pe.rounds

/-- What it is about to push. -/
def pushesHorz (pe : Pe) : Option (Entry (BitVec 32)) :=
  match pe.op with
  | .pushHorz => some pe.dataHorz
  | _ => none

def pushesVert (pe : Pe) : Option (Entry (BitVec 32)) :=
  match pe.op with
  | .pushVert => some pe.dataVert
  | _ => none

def popsHorz (pe : Pe) : Bool :=
  match pe.op with
  | .popHorz => true
  | _ => false

def popsVert (pe : Pe) : Bool :=
  match pe.op with
  | .popVert => true
  | _ => false

/-- The value of element `k` of tile `t` is in `C`. -/
def Stored (pe : Pe) (t : Nat) (k : Fin 4) : Prop :=
  t < pe.tiles ∨ t = pe.tiles ∧ ∃ j, pe.op = .store j ∧ k < j

end Pe

def HorzLink (p : SystolicParams) (r : Nat) (q : MultiQueue (BitVec 32)) (left right : Pe) : Prop :=
  Link p.xqueueSize (p.HorzOk r) q left.sentHorz left.pushesHorz right.gotHorz right.popsHorz

def VertLink (p : SystolicParams) (c : Nat) (q : MultiQueue (BitVec 32))
    (above below : Pe) : Prop :=
  Link p.xqueueSize (p.VertOk c) q above.sentVert above.pushesVert below.gotVert below.popsVert

/-- The elements of `C` that were stored are the products. -/
def CellsOk (p : SystolicParams) (pes : Nat × Nat → Pe) (matrixC : Nat → BitVec 32) : Prop :=
  ∀ r c, r < p.systolicSize → c < p.systolicSize → ∀ ty tx, tx < p.tilesX → p.Inside r c ty tx →
    ∀ k : Fin 4, (pes (r, c)).Stored (ty * p.tilesX + tx) k →
      matrixC (index p.numColsC (p.side * ty + 2 * r + k.val / 2)
          (p.side * tx + 2 * c + k.val % 2)) =
        p.dot (p.side * ty + 2 * r + k.val / 2) (p.side * tx + 2 * c + k.val % 2) (2 * p.repCount)

structure SystolicInv (p : SystolicParams) (s : SystolicState) : Prop where
  pe : ∀ r c, r < p.systolicSize → c < p.systolicSize → PeInv p r c (s.pe (r, c))
  horz : ∀ r c, r < p.systolicSize → c + 1 < p.systolicSize →
    HorzLink p r (s.horz (r, c)) (s.pe (r, c)) (s.pe (r, c + 1))
  vert : ∀ r c, r + 1 < p.systolicSize → c < p.systolicSize →
    VertLink p c (s.vert (r, c)) (s.pe (r, c)) (s.pe (r + 1, c))
  cells : CellsOk p s.pe s.matrixC

/-! ## One element moves -/

section Moves

variable {p : SystolicParams} {s : SystolicState} {r c : Nat} {q : MultiQueue (BitVec 32)}
  {pe pe' other : Pe}

/-- A neighbour sees nothing of a move that pushes nothing, but that a push may begin. -/
theorem HorzLink.left (h : HorzLink p r q pe other) (hsent : pe'.sentHorz = pe.sentHorz)
    (hpush : pe.pushesHorz = none ∨ pe'.pushesHorz = pe.pushesHorz) :
    HorzLink p r q pe' other := by
  rw [HorzLink] at h ⊢
  rw [hsent]
  rcases hpush with hnone | hsame
  · rw [hnone] at h
    exact h.beginPush _
  · rw [hsame]
    exact h

theorem HorzLink.right (h : HorzLink p r q other pe) (hgot : pe'.gotHorz = pe.gotHorz)
    (hpop : pe.popsHorz = false ∨ pe'.popsHorz = pe.popsHorz) : HorzLink p r q other pe' := by
  rw [HorzLink] at h ⊢
  rw [hgot]
  rcases hpop with hnone | hsame
  · rw [hnone] at h
    exact h.beginPop _
  · rw [hsame]
    exact h

theorem VertLink.above (h : VertLink p c q pe other) (hsent : pe'.sentVert = pe.sentVert)
    (hpush : pe.pushesVert = none ∨ pe'.pushesVert = pe.pushesVert) :
    VertLink p c q pe' other := by
  rw [VertLink] at h ⊢
  rw [hsent]
  rcases hpush with hnone | hsame
  · rw [hnone] at h
    exact h.beginPush _
  · rw [hsame]
    exact h

theorem VertLink.below (h : VertLink p c q other pe) (hgot : pe'.gotVert = pe.gotVert)
    (hpop : pe.popsVert = false ∨ pe'.popsVert = pe.popsVert) : VertLink p c q other pe' := by
  rw [VertLink] at h ⊢
  rw [hgot]
  rcases hpop with hnone | hsame
  · rw [hnone] at h
    exact h.beginPop _
  · rw [hsame]
    exact h

/-- The invariant after a move of one element, from what it does to the four queues at it. -/
theorem SystolicInv.update (h : SystolicInv p s) {horz vert : Nat × Nat → MultiQueue (BitVec 32)}
    {matrixC : Nat → BitVec 32} (hpe : PeInv p r c pe')
    (hframeH : ∀ x, x ≠ (r, c) → (∀ c', c = c' + 1 → x ≠ (r, c')) → horz x = s.horz x)
    (hframeV : ∀ x, x ≠ (r, c) → (∀ r', r = r' + 1 → x ≠ (r', c)) → vert x = s.vert x)
    (hprevH : ∀ c', c = c' + 1 → HorzLink p r (horz (r, c')) (s.pe (r, c')) pe')
    (hnextH : c + 1 < p.systolicSize → HorzLink p r (horz (r, c)) pe' (s.pe (r, c + 1)))
    (hprevV : ∀ r', r = r' + 1 → VertLink p c (vert (r', c)) (s.pe (r', c)) pe')
    (hnextV : r + 1 < p.systolicSize → VertLink p c (vert (r, c)) pe' (s.pe (r + 1, c)))
    (hcells : CellsOk p (Function.update s.pe (r, c) pe') matrixC) :
    SystolicInv p { pe := Function.update s.pe (r, c) pe', horz, vert, matrixC } where
  pe r' c' hr' hc' := by
    by_cases heq : (r', c') = (r, c)
    · obtain ⟨rfl, rfl⟩ := Prod.mk.inj heq
      show PeInv p r' c' (Function.update s.pe (r', c') pe' (r', c'))
      rw [Function.update_self]
      exact hpe
    · show PeInv p r' c' (Function.update s.pe (r, c) pe' (r', c'))
      rw [Function.update_of_ne heq]
      exact h.pe r' c' hr' hc'
  horz r' c' hr' hc' := by
    show HorzLink p r' (horz (r', c')) (Function.update s.pe (r, c) pe' (r', c'))
      (Function.update s.pe (r, c) pe' (r', c' + 1))
    by_cases heq : (r', c') = (r, c)
    · obtain ⟨rfl, rfl⟩ := Prod.mk.inj heq
      rw [Function.update_self, Function.update_of_ne (by simp)]
      exact hnextH hc'
    · rw [Function.update_of_ne heq]
      by_cases heq' : (r', c' + 1) = (r, c)
      · obtain ⟨rfl, rfl⟩ := Prod.mk.inj heq'
        rw [Function.update_self]
        exact hprevH c' rfl
      · rw [Function.update_of_ne heq', hframeH _ heq]
        · exact h.horz r' c' hr' hc'
        · rintro c'' rfl heq''
          obtain ⟨rfl, rfl⟩ := Prod.mk.inj heq''
          exact heq' rfl
  vert r' c' hr' hc' := by
    show VertLink p c' (vert (r', c')) (Function.update s.pe (r, c) pe' (r', c'))
      (Function.update s.pe (r, c) pe' (r' + 1, c'))
    by_cases heq : (r', c') = (r, c)
    · obtain ⟨rfl, rfl⟩ := Prod.mk.inj heq
      rw [Function.update_self, Function.update_of_ne (by simp)]
      exact hnextV hr'
    · rw [Function.update_of_ne heq]
      by_cases heq' : (r' + 1, c') = (r, c)
      · obtain ⟨rfl, rfl⟩ := Prod.mk.inj heq'
        rw [Function.update_self]
        exact hprevV r' rfl
      · rw [Function.update_of_ne heq', hframeV _ heq]
        · exact h.vert r' c' hr' hc'
        · rintro r'' rfl heq''
          obtain ⟨rfl, rfl⟩ := Prod.mk.inj heq''
          exact heq' rfl
  cells := hcells

/-- Only the queue moves. -/
theorem SystolicInv.horzQueue (h : SystolicInv p s) (hlink : HorzLink p r q (s.pe (r, c))
    (s.pe (r, c + 1))) : SystolicInv p { s with horz := Function.update s.horz (r, c) q } where
  pe := h.pe
  horz r' c' hr' hc' := by
    show HorzLink p r' (Function.update s.horz (r, c) q (r', c')) _ _
    by_cases heq : (r', c') = (r, c)
    · obtain ⟨rfl, rfl⟩ := Prod.mk.inj heq
      rw [Function.update_self]
      exact hlink
    · rw [Function.update_of_ne heq]
      exact h.horz r' c' hr' hc'
  vert := h.vert
  cells := h.cells

theorem SystolicInv.vertQueue (h : SystolicInv p s) (hlink : VertLink p c q (s.pe (r, c))
    (s.pe (r + 1, c))) : SystolicInv p { s with vert := Function.update s.vert (r, c) q } where
  pe := h.pe
  horz := h.horz
  vert r' c' hr' hc' := by
    show VertLink p c' (Function.update s.vert (r, c) q (r', c')) _ _
    by_cases heq : (r', c') = (r, c)
    · obtain ⟨rfl, rfl⟩ := Prod.mk.inj heq
      rw [Function.update_self]
      exact hlink
    · rw [Function.update_of_ne heq]
      exact h.vert r' c' hr' hc'
  cells := h.cells

/-- A move that stores nothing new. -/
theorem CellsOk.keep {pes : Nat × Nat → Pe} {matrixC : Nat → BitVec 32}
    (h : CellsOk p pes matrixC)
    (hstored : ∀ ty tx, tx < p.tilesX → p.Inside r c ty tx → ∀ k,
      pe'.Stored (ty * p.tilesX + tx) k → (pes (r, c)).Stored (ty * p.tilesX + tx) k) :
    CellsOk p (Function.update pes (r, c) pe') matrixC := by
  intro r' c' hr' hc' ty tx htx hin k hk
  by_cases heq : (r', c') = (r, c)
  · obtain ⟨rfl, rfl⟩ := Prod.mk.inj heq
    rw [Function.update_self] at hk
    exact h r' c' hr' hc' ty tx htx hin k (hstored ty tx htx hin k hk)
  · rw [Function.update_of_ne heq] at hk
    exact h r' c' hr' hc' ty tx htx hin k hk

/-- The operations that use no queue. -/
def PeOp.Local : PeOp → Prop
  | .popHorz | .popVert | .pushHorz | .pushVert => False
  | _ => True

/-- Before the first pop of a round. -/
def PeOp.Between : PeOp → Prop
  | .popVert | .pushHorz | .pushVert | .mac => False
  | _ => True

theorem Pe.between_views (h : pe.op.Between) :
    pe.sentHorz = pe.rounds ∧ pe.gotHorz = pe.rounds ∧ pe.sentVert = pe.rounds ∧
      pe.gotVert = pe.rounds := by
  simp only [sentHorz, gotHorz, sentVert, gotVert]
  cases hop : pe.op with
  | popVert | pushHorz | pushVert | mac =>
      rw [hop] at h
      exact h.elim
  | _ => exact ⟨rfl, rfl, rfl, rfl⟩

theorem Pe.local_views (h : pe.op.Local) :
    pe.pushesHorz = none ∧ pe.popsHorz = false ∧ pe.pushesVert = none ∧ pe.popsVert = false := by
  simp only [pushesHorz, popsHorz, pushesVert, popsVert]
  cases hop : pe.op with
  | popHorz | popVert | pushHorz | pushVert =>
      rw [hop] at h
      exact h.elim
  | _ => exact ⟨rfl, rfl, rfl, rfl⟩

/-- What the local computation can do. -/
inductive LocalStep (p : SystolicParams) (prog : PeProgram) (pe : Pe) : Pe → Prop
  | row (hop : pe.op = .rowLoop) (hy : pe.y < p.numRowsC) :
      LocalStep p prog pe { pe with op := .colLoop, x := 0 }
  | finish (hop : pe.op = .rowLoop) : LocalStep p prog pe { pe with op := .done }
  | inside (hop : pe.op = .colLoop) (hx : pe.x < p.numColsC) :
      LocalStep p prog pe { pe with op := .repLoop, stage := .inside, i := 0, curr := fun _ => 0 }
  | outside (hop : pe.op = .colLoop) (hx : pe.x < p.numColsC) :
      LocalStep p prog pe { pe with op := .repLoop, stage := .outside, i := 0 }
  | rowEnd (hop : pe.op = .colLoop) (hx : ¬ pe.x < p.numColsC) :
      LocalStep p prog pe { pe with op := .rowLoop, y := u32 (pe.y + 2 * p.systolicSize) }
  | round (hop : pe.op = .repLoop) (hstage : pe.stage = .inside)
      (hi : pe.i < u32 (prog.iStep * p.repCount)) : LocalStep p prog pe { pe with op := .load }
  | tileEnd (hop : pe.op = .repLoop) (hstage : pe.stage = .inside)
      (hi : ¬ pe.i < u32 (prog.iStep * p.repCount)) : LocalStep p prog pe { pe with op := .store 0 }
  | dummy (hop : pe.op = .repLoop) (hstage : pe.stage ≠ .inside) (hi : pe.i < p.repCount) :
      LocalStep p prog pe { pe with op := .popHorz }
  | dummyEnd (hop : pe.op = .repLoop) (hstage : pe.stage ≠ .inside) (hi : ¬ pe.i < p.repCount) :
      LocalStep p prog pe (p.nextTile pe)
  | load (hop : pe.op = .load) (dataHorz dataVert : Entry (BitVec 32)) :
      LocalStep p prog pe { pe with op := .popHorz, dataHorz := dataHorz, dataVert := dataVert }
  | start (hop : pe.op = .mac) :
      LocalStep p prog pe { pe with op := .rowLoop, y := 0, rounds := pe.rounds + 1 }
  | mac (hop : pe.op = .mac) (i : Nat) (curr : Fin 4 → BitVec 32) :
      LocalStep p prog pe
        { pe with op := .repLoop, i := i, curr := curr, rounds := pe.rounds + 1 }
  | store (k : Fin 4) (hop : pe.op = .store k) (hk : k.val + 1 < 4) :
      LocalStep p prog pe { pe with op := .store ⟨k + 1, hk⟩ }
  | storeEnd (k : Fin 4) (hop : pe.op = .store k) (hk : ¬ k.val + 1 < 4) :
      LocalStep p prog pe (p.nextTile pe)
  | done (hop : pe.op = .done) : LocalStep p prog pe pe

theorem localStep (prog : PeProgram) (h : pe.op.Local) :
    LocalStep p prog pe (p.stepLocal prog pe) := by
  rw [SystolicParams.stepLocal]
  cases hop : pe.op with
  | popHorz | popVert | pushHorz | pushVert =>
      rw [hop] at h
      exact h.elim
  | rowLoop =>
      simp only
      split
      · exact .row hop ‹_›
      · exact .finish hop
  | colLoop =>
      simp only
      split
      · split
        · exact .inside hop ‹_›
        · exact .outside hop ‹_›
      · exact .rowEnd hop ‹_›
  | repLoop =>
      simp only
      split
      · split
        · exact .round hop ‹_› ‹_›
        · exact .tileEnd hop ‹_› ‹_›
      · split
        · exact .dummy hop ‹_› ‹_›
        · exact .dummyEnd hop ‹_› ‹_›
  | load => exact .load hop _ _
  | mac =>
      simp only
      split
      · exact .start hop
      · exact .mac hop _ _
      · exact .mac hop _ _
  | store k =>
      simp only
      split
      · exact .store k hop _
      · exact .storeEnd k hop ‹_›
  | done => exact .done hop

/-- Afterwards an element is at the start of a round, which is the next one after the MACs. -/
theorem LocalStep.between {prog : PeProgram} (h : LocalStep p prog pe pe') :
    pe'.op.Between ∧ pe'.rounds = pe.sentHorz ∧ pe'.rounds = pe.gotHorz ∧
      pe'.rounds = pe.sentVert ∧ pe'.rounds = pe.gotVert := by
  simp only [Pe.sentHorz, Pe.gotHorz, Pe.sentVert, Pe.gotVert]
  cases h with
  | store k hop | storeEnd k hop =>
      rw [hop]
      exact ⟨trivial, rfl, rfl, rfl, rfl⟩
  | done hop =>
      rw [hop]
      exact ⟨trivial, rfl, rfl, rfl, rfl⟩
  | row hop | finish hop | inside hop | outside hop | rowEnd hop | round hop | tileEnd hop
  | dummy hop | dummyEnd hop | load hop | start hop | mac hop =>
      rw [hop]
      exact ⟨trivial, rfl, rfl, rfl, rfl⟩

/-- A tile has one number. -/
theorem Pe.At.tile_inj {ty tx ty' tx' it : Nat} (hat : pe.At p r c ty' tx' it)
    (htx : tx < p.tilesX) (heq : ty * p.tilesX + tx = pe.tiles) : ty = ty' ∧ tx = tx' := by
  rw [hat.tiles, Nat.mul_comm ty, Nat.mul_comm ty'] at heq
  exact Lib.Ring.word_inj htx hat.tx_lt heq

/-- What a move stores: after `op` is `.store k`, element `k` of the tile, and else nothing
that is inside of `C`. -/
theorem PeInv.stored (hinv : PeInv p r c pe) {ty tx : Nat} (htx : tx < p.tilesX)
    (hin : p.Inside r c ty tx) {k : Fin 4}
    {prog : PeProgram} (h : LocalStep p prog pe pe')
    (hstored : pe'.Stored (ty * p.tilesX + tx) k) :
    pe.Stored (ty * p.tilesX + tx) k ∨ pe.op = .store k ∧ pe.At p r c ty tx p.repCount := by
  have hlast : ∀ j, pe.op = .store j → ty * p.tilesX + tx = pe.tiles → k ≤ j →
      pe.Stored (ty * p.tilesX + tx) k ∨ pe.op = .store k ∧ pe.At p r c ty tx p.repCount := by
    intro j hop heq hkj
    rcases Nat.lt_or_eq_of_le hkj with hlt | hkj
    · exact .inl (.inr ⟨heq, j, hop, hlt⟩)
    · obtain rfl := Fin.ext hkj
      have hplace := hinv.place
      rw [hop] at hplace
      obtain ⟨ty', tx', hat, -⟩ := hplace
      obtain ⟨rfl, rfl⟩ := hat.tile_inj htx heq
      exact .inr ⟨hop, hat⟩
  cases h with
  | store j hop hk =>
      rcases hstored with hlt | ⟨heq, i, hi, hki⟩
      · exact .inl (.inl hlt)
      · obtain rfl : (⟨j + 1, hk⟩ : Fin 4) = i := PeOp.store.inj hi
        exact hlast j hop heq (Nat.le_of_lt_succ hki)
  | storeEnd j hop hk =>
      rcases hstored with hlt | ⟨-, i, hi, -⟩
      · rcases Nat.lt_succ_iff_lt_or_eq.mp hlt with hlt | heq
        · exact .inl (.inl hlt)
        · have := k.isLt
          exact hlast j hop heq (Fin.le_def.mpr (by omega))
      · cases hi
  | dummyEnd hop hstage hi =>
      rcases hstored with hlt | ⟨-, i, hi, -⟩
      · rcases Nat.lt_succ_iff_lt_or_eq.mp hlt with hlt | heq
        · exact .inl (.inl hlt)
        · have hplace := hinv.place
          rw [hop] at hplace
          obtain ⟨ty', tx', it, hat⟩ := hplace
          obtain ⟨rfl, rfl⟩ := hat.tile_inj htx heq
          exact absurd (hat.inside hin).1 hstage
      · cases hi
  | tileEnd hop =>
      rcases hstored with hlt | ⟨-, j, hj, hk⟩
      · exact .inl (.inl hlt)
      · obtain rfl : (0 : Fin 4) = j := PeOp.store.inj hj
        exact absurd hk (Fin.not_lt_zero k)
  | row hop | finish hop | inside hop | outside hop | rowEnd hop | round hop
  | dummy hop | load hop | start hop | mac hop =>
      rcases hstored with hlt | ⟨-, j, hj, -⟩
      · exact .inl (.inl hlt)
      · cases hj
  | done => exact .inl hstored

theorem u32_add_left (a b : Nat) : u32 (u32 a + b) = u32 (a + b) := Nat.mod_add_mod _ _ _

/-- Where the four sums go. -/
theorem anchor_eq (hp : p.Sized) (hr : r < p.systolicSize) (hc : c < p.systolicSize)
    {ty tx it : Nat} (hat : pe.At p r c ty tx it) (k : Fin 4) :
    p.anchor (peProgram p.systolicSize r c) pe k =
      index p.numColsC (p.side * ty + 2 * r + k.val / 2) (p.side * tx + 2 * c + k.val % 2) := by
  rw [SystolicParams.anchor, shiftedY_eq hp hr hat.ty_lt hat.y, shiftedX_eq hp hc hat.tx_lt hat.x]
  generalize p.side * ty + 2 * r = y
  generalize p.side * tx + 2 * c = x
  simp only [index, u32_add_left]
  match k with
  | 0 => rfl
  | 1 => rfl
  | 2 =>
      show u32 (y * p.numColsC + x + p.numColsC) = u32 ((y + 1) * p.numColsC + x)
      rw [Nat.succ_mul, Nat.add_right_comm]
  | 3 =>
      show u32 (y * p.numColsC + x + p.numColsC + 1) = u32 ((y + 1) * p.numColsC + (x + 1))
      rw [Nat.succ_mul, Nat.add_right_comm (y * p.numColsC), Nat.add_assoc _ _ 1]

/-- An element of `C` inside has its row and its column in `C`. -/
theorem Inside.cell {p : SystolicParams} (hp : p.Sized) {ty tx : Nat} (h : p.Inside r c ty tx)
    (k : Fin 4) : p.side * ty + 2 * r + k.val / 2 < p.numRowsC ∧
      p.side * tx + 2 * c + k.val % 2 < p.numColsC := by
  obtain ⟨hrow, hcol⟩ := h
  have := hp.rows_even
  have := hp.cols_even
  have hk := k.isLt
  rw [SystolicParams.side, Nat.mul_assoc] at hrow hcol ⊢
  rw [Nat.mul_assoc]
  omega

/-- A store. -/
theorem CellsOk.store (h : CellsOk p s.pe s.matrixC) (hp : p.Sized) (hr : r < p.systolicSize)
    (hc : c < p.systolicSize) (hinv : PeInv p r c (s.pe (r, c))) {k : Fin 4}
    (hop : (s.pe (r, c)).op = .store k) {prog : PeProgram}
    (hstep : LocalStep p prog (s.pe (r, c)) pe') :
    CellsOk p (Function.update s.pe (r, c) pe')
      (Function.update s.matrixC (p.anchor (peProgram p.systolicSize r c) (s.pe (r, c)) k)
        ((s.pe (r, c)).curr k)) := by
  have hplace := hinv.place
  rw [hop] at hplace
  obtain ⟨ty₀, tx₀, hat, hin₀⟩ := hplace
  rw [anchor_eq hp hr hc hat k, (hat.inside hin₀).2.2 k]
  have hrows := hp.rows_le
  have hcell₀ := Inside.cell hp hin₀ k
  intro r' c' hr' hc' ty tx htx hin j hj
  have hcell := Inside.cell hp hin j
  by_cases heq : index p.numColsC (p.side * ty + 2 * r' + j.val / 2)
      (p.side * tx + 2 * c' + j.val % 2) =
    index p.numColsC (p.side * ty₀ + 2 * r + k.val / 2) (p.side * tx₀ + 2 * c + k.val % 2)
  · -- one address is of one row and column
    obtain ⟨hrow, hcol⟩ := index_inj hp.cols_le (by omega) hcell.2 (by omega) hcell₀.2 heq
    rw [heq, Function.update_self, hrow, hcol]
  · rw [Function.update_of_ne heq]
    refine h r' c' hr' hc' ty tx htx hin j ?_
    by_cases hrc : (r', c') = (r, c)
    · obtain ⟨rfl, rfl⟩ := Prod.mk.inj hrc
      rw [Function.update_self] at hj
      rcases hinv.stored htx hin hstep hj with hold | ⟨hop', hat'⟩
      · exact hold
      · obtain rfl : k = j := PeOp.store.inj (hop.symm.trans hop')
        obtain ⟨rfl, rfl⟩ := hat.tile_inj htx hat'.tiles.symm
        exact absurd rfl heq
    · rwa [Function.update_of_ne hrc] at hj

theorem PeInv.stepLocal (h : PeInv p r c pe) (hp : p.Sized) (hr : r < p.systolicSize)
    (hc : c < p.systolicSize) (hop : pe.op.Local) :
    PeInv p r c (p.stepLocal (peProgram p.systolicSize r c) pe) := by
  cases hop' : pe.op with
  | popHorz | popVert | pushHorz | pushVert =>
      rw [hop'] at hop
      exact hop.elim
  | rowLoop => exact h.rowLoop hp hop'
  | colLoop => exact h.colLoop hp hr hc hop'
  | repLoop => exact h.repLoop hp hop'
  | load => exact h.load hp hr hc hop'
  | mac => exact h.mac hp hop'
  | store k => exact h.store hp hop'
  | done =>
      rw [SystolicParams.stepLocal, hop']
      exact h

theorem step_local_eq (hop : (s.pe (r, c)).op.Local) :
    p.step s (r, c) =
      { pe := Function.update s.pe (r, c)
          (p.stepLocal (peProgram p.systolicSize r c) (s.pe (r, c)))
        horz := s.horz
        vert := s.vert
        matrixC := match (s.pe (r, c)).op with
          | .store k =>
              Function.update s.matrixC
                (p.anchor (peProgram p.systolicSize r c) (s.pe (r, c)) k) ((s.pe (r, c)).curr k)
          | _ => s.matrixC } := by
  rw [SystolicParams.step]
  cases hop' : (s.pe (r, c)).op with
  | popHorz | popVert | pushHorz | pushVert =>
      rw [hop'] at hop
      exact hop.elim
  | _ => rfl

theorem SystolicInv.step_local (h : SystolicInv p s) (hp : p.Sized) (hr : r < p.systolicSize)
    (hc : c < p.systolicSize) (hop : (s.pe (r, c)).op.Local) : SystolicInv p (p.step s (r, c)) := by
  have hinv := h.pe r c hr hc
  have hstep := localStep (p := p) (peProgram p.systolicSize r c) hop
  obtain ⟨hbetween, hsentH, hgotH, hsentV, hgotV⟩ := hstep.between
  obtain ⟨hsentH', hgotH', hsentV', hgotV'⟩ := Pe.between_views hbetween
  obtain ⟨hpushH, hpopH, hpushV, hpopV⟩ := Pe.local_views hop
  rw [step_local_eq hop]
  refine h.update (hinv.stepLocal hp hr hc hop) (fun _ _ _ => rfl) (fun _ _ _ => rfl)
    (fun c' hc' => ?_) (fun hc' => ?_) (fun r' hr' => ?_) (fun hr' => ?_) ?_
  · subst hc'
    exact (h.horz r c' hr hc).right (hgotH'.trans hgotH) (.inl hpopH)
  · exact (h.horz r c hr hc').left (hsentH'.trans hsentH) (.inl hpushH)
  · subst hr'
    exact (h.vert r' c hr hc).below (hgotV'.trans hgotV) (.inl hpopV)
  · exact (h.vert r c hr' hc).above (hsentV'.trans hsentV) (.inl hpushV)
  · split
    · exact h.cells.store hp hr hc hinv ‹_› hstep
    · rename_i hne
      refine h.cells.keep fun ty tx htx hin k hk => ?_
      exact (hinv.stored htx hin hstep hk).resolve_right fun hs => hne k hs.1

/-! ### Pops and pushes -/

/-- What a pop can do: an element without the queue, or with the entry it has popped, goes
on; else only its call does, or waits for an entry. -/
theorem popHorz_cases (h : SystolicInv p s) (hp : p.Sized) (hr : r < p.systolicSize)
    (hc : c < p.systolicSize) (hop : (s.pe (r, c)).op = .popHorz) :
    (c = 0 ∧ p.step s (r, c) =
      { s with pe := Function.update s.pe (r, c) { s.pe (r, c) with op := .popVert } }) ∨
    ∃ c', c = c' + 1 ∧ ∃ q,
      (∃ x, p.HorzOk r (s.pe (r, c)).rounds x ∧
        HorzLink p r q (s.pe (r, c')) { s.pe (r, c) with op := .popVert, dataHorz := x } ∧
        callPhase (s.horz (r, c')) ≤ callPhase q + 8 ∧
        p.step s (r, c) =
          { s with
            pe := Function.update s.pe (r, c) { s.pe (r, c) with op := .popVert, dataHorz := x }
            horz := Function.update s.horz (r, c') q }) ∨
      (HorzLink p r q (s.pe (r, c')) (s.pe (r, c)) ∧
        p.step s (r, c) = { s with horz := Function.update s.horz (r, c') q } ∧
        (callPhase (s.horz (r, c')) < callPhase q ∨
          q = s.horz (r, c') ∧ (s.pe (r, c')).sentHorz = (s.pe (r, c)).rounds)) := by
  have hlocal : p.stepLocal (peProgram p.systolicSize r c) (s.pe (r, c)) =
      { s.pe (r, c) with op := .popVert } := by
    rw [SystolicParams.stepLocal, hop]
  have hprog : (peProgram p.systolicSize r c).prevHorz = decide (c ≠ 0) := by
    rw [peProgram_eq hp.two_le]
  rw [SystolicParams.step]
  simp only [hop, hlocal, hprog]
  cases c with
  | zero => exact .inl ⟨rfl, rfl⟩
  | succ c =>
      have hlink : Link p.xqueueSize (p.HorzOk r) (s.horz (r, c)) (s.pe (r, c)).sentHorz
          (s.pe (r, c)).pushesHorz (s.pe (r, c + 1)).rounds true := by
        simpa [HorzLink, Pe.gotHorz, Pe.popsHorz, hop] using h.horz r c hr hc
      have hprev : decide (c + 1 ≠ 0) = true := decide_eq_true (Nat.succ_ne_zero c)
      simp only [hprev, if_true, Nat.add_sub_cancel]
      refine .inr ⟨c, rfl, (s.horz (r, c)).stepPop p.xqueueSize true, ?_⟩
      by_cases hlast : ∃ x, (s.horz (r, c)).consumer = .fetchSub x
      · obtain ⟨x, hx⟩ := hlast
        obtain ⟨hnext, hvalid⟩ := hlink.stepPop_last hp.xqueueSize_lt hp.xqueueSize_pos hx
        refine .inl ⟨x, hvalid, hnext, callPhase_stepPop _ _ _, ?_⟩
        simp only [hx]
      · obtain ⟨hnext, hphase⟩ := hlink.stepPop hp.xqueueSize_lt hp.xqueueSize_pos
          fun x hx => hlast ⟨x, hx⟩
        refine .inr ⟨?_, ?_, hphase⟩
        · simpa [HorzLink, Pe.gotHorz, Pe.popsHorz, hop] using hnext
        · split
          · exact absurd ⟨_, ‹_›⟩ hlast
          · rfl

theorem popVert_cases (h : SystolicInv p s) (hp : p.Sized) (hr : r < p.systolicSize)
    (hc : c < p.systolicSize) (hop : (s.pe (r, c)).op = .popVert) :
    (r = 0 ∧ p.step s (r, c) =
      { s with pe := Function.update s.pe (r, c) { s.pe (r, c) with op := .pushHorz } }) ∨
    ∃ r', r = r' + 1 ∧ ∃ q,
      (∃ x, p.VertOk c (s.pe (r, c)).rounds x ∧
        VertLink p c q (s.pe (r', c)) { s.pe (r, c) with op := .pushHorz, dataVert := x } ∧
        callPhase (s.vert (r', c)) ≤ callPhase q + 8 ∧
        p.step s (r, c) =
          { s with
            pe := Function.update s.pe (r, c) { s.pe (r, c) with op := .pushHorz, dataVert := x }
            vert := Function.update s.vert (r', c) q }) ∨
      (VertLink p c q (s.pe (r', c)) (s.pe (r, c)) ∧
        p.step s (r, c) = { s with vert := Function.update s.vert (r', c) q } ∧
        (callPhase (s.vert (r', c)) < callPhase q ∨
          q = s.vert (r', c) ∧ (s.pe (r', c)).sentVert = (s.pe (r, c)).rounds)) := by
  have hlocal : p.stepLocal (peProgram p.systolicSize r c) (s.pe (r, c)) =
      { s.pe (r, c) with op := .pushHorz } := by
    rw [SystolicParams.stepLocal, hop]
  have hprog : (peProgram p.systolicSize r c).prevVert = decide (r ≠ 0) := by
    rw [peProgram_eq hp.two_le]
  rw [SystolicParams.step]
  simp only [hop, hlocal, hprog]
  cases r with
  | zero => exact .inl ⟨rfl, rfl⟩
  | succ r =>
      have hlink : Link p.xqueueSize (p.VertOk c) (s.vert (r, c)) (s.pe (r, c)).sentVert
          (s.pe (r, c)).pushesVert (s.pe (r + 1, c)).rounds true := by
        simpa [VertLink, Pe.gotVert, Pe.popsVert, hop] using h.vert r c hr hc
      have hprev : decide (r + 1 ≠ 0) = true := decide_eq_true (Nat.succ_ne_zero r)
      simp only [hprev, if_true, Nat.add_sub_cancel]
      refine .inr ⟨r, rfl, (s.vert (r, c)).stepPop p.xqueueSize true, ?_⟩
      by_cases hlast : ∃ x, (s.vert (r, c)).consumer = .fetchSub x
      · obtain ⟨x, hx⟩ := hlast
        obtain ⟨hnext, hvalid⟩ := hlink.stepPop_last hp.xqueueSize_lt hp.xqueueSize_pos hx
        refine .inl ⟨x, hvalid, hnext, callPhase_stepPop _ _ _, ?_⟩
        simp only [hx]
      · obtain ⟨hnext, hphase⟩ := hlink.stepPop hp.xqueueSize_lt hp.xqueueSize_pos
          fun x hx => hlast ⟨x, hx⟩
        refine .inr ⟨?_, ?_, hphase⟩
        · simpa [VertLink, Pe.gotVert, Pe.popsVert, hop] using hnext
        · split
          · exact absurd ⟨_, ‹_›⟩ hlast
          · rfl

/-- A push waits for room. -/
theorem pushHorz_cases (h : SystolicInv p s) (hp : p.Sized) (hr : r < p.systolicSize)
    (hc : c < p.systolicSize) (hop : (s.pe (r, c)).op = .pushHorz) :
    (¬ c + 1 < p.systolicSize ∧ p.step s (r, c) =
      { s with pe := Function.update s.pe (r, c) { s.pe (r, c) with op := .pushVert } }) ∨
    c + 1 < p.systolicSize ∧ ∃ q,
      (HorzLink p r q { s.pe (r, c) with op := .pushVert } (s.pe (r, c + 1)) ∧
        callPhase (s.horz (r, c)) ≤ callPhase q + 8 ∧
        p.step s (r, c) =
          { s with
            pe := Function.update s.pe (r, c) { s.pe (r, c) with op := .pushVert }
            horz := Function.update s.horz (r, c) q }) ∨
      (HorzLink p r q (s.pe (r, c)) (s.pe (r, c + 1)) ∧
        p.step s (r, c) = { s with horz := Function.update s.horz (r, c) q } ∧
        (callPhase (s.horz (r, c)) < callPhase q ∨
          q = s.horz (r, c) ∧
            (s.pe (r, c)).rounds = (s.pe (r, c + 1)).gotHorz + p.xqueueSize)) := by
  have hlocal : p.stepLocal (peProgram p.systolicSize r c) (s.pe (r, c)) =
      { s.pe (r, c) with op := .pushVert } := by
    rw [SystolicParams.stepLocal, hop]
  have hprog : (peProgram p.systolicSize r c).nextHorz = decide (c ≠ p.systolicSize - 1) := by
    rw [peProgram_eq hp.two_le]
  rw [SystolicParams.step]
  simp only [hop, hlocal, hprog]
  by_cases hnext : c + 1 < p.systolicSize
  · have hlink : Link p.xqueueSize (p.HorzOk r) (s.horz (r, c)) (s.pe (r, c)).rounds
        (some (s.pe (r, c)).dataHorz) (s.pe (r, c + 1)).gotHorz (s.pe (r, c + 1)).popsHorz := by
      simpa [HorzLink, Pe.sentHorz, Pe.pushesHorz, hop] using h.horz r c hr hnext
    have hprog' : decide (c ≠ p.systolicSize - 1) = true := decide_eq_true (by omega)
    simp only [hprog', if_true]
    refine .inr ⟨hnext, (s.horz (r, c)).stepPush p.xqueueSize true (s.pe (r, c)).dataHorz, ?_⟩
    by_cases hlast : ∃ x, (s.horz (r, c)).producer = .fetchAdd x
    · obtain ⟨x, hx⟩ := hlast
      have hvalid := (h.pe r c hr hc).horz (by rw [hop]; trivial)
      refine .inl ⟨hlink.stepPush_last hp.xqueueSize_lt hp.xqueueSize_pos hvalid hx,
        callPhase_stepPush _ _ _ _, ?_⟩
      simp only [hx]
    · obtain ⟨hafter, hphase⟩ := hlink.stepPush hp.xqueueSize_lt hp.xqueueSize_pos
        fun x hx => hlast ⟨x, hx⟩
      refine .inr ⟨?_, ?_, hphase⟩
      · simpa [HorzLink, Pe.sentHorz, Pe.pushesHorz, hop] using hafter
      · split
        · exact absurd ⟨_, ‹_›⟩ hlast
        · rfl
  · have hprog' : decide (c ≠ p.systolicSize - 1) = false := decide_eq_false (by omega)
    simp only [hprog']
    exact .inl ⟨hnext, rfl⟩

theorem pushVert_cases (h : SystolicInv p s) (hp : p.Sized) (hr : r < p.systolicSize)
    (hc : c < p.systolicSize) (hop : (s.pe (r, c)).op = .pushVert) :
    (¬ r + 1 < p.systolicSize ∧ p.step s (r, c) =
      { s with pe := Function.update s.pe (r, c) { s.pe (r, c) with op := .mac } }) ∨
    r + 1 < p.systolicSize ∧ ∃ q,
      (VertLink p c q { s.pe (r, c) with op := .mac } (s.pe (r + 1, c)) ∧
        callPhase (s.vert (r, c)) ≤ callPhase q + 8 ∧
        p.step s (r, c) =
          { s with
            pe := Function.update s.pe (r, c) { s.pe (r, c) with op := .mac }
            vert := Function.update s.vert (r, c) q }) ∨
      (VertLink p c q (s.pe (r, c)) (s.pe (r + 1, c)) ∧
        p.step s (r, c) = { s with vert := Function.update s.vert (r, c) q } ∧
        (callPhase (s.vert (r, c)) < callPhase q ∨
          q = s.vert (r, c) ∧
            (s.pe (r, c)).rounds = (s.pe (r + 1, c)).gotVert + p.xqueueSize)) := by
  have hlocal : p.stepLocal (peProgram p.systolicSize r c) (s.pe (r, c)) =
      { s.pe (r, c) with op := .mac } := by
    rw [SystolicParams.stepLocal, hop]
  have hprog : (peProgram p.systolicSize r c).nextVert = decide (r ≠ p.systolicSize - 1) := by
    rw [peProgram_eq hp.two_le]
  rw [SystolicParams.step]
  simp only [hop, hlocal, hprog]
  by_cases hnext : r + 1 < p.systolicSize
  · have hlink : Link p.xqueueSize (p.VertOk c) (s.vert (r, c)) (s.pe (r, c)).rounds
        (some (s.pe (r, c)).dataVert) (s.pe (r + 1, c)).gotVert (s.pe (r + 1, c)).popsVert := by
      simpa [VertLink, Pe.sentVert, Pe.pushesVert, hop] using h.vert r c hnext hc
    have hprog' : decide (r ≠ p.systolicSize - 1) = true := decide_eq_true (by omega)
    simp only [hprog', if_true]
    refine .inr ⟨hnext, (s.vert (r, c)).stepPush p.xqueueSize true (s.pe (r, c)).dataVert, ?_⟩
    by_cases hlast : ∃ x, (s.vert (r, c)).producer = .fetchAdd x
    · obtain ⟨x, hx⟩ := hlast
      have hvalid := (h.pe r c hr hc).vert (by rw [hop]; trivial)
      refine .inl ⟨hlink.stepPush_last hp.xqueueSize_lt hp.xqueueSize_pos hvalid hx,
        callPhase_stepPush _ _ _ _, ?_⟩
      simp only [hx]
    · obtain ⟨hafter, hphase⟩ := hlink.stepPush hp.xqueueSize_lt hp.xqueueSize_pos
        fun x hx => hlast ⟨x, hx⟩
      refine .inr ⟨?_, ?_, hphase⟩
      · simpa [VertLink, Pe.sentVert, Pe.pushesVert, hop] using hafter
      · split
        · exact absurd ⟨_, ‹_›⟩ hlast
        · rfl
  · have hprog' : decide (r ≠ p.systolicSize - 1) = false := decide_eq_false (by omega)
    simp only [hprog']
    exact .inl ⟨hnext, rfl⟩

theorem CellsOk.pass {pes : Nat × Nat → Pe} {matrixC : Nat → BitVec 32}
    (h : CellsOk p pes matrixC) (htiles : pe'.tiles = (pes (r, c)).tiles)
    (hop : ∀ k, pe'.op ≠ .store k) : CellsOk p (Function.update pes (r, c) pe') matrixC := by
  refine h.keep fun ty tx _ _ k hk => ?_
  rcases hk with hlt | ⟨-, j, hj, -⟩
  · exact .inl (htiles ▸ hlt)
  · exact absurd hj (hop j)

theorem SystolicInv.step_popHorz (h : SystolicInv p s) (hp : p.Sized) (hr : r < p.systolicSize)
    (hc : c < p.systolicSize) (hop : (s.pe (r, c)).op = .popHorz) :
    SystolicInv p (p.step s (r, c)) := by
  have hinv := h.pe r c hr hc
  have hnextH : ∀ x, c + 1 < p.systolicSize → HorzLink p r (s.horz (r, c))
      { s.pe (r, c) with op := .popVert, dataHorz := x } (s.pe (r, c + 1)) := fun x hc' =>
    (h.horz r c hr hc').left (by simp [Pe.sentHorz, hop]) (.inl (by simp [Pe.pushesHorz, hop]))
  have hprevV : ∀ x r', r = r' + 1 → VertLink p c (s.vert (r', c)) (s.pe (r', c))
      { s.pe (r, c) with op := .popVert, dataHorz := x } := by
    rintro x r' rfl
    exact (h.vert r' c hr hc).below (by simp [Pe.gotVert, hop]) (.inl (by simp [Pe.popsVert, hop]))
  have hnextV : ∀ x, r + 1 < p.systolicSize → VertLink p c (s.vert (r, c))
      { s.pe (r, c) with op := .popVert, dataHorz := x } (s.pe (r + 1, c)) := fun x hr' =>
    (h.vert r c hr' hc).above (by simp [Pe.sentVert, hop]) (.inl (by simp [Pe.pushesVert, hop]))
  rcases popHorz_cases h hp hr hc hop with
    ⟨rfl, heq⟩ | ⟨c', rfl, q, ⟨x, hx, hlink, -, heq⟩ | ⟨hlink, heq, -⟩⟩
  · rw [heq]
    exact h.update (hinv.popHorz hop (hinv.horz (by rw [hop]; rfl))) (fun _ _ _ => rfl)
      (fun _ _ _ => rfl) (fun c' hc' => nomatch hc') (hnextH _) (hprevV _) (hnextV _)
      (h.cells.pass rfl fun _ => nofun)
  · rw [heq]
    refine h.update (hinv.popHorz hop hx) (fun y _ hy => Function.update_of_ne (hy c' rfl) _ _)
      (fun _ _ _ => rfl) ?_ ?_ (hprevV x) (hnextV x) (h.cells.pass rfl fun _ => nofun)
    · intro c'' hc''
      cases hc''
      rw [Function.update_self]
      exact hlink
    · rw [Function.update_of_ne (by simp)]
      exact hnextH x
  · rw [heq]
    exact h.horzQueue hlink

theorem SystolicInv.step_popVert (h : SystolicInv p s) (hp : p.Sized) (hr : r < p.systolicSize)
    (hc : c < p.systolicSize) (hop : (s.pe (r, c)).op = .popVert) :
    SystolicInv p (p.step s (r, c)) := by
  have hinv := h.pe r c hr hc
  have hprevH : ∀ x c', c = c' + 1 → HorzLink p r (s.horz (r, c')) (s.pe (r, c'))
      { s.pe (r, c) with op := .pushHorz, dataVert := x } := by
    rintro x c' rfl
    exact (h.horz r c' hr hc).right (by simp [Pe.gotHorz, hop]) (.inl (by simp [Pe.popsHorz, hop]))
  have hnextH : ∀ x, c + 1 < p.systolicSize → HorzLink p r (s.horz (r, c))
      { s.pe (r, c) with op := .pushHorz, dataVert := x } (s.pe (r, c + 1)) := fun x hc' =>
    (h.horz r c hr hc').left (by simp [Pe.sentHorz, hop]) (.inl (by simp [Pe.pushesHorz, hop]))
  have hnextV : ∀ x, r + 1 < p.systolicSize → VertLink p c (s.vert (r, c))
      { s.pe (r, c) with op := .pushHorz, dataVert := x } (s.pe (r + 1, c)) := fun x hr' =>
    (h.vert r c hr' hc).above (by simp [Pe.sentVert, hop]) (.inl (by simp [Pe.pushesVert, hop]))
  rcases popVert_cases h hp hr hc hop with
    ⟨rfl, heq⟩ | ⟨r', rfl, q, ⟨x, hx, hlink, -, heq⟩ | ⟨hlink, heq, -⟩⟩
  · rw [heq]
    exact h.update (hinv.popVert hop (hinv.vert (by rw [hop]; rfl))) (fun _ _ _ => rfl)
      (fun _ _ _ => rfl) (hprevH _) (hnextH _) (fun r' hr' => nomatch hr') (hnextV _)
      (h.cells.pass rfl fun _ => nofun)
  · rw [heq]
    refine h.update (hinv.popVert hop hx) (fun _ _ _ => rfl)
      (fun y _ hy => Function.update_of_ne (hy r' rfl) _ _) (hprevH x) (hnextH x) ?_ ?_
      (h.cells.pass rfl fun _ => nofun)
    · intro r'' hr''
      cases hr''
      rw [Function.update_self]
      exact hlink
    · rw [Function.update_of_ne (by simp)]
      exact hnextV x
  · rw [heq]
    exact h.vertQueue hlink

theorem SystolicInv.step_pushHorz (h : SystolicInv p s) (hp : p.Sized) (hr : r < p.systolicSize)
    (hc : c < p.systolicSize) (hop : (s.pe (r, c)).op = .pushHorz) :
    SystolicInv p (p.step s (r, c)) := by
  have hinv := h.pe r c hr hc
  have hprevH : ∀ c', c = c' + 1 → HorzLink p r (s.horz (r, c')) (s.pe (r, c'))
      { s.pe (r, c) with op := .pushVert } := by
    rintro c' rfl
    exact (h.horz r c' hr hc).right (by simp [Pe.gotHorz, hop]) (.inl (by simp [Pe.popsHorz, hop]))
  have hprevV : ∀ r', r = r' + 1 → VertLink p c (s.vert (r', c)) (s.pe (r', c))
      { s.pe (r, c) with op := .pushVert } := by
    rintro r' rfl
    exact (h.vert r' c hr hc).below (by simp [Pe.gotVert, hop]) (.inl (by simp [Pe.popsVert, hop]))
  have hnextV : r + 1 < p.systolicSize → VertLink p c (s.vert (r, c))
      { s.pe (r, c) with op := .pushVert } (s.pe (r + 1, c)) := fun hr' =>
    (h.vert r c hr' hc).above (by simp [Pe.sentVert, hop]) (.inl (by simp [Pe.pushesVert, hop]))
  rcases pushHorz_cases h hp hr hc hop with
    ⟨hlast, heq⟩ | ⟨hlt, q, ⟨hlink, -, heq⟩ | ⟨hlink, heq, -⟩⟩
  · rw [heq]
    exact h.update (hinv.pushHorz hop) (fun _ _ _ => rfl) (fun _ _ _ => rfl) hprevH
      (fun hc' => absurd hc' hlast) hprevV hnextV (h.cells.pass rfl fun _ => nofun)
  · rw [heq]
    refine h.update (hinv.pushHorz hop) (fun y hy _ => Function.update_of_ne hy _ _)
      (fun _ _ _ => rfl) ?_ ?_ hprevV hnextV (h.cells.pass rfl fun _ => nofun)
    · rintro c' rfl
      rw [Function.update_of_ne (by simp)]
      exact hprevH c' rfl
    · rw [Function.update_self]
      exact fun _ => hlink
  · rw [heq]
    exact h.horzQueue hlink

theorem SystolicInv.step_pushVert (h : SystolicInv p s) (hp : p.Sized) (hr : r < p.systolicSize)
    (hc : c < p.systolicSize) (hop : (s.pe (r, c)).op = .pushVert) :
    SystolicInv p (p.step s (r, c)) := by
  have hinv := h.pe r c hr hc
  have hprevH : ∀ c', c = c' + 1 → HorzLink p r (s.horz (r, c')) (s.pe (r, c'))
      { s.pe (r, c) with op := .mac } := by
    rintro c' rfl
    exact (h.horz r c' hr hc).right (by simp [Pe.gotHorz, hop]) (.inl (by simp [Pe.popsHorz, hop]))
  have hnextH : c + 1 < p.systolicSize → HorzLink p r (s.horz (r, c))
      { s.pe (r, c) with op := .mac } (s.pe (r, c + 1)) := fun hc' =>
    (h.horz r c hr hc').left (by simp [Pe.sentHorz, hop]) (.inl (by simp [Pe.pushesHorz, hop]))
  have hprevV : ∀ r', r = r' + 1 → VertLink p c (s.vert (r', c)) (s.pe (r', c))
      { s.pe (r, c) with op := .mac } := by
    rintro r' rfl
    exact (h.vert r' c hr hc).below (by simp [Pe.gotVert, hop]) (.inl (by simp [Pe.popsVert, hop]))
  rcases pushVert_cases h hp hr hc hop with
    ⟨hlast, heq⟩ | ⟨hlt, q, ⟨hlink, -, heq⟩ | ⟨hlink, heq, -⟩⟩
  · rw [heq]
    exact h.update (hinv.pushVert hop) (fun _ _ _ => rfl) (fun _ _ _ => rfl) hprevH hnextH
      hprevV (fun hr' => absurd hr' hlast) (h.cells.pass rfl fun _ => nofun)
  · rw [heq]
    refine h.update (hinv.pushVert hop) (fun _ _ _ => rfl)
      (fun y hy _ => Function.update_of_ne hy _ _) hprevH hnextH ?_ ?_
      (h.cells.pass rfl fun _ => nofun)
    · rintro r' rfl
      rw [Function.update_of_ne (by simp)]
      exact hprevV r' rfl
    · rw [Function.update_self]
      exact fun _ => hlink
  · rw [heq]
    exact h.vertQueue hlink

theorem SystolicInv.step (h : SystolicInv p s) (hp : p.Sized) (hr : r < p.systolicSize)
    (hc : c < p.systolicSize) : SystolicInv p (p.step s (r, c)) := by
  cases hop : (s.pe (r, c)).op with
  | popHorz => exact h.step_popHorz hp hr hc hop
  | popVert => exact h.step_popVert hp hr hc hop
  | pushHorz => exact h.step_pushHorz hp hr hc hop
  | pushVert => exact h.step_pushVert hp hr hc hop
  | _ => exact h.step_local hp hr hc (by rw [hop]; trivial)

theorem SystolicInv.start (buffer : Nat × Nat → Nat → BitVec 32)
    (data : Nat × Nat → Entry (BitVec 32)) (matrixC : Nat → BitVec 32) :
    SystolicInv p (.start buffer data matrixC) where
  pe r c _ _ := ⟨.inl ⟨rfl, rfl, rfl⟩, fun _ => horzOk_zero _, fun _ => vertOk_zero _⟩
  horz r c _ _ := .create _ _ _ _
  vert r c _ _ := .create _ _ _ _
  cells := by
    rintro r c - - ty tx - - k (hlt | ⟨-, j, hj, -⟩)
    · exact absurd hlt (Nat.not_lt_zero _)
    · cases hj

end Moves

/-! ## Progress -/

/-- How far an element is in its round, and in the loops between two rounds. -/
def SystolicParams.phase (p : SystolicParams) (prog : PeProgram) (pe : Pe) : Nat :=
  match pe.op with
  | .repLoop =>
      if pe.i < (if pe.stage = .inside then u32 (prog.iStep * p.repCount) else p.repCount) then 8
      else 0
  | .store k => 1 + k
  | .colLoop => if pe.x < p.numColsC then 7 else 5
  | .rowLoop => 6
  | .load => 9
  | .popHorz => 10
  | .popVert => 11
  | .pushHorz => 12
  | .pushVert => 13
  | .mac => 14
  | .done => 15

def SystolicParams.peWork (p : SystolicParams) (rc : Nat × Nat) (pe : Pe) : Nat :=
  16 * pe.rounds + p.phase (peProgram p.systolicSize rc.1 rc.2) pe

def SystolicParams.grid (p : SystolicParams) : Finset (Nat × Nat) :=
  Finset.range p.systolicSize ×ˢ Finset.range p.systolicSize

/-- The work that has been done. The end of a push or pop takes the call of the queue back
to its start, which is less than what the element moves on. -/
def SystolicParams.work (p : SystolicParams) (s : SystolicState) : Nat :=
  ∑ rc ∈ p.grid, 10 * p.peWork rc (s.pe rc) +
    (∑ rc ∈ p.grid, callPhase (s.horz rc) + ∑ rc ∈ p.grid, callPhase (s.vert rc))

/-- The element cannot move: it waits for a neighbour, or is done. -/
def Waits (p : SystolicParams) (s : SystolicState) (r c : Nat) : Prop :=
  match (s.pe (r, c)).op with
  | .popHorz => ∃ c', c = c' + 1 ∧ (s.pe (r, c')).sentHorz = (s.pe (r, c)).rounds
  | .popVert => ∃ r', r = r' + 1 ∧ (s.pe (r', c)).sentVert = (s.pe (r, c)).rounds
  | .pushHorz => c + 1 < p.systolicSize ∧
      (s.pe (r, c)).rounds = (s.pe (r, c + 1)).gotHorz + p.xqueueSize
  | .pushVert => r + 1 < p.systolicSize ∧
      (s.pe (r, c)).rounds = (s.pe (r + 1, c)).gotVert + p.xqueueSize
  | .done => True
  | _ => False

section Progress

variable {p : SystolicParams} {s : SystolicState} {r c : Nat} {pe pe' : Pe}

theorem mem_grid (hr : r < p.systolicSize) (hc : c < p.systolicSize) : (r, c) ∈ p.grid :=
  Finset.mem_product.mpr ⟨Finset.mem_range.mpr hr, Finset.mem_range.mpr hc⟩

theorem phase_nextTile (prog : PeProgram) (pe : Pe) : 5 ≤ p.phase prog (p.nextTile pe) := by
  show 5 ≤ ite (u32 (pe.x + 2 * p.systolicSize) < p.numColsC) 7 5
  by_cases hx : u32 (pe.x + 2 * p.systolicSize) < p.numColsC
  · rw [if_pos hx]
    decide
  · rw [if_neg hx]

/-- The local computation is work. -/
theorem LocalStep.work (hp : p.Sized)
    (h : LocalStep p (peProgram p.systolicSize r c) pe pe') (hop : pe.op ≠ .done) :
    p.peWork (r, c) pe < p.peWork (r, c) pe' := by
  have hcols := hp.cols_pos
  have hrep := hp.repCount_pos
  have hstep : 0 < u32 ((peProgram p.systolicSize r c).iStep * p.repCount) := by
    have := hp.repCount_le
    rw [peProgram_eq hp.two_le]
    show 0 < u32 ((if r = 0 ∨ c = 0 then 2 else 1) * p.repCount)
    split <;> rw [u32_eq (by omega)] <;> omega
  have hnext := phase_nextTile (p := p) (peProgram p.systolicSize r c) pe
  simp only [SystolicParams.peWork]
  cases h with
  | row hop => simp [SystolicParams.phase, hop, hcols]
  | finish hop => simp [SystolicParams.phase, hop]
  | inside hop hx => simp [SystolicParams.phase, hop, hx, hstep]
  | outside hop hx => simp [SystolicParams.phase, hop, hx, hrep]
  | rowEnd hop hx => simp [SystolicParams.phase, hop, hx]
  | round hop hstage hi => simp [SystolicParams.phase, hop, hstage, hi]
  | tileEnd hop hstage hi => simp [SystolicParams.phase, hop, hstage, hi]
  | dummy hop hstage hi => simp [SystolicParams.phase, hop, hstage, hi]
  | dummyEnd hop hstage hi =>
      have hphase : p.phase (peProgram p.systolicSize r c) pe = 0 := by
        simp [SystolicParams.phase, hop, hstage, hi]
      show 16 * pe.rounds + _ < 16 * pe.rounds + _
      omega
  | load hop => simp [SystolicParams.phase, hop]
  | start hop =>
      simp only [SystolicParams.phase, hop]
      omega
  | mac hop =>
      simp only [SystolicParams.phase, hop]
      omega
  | store k hop => simp [SystolicParams.phase, hop]
  | storeEnd k hop =>
      have hphase : p.phase (peProgram p.systolicSize r c) pe = 1 + k := by
        simp [SystolicParams.phase, hop]
      have := k.isLt
      show 16 * pe.rounds + _ < 16 * pe.rounds + _
      omega
  | done hop' => exact absurd hop' hop

/-- Passing from one queue operation to the next is work. -/
theorem peWork_pass (p : SystolicParams) (pe : Pe) (rc : Nat × Nat) {op : PeOp}
    (h : (pe.op = .popHorz ∧ op = .popVert) ∨ (pe.op = .popVert ∧ op = .pushHorz) ∨
      (pe.op = .pushHorz ∧ op = .pushVert) ∨ (pe.op = .pushVert ∧ op = .mac))
    (dataHorz dataVert : Entry (BitVec 32)) : p.peWork rc pe <
      p.peWork rc { pe with op := op, dataHorz := dataHorz, dataVert := dataVert } := by
  simp only [SystolicParams.peWork, SystolicParams.phase]
  rcases h with ⟨hop, rfl⟩ | ⟨hop, rfl⟩ | ⟨hop, rfl⟩ | ⟨hop, rfl⟩
  all_goals simp [hop]

/-- The work of a move of one element and one queue to its right. -/
theorem work_lt_of_pe (hr : r < p.systolicSize) (hc : c < p.systolicSize)
    (hpe : p.peWork (r, c) (s.pe (r, c)) < p.peWork (r, c) pe') (matrixC : Nat → BitVec 32) :
    p.work s < p.work { s with pe := Function.update s.pe (r, c) pe', matrixC := matrixC } := by
  have hsum := sum_update (mem_grid hr hc) (fun rc pe => 10 * p.peWork rc pe) s.pe pe'
  simp only [SystolicParams.work]
  omega

theorem work_lt_of_horz {r' c' : Nat} {q : MultiQueue (BitVec 32)} (hr : r < p.systolicSize)
    (hc : c < p.systolicSize) (hr' : r' < p.systolicSize) (hc' : c' < p.systolicSize)
    (hpe : p.peWork (r, c) (s.pe (r, c)) < p.peWork (r, c) pe')
    (hphase : callPhase (s.horz (r', c')) ≤ callPhase q + 8) :
    p.work s < p.work { s with
      pe := Function.update s.pe (r, c) pe'
      horz := Function.update s.horz (r', c') q } := by
  have hsum := sum_update (mem_grid hr hc) (fun rc pe => 10 * p.peWork rc pe) s.pe pe'
  have hsumq := sum_update (mem_grid hr' hc') (fun _ q => callPhase q) s.horz q
  simp only [SystolicParams.work]
  omega

theorem work_lt_of_vert {r' c' : Nat} {q : MultiQueue (BitVec 32)} (hr : r < p.systolicSize)
    (hc : c < p.systolicSize) (hr' : r' < p.systolicSize) (hc' : c' < p.systolicSize)
    (hpe : p.peWork (r, c) (s.pe (r, c)) < p.peWork (r, c) pe')
    (hphase : callPhase (s.vert (r', c')) ≤ callPhase q + 8) :
    p.work s < p.work { s with
      pe := Function.update s.pe (r, c) pe'
      vert := Function.update s.vert (r', c') q } := by
  have hsum := sum_update (mem_grid hr hc) (fun rc pe => 10 * p.peWork rc pe) s.pe pe'
  have hsumq := sum_update (mem_grid hr' hc') (fun _ q => callPhase q) s.vert q
  simp only [SystolicParams.work]
  omega

theorem work_lt_of_horzQueue {q : MultiQueue (BitVec 32)} (hr : r < p.systolicSize)
    (hc : c < p.systolicSize) (h : callPhase (s.horz (r, c)) < callPhase q) :
    p.work s < p.work { s with horz := Function.update s.horz (r, c) q } := by
  have hsum := sum_update (mem_grid hr hc) (fun _ q => callPhase q) s.horz q
  simp only [SystolicParams.work]
  omega

theorem work_lt_of_vertQueue {q : MultiQueue (BitVec 32)} (hr : r < p.systolicSize)
    (hc : c < p.systolicSize) (h : callPhase (s.vert (r, c)) < callPhase q) :
    p.work s < p.work { s with vert := Function.update s.vert (r, c) q } := by
  have hsum := sum_update (mem_grid hr hc) (fun _ q => callPhase q) s.vert q
  simp only [SystolicParams.work]
  omega

/-- A step is work, or its element waits. -/
theorem SystolicInv.progress (h : SystolicInv p s) (hp : p.Sized) (hr : r < p.systolicSize)
    (hc : c < p.systolicSize) : p.work s < p.work (p.step s (r, c)) ∨ Waits p s r c := by
  cases hop : (s.pe (r, c)).op with
  | popHorz =>
      have hpass := peWork_pass p (s.pe (r, c)) (r, c) (.inl ⟨hop, rfl⟩)
      rcases popHorz_cases h hp hr hc hop with
        ⟨-, heq⟩ | ⟨c', rfl, q, ⟨x, -, -, hphase, heq⟩ | ⟨-, heq, hphase | ⟨-, hempty⟩⟩⟩
      · rw [heq]
        exact .inl (work_lt_of_pe hr hc (hpass _ _) _)
      · rw [heq]
        exact .inl (work_lt_of_horz hr hc hr (by omega) (hpass _ _) hphase)
      · rw [heq]
        exact .inl (work_lt_of_horzQueue hr (by omega) hphase)
      · refine .inr ?_
        rw [Waits, hop]
        exact ⟨c', rfl, hempty⟩
  | popVert =>
      have hpass := peWork_pass p (s.pe (r, c)) (r, c) (.inr (.inl ⟨hop, rfl⟩))
      rcases popVert_cases h hp hr hc hop with
        ⟨-, heq⟩ | ⟨r', rfl, q, ⟨x, -, -, hphase, heq⟩ | ⟨-, heq, hphase | ⟨-, hempty⟩⟩⟩
      · rw [heq]
        exact .inl (work_lt_of_pe hr hc (hpass _ _) _)
      · rw [heq]
        exact .inl (work_lt_of_vert hr hc (by omega) hc (hpass _ _) hphase)
      · rw [heq]
        exact .inl (work_lt_of_vertQueue (by omega) hc hphase)
      · refine .inr ?_
        rw [Waits, hop]
        exact ⟨r', rfl, hempty⟩
  | pushHorz =>
      have hpass := peWork_pass p (s.pe (r, c)) (r, c) (.inr (.inr (.inl ⟨hop, rfl⟩)))
        (s.pe (r, c)).dataHorz (s.pe (r, c)).dataVert
      rcases pushHorz_cases h hp hr hc hop with
        ⟨-, heq⟩ | ⟨hlt, q, ⟨-, hphase, heq⟩ | ⟨-, heq, hphase | ⟨-, hfull⟩⟩⟩
      · rw [heq]
        exact .inl (work_lt_of_pe hr hc hpass _)
      · rw [heq]
        exact .inl (work_lt_of_horz hr hc hr hc hpass hphase)
      · rw [heq]
        exact .inl (work_lt_of_horzQueue hr hc hphase)
      · refine .inr ?_
        rw [Waits, hop]
        exact ⟨hlt, hfull⟩
  | pushVert =>
      have hpass := peWork_pass p (s.pe (r, c)) (r, c) (.inr (.inr (.inr ⟨hop, rfl⟩)))
        (s.pe (r, c)).dataHorz (s.pe (r, c)).dataVert
      rcases pushVert_cases h hp hr hc hop with
        ⟨-, heq⟩ | ⟨hlt, q, ⟨-, hphase, heq⟩ | ⟨-, heq, hphase | ⟨-, hfull⟩⟩⟩
      · rw [heq]
        exact .inl (work_lt_of_pe hr hc hpass _)
      · rw [heq]
        exact .inl (work_lt_of_vert hr hc hr hc hpass hphase)
      · rw [heq]
        exact .inl (work_lt_of_vertQueue hr hc hphase)
      · refine .inr ?_
        rw [Waits, hop]
        exact ⟨hlt, hfull⟩
  | done =>
      refine .inr ?_
      rw [Waits, hop]
      trivial
  | rowLoop | colLoop | repLoop | load | mac | store k =>
      have hlocal : (s.pe (r, c)).op.Local := by
        rw [hop]
        trivial
      rw [step_local_eq hlocal]
      refine .inl (work_lt_of_pe hr hc ?_ _)
      refine (localStep _ hlocal).work hp ?_
      rw [hop]
      exact nofun

/-! ### The element that is furthest behind -/

/-- How far behind an element is: by its round and its place, and in the same round the
pops before the pushes. -/
def Pe.rank (pe : Pe) (r c : Nat) : Nat :=
  match pe.op with
  | .pushHorz | .pushVert => 2 * (pe.rounds + r + c) + 1
  | _ => 2 * (pe.rounds + r + c)

theorem Pe.rank_le (pe : Pe) (r c : Nat) : pe.rank r c ≤ 2 * (pe.rounds + r + c) + 1 ∧
    pe.rank r c ≤ 2 * (pe.gotHorz + r + c) ∧ pe.rank r c ≤ 2 * (pe.gotVert + r + c) := by
  simp only [rank, gotHorz, gotVert]
  cases pe.op with
  | popVert | pushHorz | pushVert | mac =>
      simp only
      omega
  | _ =>
      simp only
      omega

/-- All elements have returned. -/
def SystolicParams.Done (p : SystolicParams) (s : SystolicState) : Prop :=
  ∀ r c, r < p.systolicSize → c < p.systolicSize → (s.pe (r, c)).op = .done

/-- The elements take steps in any order. -/
def SystolicParams.run (p : SystolicParams) (s : SystolicState)
    (schedule : List (Fin p.systolicSize × Fin p.systolicSize)) : SystolicState :=
  schedule.foldl (fun s rc => p.step s (rc.1, rc.2)) s

theorem SystolicInv.run (h : SystolicInv p s) (hp : p.Sized)
    (schedule : List (Fin p.systolicSize × Fin p.systolicSize)) :
    SystolicInv p (p.run s schedule) := by
  induction schedule generalizing s with
  | nil => exact h
  | cons rc schedule ih => exact ih (h.step hp rc.1.isLt rc.2.isLt)

end Progress

end TeraNoC.Systolic
