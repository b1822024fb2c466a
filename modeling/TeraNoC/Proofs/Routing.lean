import TeraNoC.Hw.Routing
import Mathlib.Tactic.FinCases

/-!
# What is sent to a group gets there

Both ways of routing go along one dimension of the network and then along the other, and along a
dimension a flit never turns round. What remains to be said about a dimension is a `Line`: which
way to go, and numbers of the wires that grow along every way. On a mesh with `XYRouting` the
position is such a number. The routing table sends a flit the shorter way round a ring of four
routers, and the longer ways, of two wires each, so that no two of them share more than one wire:
on each ring, in each direction, the wires that leave an even router come before, or after, those
that leave an odd one, and no cycle of inputs that wait for each other can close.

The table takes the wires that go round. Without them, which a configuration can ask for, a flit
for the far side stays where it is.
-/

namespace TeraNoC.Hw

open TeraNoC.Lib

/-! ## Two lines make a network without deadlock -/

/-- One dimension: which way to go from `a` to `t`, the next position, and a numbering of the
wires, by the position they arrive at, that grows along every way. -/
structure Line (m : Nat) where
  up : Fin m → Fin m → Bool
  step : Fin m → Fin m → Fin m
  arrive : Bool → Fin m → Nat
  top : Nat
  arrive_lt : ∀ s a, arrive s a < top
  keeps : ∀ {a t}, a ≠ t → step a t ≠ t → up (step a t) t = up a t ∧
    arrive (up a t) (step a t) < arrive (up a t) (step (step a t) t)

def xDir (up : Bool) : Direction := if up then .east else .west

def yDir (up : Bool) : Direction := if up then .north else .south

/-- Routers that go along x, then along y, then out. -/
structure DimensionOrder (p : MeshParams) (sel : RouteSelect) where
  x : Line p.numX
  y : Line p.numY
  route_eq : ∀ r dst : p.Router, p.route sel r dst =
    if r.1 ≠ dst.1 then xDir (x.up r.1 dst.1)
    else if r.2 ≠ dst.2 then yDir (y.up r.2 dst.2)
    else .eject
  wire_x : ∀ {a t} b, a ≠ t →
    p.wire ((a, b), xDir (x.up a t)) = some ((x.step a t, b), xDir !x.up a t)
  wire_y : ∀ a {b t}, b ≠ t →
    p.wire ((a, b), yDir (y.up b t)) = some ((a, y.step b t), yDir !y.up b t)

namespace DimensionOrder

variable {p : MeshParams} {sel : RouteSelect} (D : DimensionOrder p sel)

/-- The inputs a flow may come by. -/
inductive Visits (f : p.Flow) : p.Router × Direction → Prop
  | start : Visits f (f.1.1, .eject)
  | arriveX {a b} : a ≠ f.1.2.1 → Visits f ((D.x.step a f.1.2.1, b), xDir !D.x.up a f.1.2.1)
  | arriveY {b} : b ≠ f.1.2.2 →
    Visits f ((f.1.2.1, D.y.step b f.1.2.2), yDir !D.y.up b f.1.2.2)

def level : p.Router × Direction → Nat
  | (_, .eject) => 0
  | ((a, _), .west) => 1 + D.x.arrive true a
  | ((a, _), .east) => 1 + D.x.arrive false a
  | ((_, b), .south) => 1 + D.x.top + D.y.arrive true b
  | ((_, b), .north) => 1 + D.x.top + D.y.arrive false b

section Level

variable (a : Fin p.numX) (b : Fin p.numY) (u : Bool)

theorem level_arriveX : D.level ((a, b), xDir !u) = 1 + D.x.arrive u a := by
  cases u <;> rfl

theorem level_arriveY : D.level ((a, b), yDir !u) = 1 + D.x.top + D.y.arrive u b := by
  cases u <;> rfl

theorem level_lt (c : p.Router × Direction) : D.level c < 1 + D.x.top + D.y.top := by
  obtain ⟨⟨a, b⟩, d⟩ := c
  have hx := fun u => D.x.arrive_lt u a
  have hy := fun u => D.y.arrive_lt u b
  cases d <;> simp only [level] <;>
    have := hx true <;> have := hx false <;> have := hy true <;> have := hy false <;> omega

end Level

theorem xDir_not_ne (u : Bool) : xDir u ≠ xDir !u := by cases u <;> simp [xDir]

theorem yDir_not_ne (u : Bool) : yDir u ≠ yDir !u := by cases u <;> simp [yDir]

theorem yDir_ne_xDir (u v : Bool) : yDir u ≠ xDir v := by cases u <;> cases v <;> simp [xDir, yDir]

theorem xDir_ne_eject (u : Bool) : xDir u ≠ .eject := by cases u <;> simp [xDir]

theorem yDir_ne_eject (u : Bool) : yDir u ≠ .eject := by cases u <;> simp [yDir]

/-- What came by an input goes on, not back: out, if it is there, and up to another input else. -/
def Goes (f : p.Flow) (r : p.Router) (d : Direction) : Prop :=
  p.route sel r f.1.2 ≠ d ∧ ((r, p.route sel r f.1.2) = (f.1.2, .eject) ∨
    ∃ c, p.wire (r, p.route sel r f.1.2) = some c ∧ D.Visits f c ∧ D.level (r, d) < D.level c)

variable {D} {f : p.Flow} {a : Fin p.numX} {b : Fin p.numY} {d : Direction}

theorem goes_x (ha : a ≠ f.1.2.1) (hd : xDir (D.x.up a f.1.2.1) ≠ d)
    (hl : D.level ((a, b), d) < 1 + D.x.arrive (D.x.up a f.1.2.1) (D.x.step a f.1.2.1)) :
    D.Goes f (a, b) d := by
  have hroute : p.route sel (a, b) f.1.2 = xDir (D.x.up a f.1.2.1) := by
    rw [D.route_eq, if_pos ha]
  rw [Goes, hroute]
  refine ⟨hd, .inr ⟨_, D.wire_x b ha, .arriveX ha, ?_⟩⟩
  rw [level_arriveX]
  exact hl

theorem goes_y (hb : b ≠ f.1.2.2) (hd : yDir (D.y.up b f.1.2.2) ≠ d)
    (hl : D.level ((f.1.2.1, b), d) <
      1 + D.x.top + D.y.arrive (D.y.up b f.1.2.2) (D.y.step b f.1.2.2)) :
    D.Goes f (f.1.2.1, b) d := by
  have hroute : p.route sel (f.1.2.1, b) f.1.2 = yDir (D.y.up b f.1.2.2) := by
    rw [D.route_eq, if_neg (not_not.2 rfl), if_pos hb]
  rw [Goes, hroute]
  refine ⟨hd, .inr ⟨_, D.wire_y _ hb, .arriveY hb, ?_⟩⟩
  rw [level_arriveY]
  exact hl

theorem goes_out (hd : d ≠ .eject) : D.Goes f f.1.2 d := by
  have hroute : p.route sel f.1.2 f.1.2 = .eject := by
    rw [D.route_eq, if_neg (not_not.2 rfl), if_neg (not_not.2 rfl)]
  rw [Goes, hroute]
  exact ⟨hd.symm, .inl rfl⟩

theorem goes {r : p.Router} (h : D.Visits f (r, d)) : D.Goes f r d := by
  generalize hc : (r, d) = c at h
  cases h with
  | start =>
      obtain ⟨rfl, rfl⟩ := Prod.mk.inj hc
      obtain ⟨⟨⟨a, b⟩, dst⟩, hne⟩ := f
      by_cases ha : a = dst.1
      · subst ha
        have hb : b ≠ dst.2 := fun hb => hne (Prod.ext rfl hb)
        exact goes_y (f := ⟨_, hne⟩) hb (yDir_ne_eject _) (by simp only [level]; omega)
      · exact goes_x (f := ⟨_, hne⟩) ha (xDir_ne_eject _) (by simp only [level]; omega)
  | @arriveX a b ha =>
      obtain ⟨rfl, rfl⟩ := Prod.mk.inj hc
      by_cases hq : D.x.step a f.1.2.1 = f.1.2.1
      · have htop := D.x.arrive_lt (D.x.up a f.1.2.1) (D.x.step a f.1.2.1)
        have hlevel := D.level_arriveX (D.x.step a f.1.2.1) b (D.x.up a f.1.2.1)
        rw [hq] at htop hlevel ⊢
        by_cases hb : b = f.1.2.2
        · subst hb
          exact goes_out (xDir_ne_eject _)
        · exact goes_y hb (yDir_ne_xDir _ _) (by omega)
      · obtain ⟨hup, hlt⟩ := D.x.keeps ha hq
        refine goes_x hq ?_ ?_
        · rw [hup]
          exact xDir_not_ne _
        · rw [level_arriveX, hup]
          omega
  | @arriveY b hb =>
      obtain ⟨rfl, rfl⟩ := Prod.mk.inj hc
      by_cases hq : D.y.step b f.1.2.2 = f.1.2.2
      · rw [hq]
        exact goes_out (yDir_ne_eject _)
      · obtain ⟨hup, hlt⟩ := D.y.keeps hb hq
        refine goes_y hq ?_ ?_
        · rw [hup]
          exact yDir_not_ne _
        · rw [level_arriveY, hup]
          omega

def levels (D : DimensionOrder p sel) : (p.tcdmNoc sel).Levels fun f => (f.1.2, .eject) where
  visits := D.Visits
  level := D.level
  top := 1 + D.x.top + D.y.top
  entry_visits _ := .start
  goes h := ⟨(goes h).1, (goes h).2.imp (fun heq => ⟨heq, rfl⟩) id⟩
  lt_top := D.level_lt

end DimensionOrder

/-! ## `XYRouting` -/

namespace MeshParams

variable {p : MeshParams} {sel : RouteSelect}

/-- A row of the mesh: the number of a wire is how far along it is. -/
def meshLine (m : Nat) : Line m where
  up a t := decide (a < t)
  step a t := if h : a < t then ⟨a + 1, by omega⟩ else ⟨a - 1, by omega⟩
  arrive up a := if up then a else m - 1 - a
  top := m
  arrive_lt s a := by
    have := a.2
    split_ifs <;> omega
  keeps {a t} hat hst := by
    by_cases h : a < t
    · simp only [h, dif_pos, decide_true, if_true, decide_eq_true_eq] at hst ⊢
      rw [Fin.lt_def] at h
      have hval := Fin.val_ne_iff.2 hst
      have hnext : (⟨a + 1, by omega⟩ : Fin m) < t := by
        rw [Fin.lt_def]
        simp only at hval ⊢
        omega
      refine ⟨hnext, ?_⟩
      rw [dif_pos hnext]
      exact Nat.lt_succ_self _
    · have hne := Fin.val_ne_iff.2 hat
      simp only [h, dif_neg, not_false_eq_true, decide_false, Bool.false_eq_true, if_false,
        decide_eq_false_iff_not] at hst ⊢
      rw [Fin.lt_def] at h
      have hval := Fin.val_ne_iff.2 hst
      have hnext : ¬ (⟨a - 1, by omega⟩ : Fin m) < t := by
        rw [Fin.lt_def]
        simp only at hval ⊢
        omega
      refine ⟨hnext, ?_⟩
      rw [dif_neg hnext]
      have ha := a.2
      simp only at hval ⊢
      omega

/-- Whatever the wires that go round do, `XYRouting` does not take them. -/
def xyOrder (hxy : p.nocRoutingAlgorithm ≠ 1) : DimensionOrder p sel where
  x := meshLine p.numX
  y := meshLine p.numY
  route_eq r dst := by
    rw [route, if_neg hxy, sel.xyRouting_eq]
    by_cases hx : r.1 = dst.1
    · by_cases hy : r.2 = dst.2
      · rw [if_pos (by rw [hx, hy]), if_neg (not_not.2 hx), if_neg (not_not.2 hy)]
      · have hy' := Fin.val_ne_iff.2 hy
        rw [if_neg (by simp only [Prod.mk.injEq, not_and]; omega), if_neg (not_not.2 hx),
          if_pos hy, if_pos (by rw [hx])]
        by_cases h : r.2 < dst.2
        · have := Fin.lt_def.1 h
          rw [if_neg (by simp only; omega)]
          simp [meshLine, yDir, h]
        · rw [if_pos (by rw [Fin.lt_def] at h; simp only; omega)]
          simp [meshLine, yDir, h]
    · have hx' := Fin.val_ne_iff.2 hx
      rw [if_neg (by simp only [Prod.mk.injEq, not_and]; omega), if_pos hx,
        if_neg (by simp only; omega)]
      by_cases h : r.1 < dst.1
      · have := Fin.lt_def.1 h
        rw [if_neg (by simp only; omega)]
        simp [meshLine, xDir, h]
      · rw [if_pos (by rw [Fin.lt_def] at h; simp only; omega)]
        simp [meshLine, xDir, h]
  wire_x {a t} b hat := by
    refine wire_eq ?_
    have hne := Fin.val_ne_iff.2 hat
    have ht := t.2
    by_cases h : a < t
    · simp only [meshLine, xDir, h, decide_true, dif_pos, if_true, Bool.not_true,
        Bool.false_eq_true, if_false, reqIn]
      rw [if_neg (by omega)]
      rfl
    · simp only [meshLine, xDir, h, decide_false, not_false_eq_true, dif_neg, Bool.not_false,
        Bool.false_eq_true, if_false, if_true, reqIn]
      rw [Fin.lt_def] at h
      have ha := a.2
      split_ifs
      · simp only [Option.some.injEq, Prod.mk.injEq, and_true]
        omega
      · omega
      · omega
      · simp only [Option.some.injEq, Prod.mk.injEq, and_true]
        omega
  wire_y a {b t} hbt := by
    refine wire_eq ?_
    have hne := Fin.val_ne_iff.2 hbt
    have ht := t.2
    by_cases h : b < t
    · simp only [meshLine, yDir, h, decide_true, dif_pos, if_true, Bool.not_true,
        Bool.false_eq_true, if_false, reqIn]
      rw [if_neg (by omega)]
      rfl
    · simp only [meshLine, yDir, h, decide_false, not_false_eq_true, dif_neg, Bool.not_false,
        Bool.false_eq_true, if_false, if_true, reqIn]
      rw [Fin.lt_def] at h
      have hb := b.2
      split_ifs
      · simp only [Option.some.injEq, Prod.mk.injEq, and_true, true_and]
        omega
      · omega
      · omega
      · simp only [Option.some.injEq, Prod.mk.injEq, and_true, true_and]
        omega

end MeshParams

/-- With `XYRouting`, on any mesh of two by two groups or more, with or without the wires that go
round: what a group sends to another one gets there, in order and once. -/
theorem xyRouting_delivers (p : MeshParams) (sel : RouteSelect) (hxy : p.nocRoutingAlgorithm ≠ 1)
    {P : Type} (R : (p.tcdmNoc sel).Cells P) :
    (p.tcdmNoc sel).Delivers R fun f => (f.1.2, .eject) :=
  (MeshParams.xyOrder hxy).levels.delivers

/-- From one corner of the mesh to the opposite one. -/
def cornerFlow : (terapoolMesh 0 0).Flow :=
  ⟨((⟨0, Nat.succ_pos 3⟩, ⟨0, Nat.succ_pos 3⟩), (Fin.last 3, Fin.last 3)), by decide⟩

theorem xyRouting_delivers_corner :
    (terapoolMesh 0 0).nocRoutingAlgorithm ≠ 1 ∧
    ((terapoolMesh 0 0).tcdmNoc .direct).Delivers (roundRobinRouters (terapoolMesh 0 0) .direct Nat)
      (fun f => (f.1.2, .eject)) ∧
    ∃ u, [7] <+: Net.ofFlow cornerFlow (Net.got (roundRobinRouters (terapoolMesh 0 0) .direct Nat)
      (.once cornerFlow 7) (cornerFlow.1.2, .eject) u) := by
  have hdelivers := xyRouting_delivers (terapoolMesh 0 0) .direct Nat.zero_ne_one
    (roundRobinRouters _ _ Nat)
  refine ⟨Nat.zero_ne_one, hdelivers, ?_⟩
  obtain ⟨u, hu⟩ := hdelivers.arrives (.once cornerFlow 7) (fun o _ t => ⟨t, Nat.le_refl t, rfl⟩)
    cornerFlow 1
  rw [Net.sent_once, Net.ofFlow_singleton] at hu
  exact ⟨u, hu⟩

/-! ## The routing table -/

section Table

variable {sel : RouteSelect}

theorem idTable_routingRules {idxs : List Direction} (hlen : idxs.length = 16) {k : Nat}
    (hk : k < 16) : sel.idTable (routingRules idxs) (2 * k) = idxs[k] := by
  have hget : ∀ j, ∀ hj : j < 16, (routingRules idxs)[j]? =
      some { idx := idxs[j], startAddr := 2 * j, endAddr := (2 * j + 2) % 32 } := by
    intro j hj
    rw [routingRules, List.getElem?_mapIdx, List.getElem?_eq_getElem (by omega)]
    rfl
  refine sel.idTable_eq _ _ _ (List.mem_of_getElem? (hget k hk)) ?_ ?_
  · simp only [RoutingRule.Covers]
    omega
  · intro r hr hcov
    obtain ⟨j, hj⟩ := List.mem_iff_getElem?.1 hr
    have hj16 : j < 16 := by
      have := List.getElem?_eq_some_iff.1 hj
      obtain ⟨h, -⟩ := this
      rw [routingRules, List.length_mapIdx] at h
      omega
    rw [hget j hj16, Option.some.injEq] at hj
    subst hj
    simp only [RoutingRule.Covers] at hcov
    obtain rfl : j = k := by omega
    rfl

/-- The table, read as the distances round the ring it goes by. -/
def ringUp (a t : Fin 4) : Bool :=
  (t.val + 4 - a.val) % 4 = 1 ∨ (t.val + 4 - a.val) % 4 = 2 ∧ a.val % 2 = 0

theorem routingIdxs_eq : ∀ x y x' y' : Fin 4,
    ((routingIdxs.getD x []).getD y []).length = 16 ∧
    ((routingIdxs.getD x []).getD y [])[4 * x'.val + y'.val]? = some (
      if x ≠ x' then xDir (ringUp x x') else if y ≠ y' then yDir (ringUp y y') else .eject) := by
  decide +kernel

def ringStep (a t : Fin 4) : Fin 4 :=
  if ringUp a t then ⟨(a.val + 1) % 4, Nat.mod_lt _ four_pos⟩
  else ⟨(a.val + 3) % 4, Nat.mod_lt _ four_pos⟩

theorem ring_wire_x (a t : Fin 4) (b : Nat) :
    (terapoolMesh 1 1).reqIn (ringStep a t) b (xDir !ringUp a t) =
      some (a.val, b, xDir (ringUp a t)) := by
  fin_cases a <;> fin_cases t <;> rfl

theorem ring_wire_y (a : Nat) (b t : Fin 4) :
    (terapoolMesh 1 1).reqIn a (ringStep b t) (yDir !ringUp b t) =
      some (a, b.val, yDir (ringUp b t)) := by
  fin_cases b <;> fin_cases t <;> rfl

/-- A ring of four: the two wires a flit takes one after the other leave an even position and then
an odd one when it goes up, the other way round when it goes down. -/
def ringLine : Line 4 where
  up := ringUp
  step := ringStep
  arrive up a := if up = (a.val % 2 = 0) then 1 else 0
  top := 2
  arrive_lt := by decide
  keeps := by decide

def tableOrder : DimensionOrder (terapoolMesh 1 1) sel where
  x := ringLine
  y := ringLine
  route_eq r dst := by
    obtain ⟨hlen, hget⟩ := routingIdxs_eq r.1 r.2 dst.1 dst.2
    have hlt : 4 * dst.1.val + dst.2.val < 16 := by
      have h₁ : dst.1.val < 4 := dst.1.2
      have h₂ : dst.2.val < 4 := dst.2.2
      omega
    have hid : groupXyId (dst.1 * 4 + dst.2) = 2 * (4 * dst.1.val + dst.2.val) := by
      rw [groupXyId, concat]
      omega
    have htable : (terapoolMesh 1 1).route sel r dst =
        sel.idTable (routingTables r.1 r.2) (groupXyId (dst.1 * 4 + dst.2)) := if_pos rfl
    rw [htable, hid, routingTables, idTable_routingRules hlen hlt]
    rw [List.getElem?_eq_getElem (by omega), Option.some.injEq] at hget
    exact hget
  wire_x b _ := MeshParams.wire_eq (ring_wire_x _ _ b)
  wire_y a _ _ _ := MeshParams.wire_eq (ring_wire_y a _ _)

end Table

/-- From a corner to the far end of its row the table goes round. -/
theorem table_goes_round {sel : RouteSelect} {topology : Nat} :
    (terapoolMesh topology 1).route sel ((0 : Fin 4), (0 : Fin 4))
      ((3 : Fin 4), (0 : Fin 4)) = .west := by
  have hid : groupXyId (3 * 4 + 0) = 2 * 12 := rfl
  have htable : (terapoolMesh topology 1).route sel ((0 : Fin 4), (0 : Fin 4))
      ((3 : Fin 4), (0 : Fin 4)) = sel.idTable (routingTables 0 0) (groupXyId (3 * 4 + 0)) :=
    if_pos rfl
  rw [htable, hid, routingTables, idTable_routingRules rfl (by decide)]
  rfl

theorem MeshParams.reqIn_ne_corner {p : MeshParams} (htop : p.nocTopology ≠ 1) (x y : Nat)
    (d : Direction) : p.reqIn x y d ≠ some (0, 0, .west) := by
  intro h
  obtain ⟨-, hd⟩ := reqIn_facing h
  simp only [facing] at hd
  subst hd
  simp only [reqIn] at h
  split_ifs at h <;> simp at h

theorem wire_west_corner {topology : Nat} (htop : topology ≠ 1) :
    (terapoolMesh topology 1).wire (((0 : Fin 4), (0 : Fin 4)), .west) = none :=
  List.find?_eq_none.2 fun b _ => by
    rw [decide_eq_true_eq]
    exact MeshParams.reqIn_ne_corner htop _ _ _

/-- The routing table needs the wires that go round: with them what a group sends to another one
gets there, in order and once; without them a flit gets stuck. -/
theorem idTable_delivers_iff (sel : RouteSelect) (topology : Nat) {P : Type} [Inhabited P]
    (R : ((terapoolMesh topology 1).tcdmNoc sel).Cells P) :
    ((terapoolMesh topology 1).tcdmNoc sel).Delivers R (fun f => (f.1.2, .eject)) ↔
      topology = 1 := by
  constructor
  · intro hdel
    by_contra htop
    let f : (terapoolMesh topology 1).Flow :=
      ⟨(((0 : Fin 4), (0 : Fin 4)), ((3 : Fin 4), (0 : Fin 4))),
        fun h => absurd (congrArg Prod.fst h) (show (0 : Fin 4) ≠ 3 by decide)⟩
    exact Net.not_delivers_of_tied (f := f) (congrArg (Prod.mk f.1.1) table_goes_round)
      (wire_west_corner htop) rfl hdel
  · rintro rfl
    exact tableOrder.levels.delivers

end TeraNoC.Hw
