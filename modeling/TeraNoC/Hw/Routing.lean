import Mathlib.Data.Fintype.Prod
import Mathlib.Tactic.SplitIfs
import TeraNoC.Lib.Network
import TeraNoC.Hw.CorePath

/-!
# The routers between the groups

One channel of the network on chip: the wires the cluster puts between the routers, one a group,
and the two ways the group wrapper lets a router choose an output. A port of a router that is tied
to zero brings nothing in, and takes nothing.

The router itself (`floo_router`) is not part of the repository. What its documentation promises of
an input is a `RouterCell`: nothing lost, doubled or reordered on the way to an output, and no input
that waits for ever for outputs that keep being taken; nothing goes back to the port it came from.
The routing table is copied from the package; what a router makes of a table, and what `XYRouting`
selects, is documented behaviour too (`RouteSelect`).
-/

namespace TeraNoC.Hw

open TeraNoC.Lib

/-- `route_direction_e`. -/
inductive Direction where
  | north
  | east
  | south
  | west
  | eject
  deriving DecidableEq, Repr

instance : Fintype Direction :=
  ⟨{.north, .east, .south, .west, .eject}, fun d => by cases d <;> decide⟩

def Direction.follow : Direction → Direction
  | .north => .east
  | .east => .south
  | .south => .west
  | .west => .eject
  | .eject => .north

theorem Direction.follow_cycle (a b : Direction) : ∃ j, Direction.follow^[j] a = b := by
  obtain ⟨j, -, hj⟩ : ∃ j < 5, Direction.follow^[j] a = b := by
    revert a b
    decide
  exact ⟨j, hj⟩

/-! ## `routing_table_pkg` -/

structure RoutingRule where
  idx : Direction
  startAddr : Nat
  endAddr : Nat
  deriving DecidableEq, Repr

/-- The rule is about an address; an end of zero is no end. -/
def RoutingRule.Covers (r : RoutingRule) (addr : Nat) : Prop :=
  r.startAddr ≤ addr ∧ (addr < r.endAddr ∨ r.endAddr = 0)

instance (r : RoutingRule) (addr : Nat) : Decidable (r.Covers addr) :=
  inferInstanceAs (Decidable (_ ∧ _))

/-- The rules of a router, from where it sends the flits for each group: every rule is about the
two addresses of a group, and the end of the last one wraps around. -/
def routingRules (idxs : List Direction) : List RoutingRule :=
  idxs.mapIdx fun k idx => { idx := idx, startAddr := 2 * k, endAddr := (2 * k + 2) % 32 }

section Table

open Direction

private abbrev N := north
private abbrev E := east
private abbrev S := south
private abbrev W := west
private abbrev J := eject

/-- `RoutingTables[x][y]`, from `x = 0` and `y = 0` up; the package writes the highest indices
first. -/
def routingIdxs : List (List (List Direction)) :=
  [[[J, N, N, S, E, E, E, E, E, E, E, E, W, W, W, W],
    [S, J, N, S, E, E, E, E, E, E, E, E, W, W, W, W],
    [N, S, J, N, E, E, E, E, E, E, E, E, W, W, W, W],
    [N, S, S, J, E, E, E, E, E, E, E, E, W, W, W, W]],
   [[W, W, W, W, J, N, N, S, E, E, E, E, W, W, W, W],
    [W, W, W, W, S, J, N, S, E, E, E, E, W, W, W, W],
    [W, W, W, W, N, S, J, N, E, E, E, E, W, W, W, W],
    [W, W, W, W, N, S, S, J, E, E, E, E, W, W, W, W]],
   [[E, E, E, E, W, W, W, W, J, N, N, S, E, E, E, E],
    [E, E, E, E, W, W, W, W, S, J, N, S, E, E, E, E],
    [E, E, E, E, W, W, W, W, N, S, J, N, E, E, E, E],
    [E, E, E, E, W, W, W, W, N, S, S, J, E, E, E, E]],
   [[E, E, E, E, W, W, W, W, W, W, W, W, J, N, N, S],
    [E, E, E, E, W, W, W, W, W, W, W, W, S, J, N, S],
    [E, E, E, E, W, W, W, W, W, W, W, W, N, S, J, N],
    [E, E, E, E, W, W, W, W, W, W, W, W, N, S, S, J]]]

end Table

def routingTables (x y : Nat) : List RoutingRule :=
  routingRules ((routingIdxs.getD x []).getD y [])

/-! ## The mesh -/

structure MeshParams where
  numX : Nat
  numY : Nat
  nocTopology : Nat
  nocRoutingAlgorithm : Nat
  two_le_numX : 2 ≤ numX
  two_le_numY : 2 ≤ numY

/-- The four by four groups of `config/terapool.mk`, with a topology and a way to route. -/
def terapoolMesh (nocTopology nocRoutingAlgorithm : Nat) : MeshParams where
  numX := 4
  numY := 4
  nocTopology := nocTopology
  nocRoutingAlgorithm := nocRoutingAlgorithm
  two_le_numX := Nat.le_add_left 2 2
  two_le_numY := Nat.le_add_left 2 2

/-- The two ways a router selects its output. The decoder of `IdTable` gives the `idx` of the rule
that covers an address, where one does; `XYRouting` goes along x until the coordinates agree, then
along y, then out. -/
structure RouteSelect where
  idTable : List RoutingRule → Nat → Direction
  xyRouting : Nat × Nat → Nat × Nat → Direction
  idTable_eq : ∀ rules addr, ∀ r ∈ rules, r.Covers addr →
    (∀ r' ∈ rules, r'.Covers addr → r' = r) → idTable rules addr = r.idx
  xyRouting_eq : ∀ xy dst, xyRouting xy dst =
    if dst = xy then .eject
    else if dst.1 = xy.1 then if dst.2 < xy.2 then .south else .north
    else if dst.1 < xy.1 then .west else .east

/-- Routers that do what is documented. -/
def RouteSelect.direct : RouteSelect where
  idTable rules addr := ((rules.find? fun r => decide (r.Covers addr)).map (·.idx)).getD .eject
  xyRouting xy dst :=
    if dst = xy then .eject
    else if dst.1 = xy.1 then if dst.2 < xy.2 then .south else .north
    else if dst.1 < xy.1 then .west else .east
  idTable_eq rules addr r hr hcov huniq := by
    have hsome : (rules.find? fun r => decide (r.Covers addr)).isSome :=
      List.find?_isSome.2 ⟨r, hr, by simpa using hcov⟩
    obtain ⟨r', hr'⟩ := Option.isSome_iff_exists.1 hsome
    rw [hr', huniq r' (List.mem_of_find?_eq_some hr') (by simpa using List.find?_some hr')]
    rfl
  xyRouting_eq _ _ := rfl

namespace MeshParams

variable (p : MeshParams)

/-- `floo_tcdm_req_in[x][y][d]`: the router output on its other end, if it is not tied to zero.
The response channels are wired alike. -/
def reqIn (x y : Nat) : Direction → Option (Nat × Nat × Direction)
  | .west =>
    if x = 0 then if p.nocTopology = 1 then some (p.numX - 1, y, .east) else none
    else some (x - 1, y, .east)
  | .east =>
    if x = 0 then some (x + 1, y, .west)
    else if x = p.numX - 1 then if p.nocTopology = 1 then some (0, y, .west) else none
    else some (x + 1, y, .west)
  | .south =>
    if y = 0 then if p.nocTopology = 1 then some (x, p.numY - 1, .north) else none
    else some (x, y - 1, .north)
  | .north =>
    if y = 0 then some (x, y + 1, .south)
    else if y = p.numY - 1 then if p.nocTopology = 1 then some (x, 0, .south) else none
    else some (x, y + 1, .south)
  | .eject => none

abbrev Router : Type := Fin p.numX × Fin p.numY

/-- From a group to another one; within a group a request takes no router. -/
abbrev Flow : Type := { f : p.Router × p.Router // f.1 ≠ f.2 }

/-- The output an input is wired to. -/
def driver (c : p.Router × Direction) : Option (p.Router × Direction) :=
  match p.reqIn c.1.1 c.1.2 c.2 with
  | some (x, y, d) => if h : x < p.numX ∧ y < p.numY then some ((⟨x, h.1⟩, ⟨y, h.2⟩), d) else none
  | none => none

/-- The input an output is wired to. -/
def wire (o : p.Router × Direction) : Option (p.Router × Direction) :=
  ((List.finRange p.numX).flatMap fun x => (List.finRange p.numY).flatMap fun y =>
    [Direction.north, .east, .south, .west].map fun e => ((x, y), e)).find?
    fun c => p.reqIn c.1.1 c.1.2 c.2 = some (o.1.1.val, o.1.2.val, o.2)

/-- The output a router selects; `group_xy_id_t` of the destination is what the table is about. -/
def route (sel : RouteSelect) (r dst : p.Router) : Direction :=
  if p.nocRoutingAlgorithm = 1 then
    sel.idTable (routingTables r.1 r.2) (groupXyId (dst.1 * p.numY + dst.2))
  else sel.xyRouting (r.1, r.2) (dst.1, dst.2)

/-! ### Every wire has two ends -/

variable {p}

/-- The port at the other end of a wire. -/
def facing : Direction → Direction
  | .north => .south
  | .east => .west
  | .south => .north
  | .west => .east
  | .eject => .eject

theorem reqIn_facing {x y : Nat} {d : Direction} {o : Nat × Nat × Direction}
    (h : p.reqIn x y d = some o) : d ≠ .eject ∧ d = facing o.2.2 := by
  refine ⟨fun hd => by subst hd; exact absurd h (by simp [reqIn]), ?_⟩
  cases d with
  | eject => cases h
  | _ =>
      simp only [reqIn] at h
      split_ifs at h <;> rw [Option.some.injEq] at h <;> subst h <;> rfl

theorem reqIn_inj {x y x' y' : Nat} {d d' : Direction} {o : Nat × Nat × Direction}
    (hx : x < p.numX) (hy : y < p.numY) (hx' : x' < p.numX) (hy' : y' < p.numY)
    (h : p.reqIn x y d = some o) (h' : p.reqIn x' y' d' = some o) :
    x = x' ∧ y = y' ∧ d = d' := by
  have h₁ := p.two_le_numX
  have h₂ := p.two_le_numY
  obtain ⟨hd, hfacing⟩ := reqIn_facing h
  have heq : d = d' := hfacing.trans (reqIn_facing h').2.symm
  subst heq
  obtain ⟨a, b, e⟩ := o
  cases d with
  | eject => exact absurd rfl hd
  | _ =>
      simp only [reqIn] at h h'
      split_ifs at h h' <;> simp only [Option.some.injEq, Prod.mk.injEq] at h h' <;>
        refine ⟨?_, ?_, rfl⟩ <;> omega

theorem mem_inputs (r : p.Router) {d : Direction} (hd : d ≠ .eject) :
    (r, d) ∈ (List.finRange p.numX).flatMap fun x => (List.finRange p.numY).flatMap fun y =>
      [Direction.north, .east, .south, .west].map fun e => ((x, y), e) := by
  simp only [List.mem_flatMap, List.mem_finRange, true_and, List.mem_map]
  exact ⟨r.1, r.2, d, by cases d <;> simp_all, rfl⟩

theorem reqIn_of_wire {c o : p.Router × Direction} (h : p.wire o = some c) :
    p.reqIn c.1.1 c.1.2 c.2 = some (o.1.1.val, o.1.2.val, o.2) := by
  have hin := List.find?_some h
  rwa [decide_eq_true_eq] at hin

theorem wire_eq {c o : p.Router × Direction}
    (h : p.reqIn c.1.1 c.1.2 c.2 = some (o.1.1.val, o.1.2.val, o.2)) : p.wire o = some c := by
  have hd := (reqIn_facing h).1
  have hsome : (p.wire o).isSome := List.find?_isSome.2 ⟨_, mem_inputs c.1 hd, by simpa using h⟩
  obtain ⟨c', hw⟩ := Option.isSome_iff_exists.1 hsome
  obtain ⟨h₁, h₂, h₃⟩ := reqIn_inj c'.1.1.2 c'.1.2.2 c.1.1.2 c.1.2.2 (reqIn_of_wire hw) h
  rw [hw]
  exact congrArg some (Prod.ext (Prod.ext (Fin.ext h₁) (Fin.ext h₂)) h₃)

theorem driver_eq_some_iff {c o : p.Router × Direction} :
    p.driver c = some o ↔ p.reqIn c.1.1 c.1.2 c.2 = some (o.1.1.val, o.1.2.val, o.2) := by
  obtain ⟨⟨x, y⟩, d⟩ := o
  rw [driver]
  cases p.reqIn c.1.1 c.1.2 c.2 with
  | none => simp
  | some o' =>
      obtain ⟨a, b, e⟩ := o'
      simp only [Option.some.injEq, Prod.mk.injEq]
      constructor
      · intro h
        split_ifs at h
        cases h
        exact ⟨rfl, rfl, rfl⟩
      · rintro ⟨rfl, rfl, rfl⟩
        rw [dif_pos ⟨x.2, y.2⟩]

theorem wire_eject (r : p.Router) : p.wire (r, .eject) = none := by
  by_contra hne
  obtain ⟨c, hc⟩ := Option.ne_none_iff_exists'.1 hne
  obtain ⟨hd, hfacing⟩ := reqIn_facing (reqIn_of_wire hc)
  exact hd hfacing

variable (p) in
/-- The routers of one channel. -/
def tcdmNoc (sel : RouteSelect) : Net p.Router Direction p.Flow where
  sel r f := p.route sel r f.1.2
  wire := p.wire
  driver := p.driver
  entry f := (f.1.1, .eject)
  exits o := decide (o.2 = .eject)
  driver_iff := driver_eq_some_iff.trans ⟨wire_eq, reqIn_of_wire⟩
  entry_free _ := rfl
  exit_free {o} h := by
    obtain ⟨r, d⟩ := o
    obtain rfl : d = .eject := of_decide_eq_true h
    exact wire_eject r

end MeshParams

/-- Routers whose outputs serve the ports in turn. -/
def roundRobinRouters (p : MeshParams) (sel : RouteSelect) (P : Type) : (p.tcdmNoc sel).Cells P :=
  fun _ => .roundRobin _ Direction.follow Direction.follow_cycle .north

end TeraNoC.Hw
