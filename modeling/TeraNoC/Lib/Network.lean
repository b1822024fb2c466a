import Mathlib.Algebra.BigOperators.Group.Finset.Basic
import Mathlib.Algebra.Order.BigOperators.Group.Finset
import Mathlib.Data.Fintype.Basic
import Mathlib.Logic.Function.Basic

/-!
# Networks of routers

A router takes what comes in by a port to the output its routing selects. Which input an output
serves is the router's own business: what is asked of it is that it loses, doubles and reorders
nothing on the way from an input to an output, and that no input waits for ever for outputs that
keep being taken (`RouterCell`).

A network wires outputs to inputs. When the inputs can be given levels that every flow climbs,
each flow has a route, what it has sent is what it has received and what is on its route, in
order, and from the highest level down every input comes to be free again and again. So all that
was sent gets through, as long as the outside keeps taking what comes out.
-/

namespace TeraNoC.Lib

/-- A router with ports `D`, where `sel` selects the outputs. Its ports are registered: what it
offers, and where it has room, depends on its state alone. `queue s d o` is what has come in by
port `d` for output `o` and not gone out, oldest first; `source s o` is the port that `o` serves. -/
structure RouterCell (D X : Type) [DecidableEq D] (sel : X → D) where
  State : Type
  reset : State
  ready : State → D → Bool
  offer : State → D → Option X
  /-- A cycle: what is at the ports, and at which outputs something would be taken. -/
  next : State → (D → Option X) → (D → Bool) → State
  queue : State → D → D → List X
  source : State → D → Option D
  queue_reset : ∀ d o, queue reset d o = []
  offer_eq : ∀ s o, offer s o = (source s o).bind fun d => (queue s d o).head?
  queue_next : ∀ s i t d o, queue (next s i t) d o =
    (if source s o = some d ∧ t o = true then (queue s d o).tail else queue s d o) ++
      if ready s d = true then (i d).toList.filter (sel · = o) else []
  /-- There is room for something from every port. -/
  ready_of_empty : ∀ s d, (∀ o, queue s d o = []) → ready s d = true
  /-- In every run, if from some time on all outputs that something from a port is for keep being
  taken, and none is the port it came from, each of them comes to serve the port. -/
  serves : ∀ (s : Nat → State) (i : Nat → D → Option X) (t : Nat → D → Bool), s 0 = reset →
    (∀ n, s (n + 1) = next (s n) (i n) (t n)) →
    ∀ d n, (∀ o u, n ≤ u → queue (s u) d o ≠ [] → o ≠ d ∧ ∀ v, ∃ w, v ≤ w ∧ t w o = true) →
      ∀ o, queue (s n) d o ≠ [] → ∃ u, n ≤ u ∧ source (s u) o = some d ∧ t u o = true

namespace RouterCell

variable {D X : Type} [DecidableEq D] {sel : X → D} (C : RouterCell D X sel)

theorem offer_of_source {s : C.State} {d o : D} (h : C.source s o = some d) :
    C.offer s o = (C.queue s d o).head? := by
  rw [C.offer_eq, h]
  rfl

theorem mem_of_offer {s : C.State} {o : D} {x : X} (h : C.offer s o = some x) :
    ∃ d, C.source s o = some d ∧ x ∈ C.queue s d o := by
  rw [C.offer_eq] at h
  obtain ⟨d, hd, hx⟩ := Option.bind_eq_some_iff.mp h
  exact ⟨d, hd, List.mem_of_mem_head? hx⟩

end RouterCell

/-- Routers `N` with ports `D`, the wires between them, and the flows `F` that go through. A flow
enters by an input that no output drives. -/
structure Net (N D F : Type) where
  sel : N → F → D
  /-- The input an output is wired to. -/
  wire : N × D → Option (N × D)
  /-- The output that drives an input. -/
  driver : N × D → Option (N × D)
  entry : F → N × D
  exits : N × D → Bool
  driver_iff : ∀ {c o}, driver c = some o ↔ wire o = some c
  entry_free : ∀ f, driver (entry f) = none
  exit_free : ∀ {o}, exits o = true → wire o = none

namespace Net

variable {N D F P : Type} {net : Net N D F}

/-! ## Routes -/

variable (net) in
/-- The inputs a flow comes by from `c` on, at most `k` of them. -/
def routeFrom (f : F) : Nat → N × D → List (N × D)
  | 0, _ => []
  | k + 1, c =>
    c :: match net.wire (c.1, net.sel c.1 f) with
      | some c' => routeFrom f k c'
      | none => []

variable (net) in
/-- Levels that every flow climbs until it goes out at `dest`: `visits f c` says that flow `f` may
come by input `c`. -/
structure Levels (dest : F → N × D) where
  visits : F → N × D → Prop
  level : N × D → Nat
  top : Nat
  entry_visits : ∀ f, visits f (net.entry f)
  goes : ∀ {f n d}, visits f (n, d) → net.sel n f ≠ d ∧
    ((n, net.sel n f) = dest f ∧ net.exits (dest f) = true ∨
      ∃ c, net.wire (n, net.sel n f) = some c ∧ visits f c ∧ level (n, d) < level c)
  lt_top : ∀ c, level c < top

namespace Levels

variable {dest : F → N × D} (L : net.Levels dest) {f : F}

/-- The inputs a flow comes by. -/
def route (f : F) : List (N × D) := net.routeFrom f L.top (net.entry f)

variable {L}

theorem wire_up {c c' : N × D} (hc : L.visits f c) (h : net.wire (c.1, net.sel c.1 f) = some c') :
    L.visits f c' ∧ L.level c < L.level c' := by
  rcases (L.goes hc).2 with ⟨hdest, hexit⟩ | ⟨c'', hwire, hup⟩
  · rw [← hdest] at hexit
    rw [net.exit_free hexit] at h
    cases h
  · rw [hwire] at h
    cases h
    exact hup

theorem routeFrom_visits {k : Nat} {c : N × D} (hc : L.visits f c) :
    ∀ x ∈ net.routeFrom f k c, L.visits f x ∧ (x = c ∨ L.level c < L.level x) := by
  induction k generalizing c with
  | zero => exact fun x hx => absurd hx List.not_mem_nil
  | succ k ih =>
      intro x hx
      rw [routeFrom, List.mem_cons] at hx
      rcases hx with rfl | hx
      · exact ⟨hc, .inl rfl⟩
      · split at hx
        · rename_i c' hwire
          obtain ⟨hc', hlt⟩ := wire_up hc hwire
          obtain ⟨hvisits, rfl | h⟩ := ih hc' x hx
          · exact ⟨hvisits, .inr hlt⟩
          · exact ⟨hvisits, .inr (hlt.trans h)⟩
        · exact absurd hx List.not_mem_nil

theorem visits_of_mem_route {c : N × D} (h : c ∈ L.route f) : L.visits f c :=
  (routeFrom_visits (L.entry_visits f) c h).1

/-- Enough fuel: the route goes on where the flow goes. -/
theorem wire_mem {k : Nat} {c c' x : N × D} (hc : L.visits f c) (hk : L.top ≤ k + L.level c)
    (hx : x ∈ net.routeFrom f k c) (hwire : net.wire (x.1, net.sel x.1 f) = some c') :
    c' ∈ net.routeFrom f k c := by
  induction k generalizing c with
  | zero => exact absurd hx List.not_mem_nil
  | succ k ih =>
      rw [routeFrom, List.mem_cons] at hx ⊢
      right
      rcases hx with rfl | hx
      · simp only [hwire]
        obtain ⟨hc', hlt⟩ := wire_up hc hwire
        have htop := L.lt_top c'
        obtain ⟨j, rfl⟩ : ∃ j, k = j + 1 := ⟨k - 1, by omega⟩
        exact List.mem_cons_self
      · split at hx
        · rename_i d hd
          obtain ⟨hd, hlt⟩ := wire_up hc hd
          exact ih hd (by omega) hx
        · exact absurd hx List.not_mem_nil

theorem entry_mem (f : F) : net.entry f ∈ L.route f := by
  have htop := L.lt_top (net.entry f)
  obtain ⟨j, hj⟩ : ∃ j, L.top = j + 1 := ⟨L.top - 1, by omega⟩
  rw [route, hj]
  exact List.mem_cons_self

theorem ne_of_downstream {k : Nat} {a b x : N × D} (ha : L.visits f a)
    (hwire : net.wire (a.1, net.sel a.1 f) = some b) (hx : x ∈ net.routeFrom f k b) :
    x.1 ≠ a.1 := by
  intro hnode
  obtain ⟨hb, -⟩ := wire_up ha hwire
  obtain ⟨hx, hle⟩ := routeFrom_visits hb x hx
  -- from `x` the flow would go on to `b` as well
  have hup := (wire_up hx (hnode ▸ hwire)).2
  rcases hle with rfl | hlt
  · exact Nat.lt_irrefl _ hup
  · exact Nat.lt_asymm hup hlt

/-- A flow comes by a router once. -/
theorem eq_of_router {k : Nat} {a c c' : N × D} (ha : L.visits f a) (hc : c ∈ net.routeFrom f k a)
    (hc' : c' ∈ net.routeFrom f k a) (heq : c.1 = c'.1) : c = c' := by
  induction k generalizing a with
  | zero => exact absurd hc List.not_mem_nil
  | succ k ih =>
      rw [routeFrom, List.mem_cons] at hc hc'
      cases hwire : net.wire (a.1, net.sel a.1 f) with
      | none =>
          rw [hwire] at hc hc'
          simp only [List.not_mem_nil, or_false] at hc hc'
          rw [hc, hc']
      | some b =>
          rw [hwire] at hc hc'
          rcases hc with rfl | hc
          · rcases hc' with rfl | hc'
            · rfl
            · exact absurd heq.symm (ne_of_downstream ha hwire hc')
          · rcases hc' with rfl | hc'
            · exact absurd heq (ne_of_downstream ha hwire hc)
            · exact ih (wire_up ha hwire).1 hc hc'

end Levels

/-! ## Runs -/

section Run

variable [DecidableEq D]

variable (net) in
/-- A router for every node. -/
abbrev Cells (P : Type) : Type 1 := ∀ n, RouterCell D (F × P) fun x => net.sel n x.1

variable (net) in
/-- What the outside offers to the entries and takes from the exits, cycle by cycle. -/
structure Outside (P : Type) where
  send : Nat → N × D → Option (F × P)
  takes : Nat → N × D → Bool
  send_entry : ∀ {t c x}, send t c = some x → net.entry x.1 = c

/-- Every exit keeps being taken from. -/
def Outside.Fair (E : net.Outside P) : Prop :=
  ∀ o, net.exits o = true → ∀ t, ∃ u, t ≤ u ∧ E.takes u o = true

variable (R : net.Cells P) (E : net.Outside P)

def input (s : ∀ n, (R n).State) (t : Nat) (c : N × D) : Option (F × P) :=
  match net.driver c with
  | some o => (R o.1).offer (s o.1) o.2
  | none => E.send t c

/-- What an output offers would be taken. -/
def taken (s : ∀ n, (R n).State) (t : Nat) (o : N × D) : Bool :=
  match net.wire o with
  | some c => (R c.1).ready (s c.1) c.2
  | none => net.exits o && E.takes t o

/-- The routers after `t` cycles. -/
def after : Nat → ∀ n, (R n).State
  | 0, n => (R n).reset
  | t + 1, n => (R n).next (after t n) (fun d => input R E (after t) t (n, d))
      fun o => taken R E (after t) t (n, o)

/-- What goes in by an input in a cycle. -/
def enters (t : Nat) (c : N × D) : Option (F × P) :=
  if (R c.1).ready (after R E t c.1) c.2 = true then input R E (after R E t) t c else none

/-- What goes out by an output in a cycle. -/
def leaves (t : Nat) (o : N × D) : Option (F × P) :=
  if taken R E (after R E t) t o = true then (R o.1).offer (after R E t o.1) o.2 else none

/-- What has gone in by an input. -/
def sent (c : N × D) : Nat → List (F × P)
  | 0 => []
  | t + 1 => sent c t ++ (enters R E t c).toList

/-- What has gone out by an output. -/
def got (o : N × D) : Nat → List (F × P)
  | 0 => []
  | t + 1 => got o t ++ (leaves R E t o).toList

theorem enters_eq_leaves {c o : N × D} (h : net.wire o = some c) (t : Nat) :
    enters R E t c = leaves R E t o := by
  simp only [enters, leaves, input, taken, h, net.driver_iff.mpr h]

/-! ## Flows -/

section Flow

variable [DecidableEq F]

/-- What a list holds of a flow. -/
def ofFlow (f : F) (l : List (F × P)) : List P :=
  l.filterMap fun x => if x.1 = f then some x.2 else none

variable {f : F} {x : F × P} {l l' : List (F × P)}

theorem ofFlow_append : ofFlow f (l ++ l') = ofFlow f l ++ ofFlow f l' := List.filterMap_append

theorem ofFlow_cons : ofFlow f (x :: l) = ofFlow f [x] ++ ofFlow f l :=
  ofFlow_append (l := [x])

theorem ofFlow_singleton (p : P) : ofFlow f [(f, p)] = [p] := by simp [ofFlow]

theorem ofFlow_singleton_ne_nil (h : x.1 = f) : ofFlow f [x] ≠ [] := by simp [ofFlow, h]

theorem ofFlow_eq_nil (h : ∀ x ∈ l, x.1 ≠ f) : ofFlow f l = [] :=
  List.filterMap_eq_nil_iff.mpr fun x hx => if_neg (h x hx)

theorem exists_of_ofFlow (h : ofFlow f l ≠ []) : ∃ x ∈ l, x.1 = f := by
  by_contra hno
  exact h (ofFlow_eq_nil fun x hx heq => hno ⟨x, hx, heq⟩)

/-- Sorting out by outputs keeps a flow together. -/
theorem ofFlow_filter {sel : F → D} :
    ofFlow f (l.filter fun x => sel x.1 = sel f) = ofFlow f l := by
  induction l with
  | nil => rfl
  | cons x l ih =>
      by_cases hx : sel x.1 = sel f
      · rw [List.filter_cons_of_pos (by simpa using hx), ofFlow_cons, ih, ← ofFlow_cons]
      · have hne : x.1 ≠ f := fun h => hx (congrArg sel h)
        rw [List.filter_cons_of_neg (by simpa using hx), ih, ofFlow_cons,
          ofFlow_eq_nil (l := [x]) (by simpa using hne), List.nil_append]

/-- What an input holds of a flow. -/
def here {R : net.Cells P} (s : ∀ n, (R n).State) (f : F) (c : N × D) : List P :=
  ofFlow f ((R c.1).queue (s c.1) c.2 (net.sel c.1 f))

/-- What a list of inputs holds of a flow, the last input first. -/
def held {R : net.Cells P} (s : ∀ n, (R n).State) (f : F) : List (N × D) → List P
  | [] => []
  | c :: cs => held s f cs ++ here s f c

theorem exists_here {R : net.Cells P} {s : ∀ n, (R n).State} {cs : List (N × D)}
    (h : held s f cs ≠ []) : ∃ c ∈ cs, here s f c ≠ [] := by
  induction cs with
  | nil => exact absurd rfl h
  | cons c cs ih =>
      by_cases hc : here s f c = []
      · rw [held, hc, List.append_nil] at h
        obtain ⟨d, hd, hne⟩ := ih h
        exact ⟨d, List.mem_cons_of_mem _ hd, hne⟩
      · exact ⟨c, List.mem_cons_self, hc⟩

end Flow

/-! ## In order -/

variable {R : net.Cells P} {E : net.Outside P} {dest : F → N × D} {L : net.Levels dest} {f : F}
  {t : Nat}

/-- Everything is on its flow's route, and in the queue for the output it is to take. -/
def Placed (L : net.Levels dest) (s : ∀ n, (R n).State) : Prop :=
  ∀ n d o, ∀ x ∈ (R n).queue (s n) d o, (n, d) ∈ L.route x.1 ∧ net.sel n x.1 = o

/-- What an output offers has come by the route of its flow. -/
theorem Placed.offer {s : ∀ n, (R n).State} (h : Placed L s) {n : N} {o : D} {x : F × P}
    (hx : (R n).offer (s n) o = some x) :
    ∃ d, (R n).source (s n) o = some d ∧ (n, d) ∈ L.route x.1 ∧ net.sel n x.1 = o := by
  obtain ⟨d, hd, hmem⟩ := (R n).mem_of_offer hx
  exact ⟨d, hd, h n d o x hmem⟩

theorem Placed.enters (h : Placed L (after R E t)) {c : N × D} {x : F × P}
    (hx : enters R E t c = some x) : c ∈ L.route x.1 := by
  rw [Net.enters] at hx
  split at hx
  · rw [input] at hx
    split at hx
    · rename_i o hdriver
      obtain ⟨d, -, hmem, hsel⟩ := h.offer hx
      exact Levels.wire_mem (L.entry_visits _) (Nat.le_add_right _ _) hmem
        (hsel ▸ net.driver_iff.mp hdriver)
    · rw [← E.send_entry hx]
      exact Levels.entry_mem _
  · cases hx

theorem queue_after (n : N) (d o : D) : (R n).queue (after R E (t + 1) n) d o =
    (if (R n).source (after R E t n) o = some d ∧ taken R E (after R E t) t (n, o) = true then
      ((R n).queue (after R E t n) d o).tail else (R n).queue (after R E t n) d o) ++
      (enters R E t (n, d)).toList.filter fun x => net.sel n x.1 = o := by
  rw [after, (R n).queue_next, Net.enters]
  congr 1
  split <;> rfl

theorem placed_after : ∀ t, Placed L (after R E t)
  | 0 => fun n d o x hx => by
      rw [after, (R n).queue_reset] at hx
      exact absurd hx List.not_mem_nil
  | t + 1 => fun n d o x hx => by
      rw [queue_after, List.mem_append, List.mem_filter, Option.mem_toList] at hx
      rcases hx with hx | ⟨hx, hsel⟩
      · refine placed_after t n d o x ?_
        split at hx
        · exact List.mem_of_mem_tail hx
        · exact hx
      · exact ⟨(placed_after t).enters hx, of_decide_eq_true hsel⟩

variable [DecidableEq F]

/-- A cycle of an input on the route of a flow: what the router sends on of the flow comes from the
front, and what enters goes to the back. -/
theorem here_after {c : N × D} (hc : c ∈ L.route f) : ∃ rest,
    here (after R E t) f c = ofFlow f (leaves R E t (c.1, net.sel c.1 f)).toList ++ rest ∧
      here (after R E (t + 1)) f c = rest ++ ofFlow f (enters R E t c).toList := by
  obtain ⟨n, d⟩ := c
  have hplaced : Placed L (after R E t) := placed_after t
  simp only [here, queue_after, ofFlow_append, ofFlow_filter]
  by_cases hserved : (R n).source (after R E t n) (net.sel n f) = some d ∧
      taken R E (after R E t) t (n, net.sel n f) = true
  · rw [if_pos hserved, leaves, if_pos hserved.2, (R n).offer_of_source hserved.1]
    cases (R n).queue (after R E t n) d (net.sel n f) with
    | nil => exact ⟨[], rfl, rfl⟩
    | cons x q => exact ⟨ofFlow f q, ofFlow_cons, rfl⟩
  · rw [if_neg hserved]
    have hnone : ofFlow f (leaves R E t (n, net.sel n f)).toList = [] := by
      refine ofFlow_eq_nil fun x hx hf => hserved ?_
      rw [Option.mem_toList, leaves] at hx
      split at hx
      · rename_i htaken
        obtain ⟨d', hsource, hmem, -⟩ := hplaced.offer hx
        have hroute : (n, d') ∈ L.route f := hf ▸ hmem
        have heq : (n, d') = (n, d) := Levels.eq_of_router (L.entry_visits f) hroute hc rfl
        obtain rfl : d' = d := congrArg Prod.snd heq
        exact ⟨hsource, htaken⟩
      · cases hx
    exact ⟨_, by rw [hnone, List.nil_append], rfl⟩

/-- A cycle of the route of a flow from `c` on. -/
theorem held_after {k : Nat} {c : N × D} (hc : c ∈ L.route f) (hk : L.top ≤ k + L.level c) :
    ofFlow f (leaves R E t (dest f)).toList ++ held (after R E (t + 1)) f (net.routeFrom f k c) =
      held (after R E t) f (net.routeFrom f k c) ++ ofFlow f (enters R E t c).toList := by
  have hvisits := Levels.visits_of_mem_route hc
  obtain ⟨rest, hbefore, hafter⟩ := here_after (R := R) (E := E) (t := t) hc
  induction k generalizing c rest with
  | zero =>
      have := L.lt_top c
      omega
  | succ k ih =>
      rw [routeFrom, held, held, hbefore, hafter]
      rcases (L.goes hvisits).2 with ⟨hdest, hexit⟩ | ⟨c', hwire, hvisits', hlt⟩
      · rw [← hdest] at hexit
        simp only [net.exit_free hexit, held, List.nil_append]
        rw [hdest, List.append_assoc]
      · have hlt : L.level c < L.level c' := hlt
        have hmem := Levels.wire_mem (L.entry_visits f) (Nat.le_add_right _ _) hc hwire
        obtain ⟨rest', hbefore', hafter'⟩ := here_after (R := R) (E := E) (t := t) hmem
        have hrest := ih hmem (by omega) hvisits' rest' hbefore' hafter'
        rw [enters_eq_leaves R E hwire] at hrest
        simp only [hwire]
        rw [← List.append_assoc, hrest]
        simp only [List.append_assoc]

/-- What a flow has sent it has received or has on its route, in order. -/
theorem conserved (L : net.Levels dest) (f : F) : ∀ t, ofFlow f (sent R E (net.entry f) t) =
    ofFlow f (got R E (dest f) t) ++ held (after R E t) f (L.route f)
  | 0 => by
      have hnil : ∀ cs : List (N × D), held (after R E 0) f cs = [] := fun cs => by
        by_contra hne
        obtain ⟨c, -, hc⟩ := exists_here hne
        rw [here, after, (R c.1).queue_reset] at hc
        exact hc rfl
      rw [hnil]
      rfl
  | t + 1 => by
      rw [sent, got, ofFlow_append, ofFlow_append, conserved L f t, List.append_assoc,
        List.append_assoc, Levels.route,
        held_after (Levels.entry_mem f) (Nat.le_add_right L.top _)]

/-- A flow goes out at its destination and nowhere else. -/
theorem got_elsewhere (L : net.Levels dest) {o : N × D} (hexit : net.exits o = true)
    (hne : o ≠ dest f) : ∀ t, ofFlow f (got R E o t) = []
  | 0 => rfl
  | t + 1 => by
      rw [got, ofFlow_append, got_elsewhere L hexit hne t, List.nil_append]
      refine ofFlow_eq_nil fun x hx hf => ?_
      rw [Option.mem_toList, leaves] at hx
      split at hx
      · obtain ⟨d, -, hmem, hsel⟩ := (placed_after (L := L) t).offer hx
        rw [hf] at hmem hsel
        rcases (L.goes (Levels.visits_of_mem_route hmem)).2 with ⟨hdest, -⟩ | ⟨c, hwire, -⟩
        · exact hne (hdest ▸ Prod.ext rfl hsel.symm)
        · rw [hsel, net.exit_free hexit] at hwire
          cases hwire
      · cases hx

/-! ## Everything gets through -/

omit [DecidableEq F] in
theorem got_mono (o : N × D) {u : Nat} (h : t ≤ u) : got R E o t <+: got R E o u := by
  induction u, h using Nat.le_induction with
  | base => exact List.prefix_refl _
  | succ u _ ih => exact ih.trans (List.prefix_append _ _)

omit [DecidableEq F] in
theorem sent_mono (c : N × D) {u : Nat} (h : t ≤ u) : sent R E c t <+: sent R E c u := by
  induction u, h using Nat.le_induction with
  | base => exact List.prefix_refl _
  | succ u _ ih => exact ih.trans (List.prefix_append _ _)

theorem ofFlow_mono {l l' : List (F × P)} (h : l <+: l') : ofFlow f l <+: ofFlow f l' := by
  obtain ⟨r, rfl⟩ := h
  rw [ofFlow_append]
  exact List.prefix_append _ _

omit [DecidableEq F] in
/-- What comes by an input is for outputs that keep being taken, if every input further up keeps
being free. -/
theorem taken_often (L : net.Levels dest) (hfair : E.Fair) {c : N × D}
    (hup : ∀ c', L.level c < L.level c' →
      ∀ v, ∃ w, v ≤ w ∧ (R c'.1).ready (after R E w c'.1) c'.2 = true) {o : D} {u : Nat}
    (hne : (R c.1).queue (after R E u c.1) c.2 o ≠ []) :
    o ≠ c.2 ∧ ∀ v, ∃ w, v ≤ w ∧ taken R E (after R E w) w (c.1, o) = true := by
  obtain ⟨x, hx⟩ := List.exists_mem_of_ne_nil _ hne
  obtain ⟨hmem, rfl⟩ := (placed_after (L := L) u) c.1 c.2 o x hx
  obtain ⟨hturn, ⟨hdest, hexit⟩ | ⟨c', hwire, -, hlt⟩⟩ := L.goes (Levels.visits_of_mem_route hmem)
  · refine ⟨hturn, fun v => ?_⟩
    obtain ⟨w, hw, htakes⟩ := hfair _ hexit v
    refine ⟨w, hw, ?_⟩
    rw [hdest, taken, net.exit_free hexit]
    exact Bool.and_eq_true_iff.mpr ⟨hexit, htakes⟩
  · refine ⟨hturn, fun v => ?_⟩
    obtain ⟨w, hw, hready⟩ := hup c' hlt v
    refine ⟨w, hw, ?_⟩
    rw [taken, hwire]
    exact hready

omit [DecidableEq F] in
/-- An input that takes nothing loses what it holds, piece by piece. -/
theorem queue_shrinks {n : N} {d : D} (hclosed : (R n).ready (after R E t n) d = false) (o : D) :
    ((R n).queue (after R E (t + 1) n) d o).length ≤
      ((R n).queue (after R E t n) d o).length := by
  rw [queue_after, Net.enters, hclosed]
  simp only [Bool.false_eq_true, if_false, Option.toList_none, List.filter_nil, List.append_nil]
  split
  · exact List.length_tail.trans_le (Nat.sub_le _ _)
  · exact Nat.le_refl _

omit [DecidableEq F] in
/-- While an input takes nothing, it holds ever less. -/
theorem queue_shrinks_until {n : N} {d : D} {v u w : Nat}
    (hclosed : ∀ u, v ≤ u → (R n).ready (after R E u n) d = false) (hu : v ≤ u) (hw : u ≤ w)
    (o : D) : ((R n).queue (after R E w n) d o).length ≤
      ((R n).queue (after R E u n) d o).length := by
  induction w, hw using Nat.le_induction with
  | base => exact Nat.le_refl _
  | succ w hw ih => exact (queue_shrinks (hclosed w (hu.trans hw)) o).trans ih

omit [DecidableEq F] in
/-- A queue that is served while its input takes nothing gets shorter. -/
theorem queue_served {n : N} {d o : D} {w : Nat}
    (hclosed : (R n).ready (after R E w n) d = false)
    (hserved : (R n).source (after R E w n) o = some d ∧ taken R E (after R E w) w (n, o) = true) :
    ((R n).queue (after R E (w + 1) n) d o).length =
      ((R n).queue (after R E w n) d o).length - 1 := by
  rw [queue_after, if_pos hserved, Net.enters, hclosed]
  simp only [Bool.false_eq_true, if_false, Option.toList_none, List.filter_nil, List.append_nil,
    List.length_tail]

omit [DecidableEq F] in
/-- What an input holds for an output comes to be served, if every input further up keeps being
free. -/
theorem served (L : net.Levels dest) (hfair : E.Fair) {n : N} {d o : D} {u : Nat}
    (hup : ∀ c', L.level (n, d) < L.level c' →
      ∀ v, ∃ w, v ≤ w ∧ (R c'.1).ready (after R E w c'.1) c'.2 = true)
    (hne : (R n).queue (after R E u n) d o ≠ []) : ∃ w, u ≤ w ∧
      (R n).source (after R E w n) o = some d ∧ taken R E (after R E w) w (n, o) = true :=
  (R n).serves (fun t => after R E t n) (fun t d => input R E (after R E t) t (n, d))
    (fun t o => taken R E (after R E t) t (n, o)) rfl (fun _ => rfl) d u
    (fun _ _ _ hne => taken_often (c := (n, d)) L hfair hup hne) o hne

omit [DecidableEq F] in
/-- From the highest level down, every input keeps being free. -/
theorem ready_often [Fintype D] (L : net.Levels dest) (hfair : E.Fair) (k : Nat) :
    ∀ c, L.top ≤ k + L.level c →
      ∀ v, ∃ w, v ≤ w ∧ (R c.1).ready (after R E w c.1) c.2 = true := by
  induction k with
  | zero =>
      intro c hk
      have := L.lt_top c
      omega
  | succ k ih =>
      rintro ⟨n, d⟩ hk v
      by_contra hfree
      have hclosed : ∀ u, v ≤ u → (R n).ready (after R E u n) d = false := fun u hu =>
        Bool.eq_false_iff.mpr fun hready => hfree ⟨u, hu, hready⟩
      -- on the number of what the input holds
      have hnever : ∀ m u, v ≤ u → ∑ o, ((R n).queue (after R E u n) d o).length ≠ m := by
        intro m
        induction m using Nat.strong_induction_on with
        | _ m ihm =>
            intro u hu hm
            obtain ⟨o, ho⟩ : ∃ o, (R n).queue (after R E u n) d o ≠ [] := by
              by_contra hall
              have hready := (R n).ready_of_empty (after R E u n) d fun o =>
                not_not.mp fun hne => hall ⟨o, hne⟩
              rw [hclosed u hu] at hready
              cases hready
            obtain ⟨w, hw, hserved⟩ := served L hfair (fun c' hlt => ih c' (by omega)) ho
            have hfewer : ((R n).queue (after R E (w + 1) n) d o).length <
                ((R n).queue (after R E u n) d o).length := by
              have hpos := List.length_pos_of_ne_nil ho
              have hle := queue_shrinks_until hclosed hu hw o
              rw [queue_served (hclosed w (hu.trans hw)) hserved]
              omega
            refine ihm _ ?_ (w + 1) (by omega) rfl
            rw [← hm]
            exact Finset.sum_lt_sum
              (fun o _ => queue_shrinks_until hclosed hu (Nat.le_succ_of_le hw) o)
              ⟨o, Finset.mem_univ o, hfewer⟩
      exact hnever _ v (Nat.le_refl v) rfl

section Progress

variable [Fintype D]

omit [DecidableEq F] in
/-- The front of a queue leaves, and what is behind it stays until then. -/
theorem front_leaves (L : net.Levels dest) (hfair : E.Fair) {n : N} {d o : D} {x : F × P}
    {rest : List (F × P)} {u : Nat}
    (hq : (R n).queue (after R E u n) d o = x :: rest) :
    ∃ w, u ≤ w ∧ leaves R E w (n, o) = some x ∧
      ∃ more, (R n).queue (after R E (w + 1) n) d o = rest ++ more := by
  have hserved := served (R := R) (d := d) (o := o) (u := u) L hfair
    (fun c' _ => ready_often L hfair L.top c' (Nat.le_add_right _ _))
    (by rw [hq]; exact List.cons_ne_nil _ _)
  obtain ⟨w, ⟨hw, hsource, htaken⟩, hfirst⟩ : ∃ w, (u ≤ w ∧
      (R n).source (after R E w n) o = some d ∧ taken R E (after R E w) w (n, o) = true) ∧
      ∀ v < w, ¬ (u ≤ v ∧ (R n).source (after R E v n) o = some d ∧
        taken R E (after R E v) v (n, o) = true) :=
    ⟨Nat.find hserved, Nat.find_spec hserved, fun v hv => Nat.find_min hserved hv⟩
  have hstays : ∀ v, u ≤ v → v ≤ w →
      ∃ more, (R n).queue (after R E v n) d o = x :: (rest ++ more) := by
    intro v hv
    induction v, hv using Nat.le_induction with
    | base => exact fun _ => ⟨[], by rw [hq, List.append_nil]⟩
    | succ v hv ih =>
        intro hlt
        obtain ⟨more, hmore⟩ := ih (by omega)
        rw [queue_after, if_neg fun h => hfirst v hlt ⟨hv, h⟩, hmore, List.cons_append,
          List.append_assoc]
        exact ⟨_, rfl⟩
  obtain ⟨more, hmore⟩ := hstays w hw (Nat.le_refl w)
  refine ⟨w, hw, ?_, more ++ (enters R E w (n, d)).toList.filter fun y => net.sel n y.1 = o, ?_⟩
  · rw [leaves, if_pos htaken, (R n).offer_of_source hsource, hmore]
    rfl
  · rw [queue_after, if_pos ⟨hsource, htaken⟩, hmore, List.tail_cons, List.append_assoc]

/-- Something of a flow leaves an input that holds something of it. -/
theorem flow_leaves (L : net.Levels dest) (hfair : E.Fair) {n : N} {d : D} {u : Nat}
    (hne : here (after R E u) f (n, d) ≠ []) :
    ∃ w, u ≤ w ∧ ofFlow f (leaves R E w (n, net.sel n f)).toList ≠ [] := by
  obtain ⟨x, hx, rfl⟩ := exists_of_ofFlow hne
  obtain ⟨l, l', hq⟩ := List.append_of_mem hx
  -- on what is in front of it
  clear hx hne
  induction l generalizing u l' with
  | nil =>
      obtain ⟨w, hw, hleaves, -⟩ := front_leaves L hfair hq
      refine ⟨w, hw, ?_⟩
      rw [hleaves]
      exact ofFlow_singleton_ne_nil rfl
  | cons y l ih =>
      obtain ⟨w, hw, -, more, hmore⟩ := front_leaves L hfair hq
      obtain ⟨w', hw', hleaves⟩ := ih (u := w + 1) (l' ++ more) (by simpa using hmore)
      exact ⟨w', by omega, hleaves⟩

/-- What is on its way goes out in the end, or something of its flow before it. -/
theorem flow_arrives (L : net.Levels dest) (hfair : E.Fair) (k : Nat) :
    ∀ c ∈ L.route f, L.top ≤ k + L.level c →
    ∀ u, here (after R E u) f c ≠ [] → ∃ w, u ≤ w ∧
      (ofFlow f (got R E (dest f) u)).length < (ofFlow f (got R E (dest f) w)).length := by
  induction k with
  | zero =>
      intro c _ hk
      have := L.lt_top c
      omega
  | succ k ih =>
      rintro ⟨n, d⟩ hc hk u hne
      obtain ⟨w, hw, hleaves⟩ := flow_leaves L hfair hne
      have hlater := (ofFlow_mono (f := f) (got_mono (R := R) (E := E) (dest f) hw)).length_le
      rcases (L.goes (Levels.visits_of_mem_route hc)).2 with ⟨hdest, -⟩ | ⟨c', hwire, -, hlt⟩
      · rw [hdest] at hleaves
        refine ⟨w + 1, by omega, ?_⟩
        rw [got, ofFlow_append, List.length_append]
        have := List.length_pos_of_ne_nil hleaves
        omega
      · have hmem := Levels.wire_mem (L.entry_visits f) (Nat.le_add_right _ _) hc hwire
        obtain ⟨rest, -, hafter⟩ := here_after (R := R) (E := E) (t := w) hmem
        rw [enters_eq_leaves R E hwire] at hafter
        obtain ⟨w', hw', hgot⟩ := ih c' hmem (by omega) (w + 1) (by
          rw [hafter]
          exact List.append_ne_nil_of_right_ne_nil _ hleaves)
        have hlast := (ofFlow_mono (f := f)
          (got_mono (R := R) (E := E) (dest f) (Nat.le_add_right w 1))).length_le
        exact ⟨w', by omega, by omega⟩

theorem all_arrives (L : net.Levels dest) (hfair : E.Fair) (m : Nat) :
    ∀ u, (ofFlow f (sent R E (net.entry f) t)).length ≤
    m + (ofFlow f (got R E (dest f) u)).length → ∃ w,
      (ofFlow f (sent R E (net.entry f) t)).length ≤ (ofFlow f (got R E (dest f) w)).length := by
  induction m with
  | zero => exact fun u hu => ⟨u, by omega⟩
  | succ m ih =>
      intro u hu
      have hgot := (ofFlow_mono (f := f)
        (got_mono (R := R) (E := E) (dest f) (Nat.le_max_right t u))).length_le
      have hsent := (ofFlow_mono (f := f)
        (sent_mono (R := R) (E := E) (net.entry f) (Nat.le_max_left t u))).length_le
      by_cases hheld : held (after R E (max t u)) f (L.route f) = []
      · refine ⟨max t u, ?_⟩
        rw [conserved L f (max t u), hheld, List.append_nil] at hsent
        exact hsent
      · obtain ⟨c, hc, hne⟩ := exists_here hheld
        obtain ⟨w, -, hmore⟩ := flow_arrives L hfair L.top c hc (Nat.le_add_right _ _) _ hne
        exact ih w (by omega)

end Progress

end Run

/-! ## What a network is for -/

section Delivers

variable [DecidableEq D] [DecidableEq F] {R : net.Cells P} {dest : F → N × D}

variable (net) in
/-- Every flow receives at its destination what it has sent, in order and once, and nothing of it
goes out elsewhere. If the outside keeps taking what comes out, the entries keep being free, and
everything that was sent is received. -/
structure Delivers (R : net.Cells P) (dest : F → N × D) : Prop where
  inOrder : ∀ (E : net.Outside P) f t,
    ofFlow f (got R E (dest f) t) <+: ofFlow f (sent R E (net.entry f) t)
  atDest : ∀ (E : net.Outside P) f o t, net.exits o = true → o ≠ dest f →
    ofFlow f (got R E o t) = []
  accepts : ∀ E : net.Outside P, E.Fair → ∀ f t, ∃ u, t ≤ u ∧
    (R (net.entry f).1).ready (after R E u (net.entry f).1) (net.entry f).2 = true
  arrives : ∀ E : net.Outside P, E.Fair → ∀ f t, ∃ u,
    ofFlow f (sent R E (net.entry f) t) <+: ofFlow f (got R E (dest f) u)

theorem Levels.delivers [Fintype D] (L : net.Levels dest) : net.Delivers R dest where
  inOrder E f t := by
    rw [conserved L f t]
    exact List.prefix_append _ _
  atDest E f o t hexit hne := got_elsewhere L hexit hne t
  accepts E hfair f t := ready_often L hfair L.top _ (Nat.le_add_right _ _) t
  arrives E hfair f t := by
    obtain ⟨u, hu⟩ := all_arrives (R := R) (f := f) (t := t) L hfair _ 0 (Nat.le_add_right _ _)
    have hgot : ofFlow f (got R E (dest f) u) <+: ofFlow f (sent R E (net.entry f) u) := by
      rw [conserved L f u]
      exact List.prefix_append _ _
    exact ⟨u, List.prefix_of_prefix_length_le
      (ofFlow_mono (sent_mono _ (Nat.le_max_left t u)))
      (hgot.trans (ofFlow_mono (sent_mono _ (Nat.le_max_right t u)))) hu⟩

/-! ## An output that is wired to nothing -/

omit [DecidableEq F] in
theorem no_offer {s : ∀ n, (R n).State} {q o : N × D}
    (hq : ∀ n d o, (R n).queue (s n) d o ≠ [] → (n, o) = q) (hne : o ≠ q) :
    (R o.1).offer (s o.1) o.2 = none := by
  cases hoffer : (R o.1).offer (s o.1) o.2 with
  | none => rfl
  | some x =>
      obtain ⟨d, -, hmem⟩ := (R o.1).mem_of_offer hoffer
      exact absurd (hq o.1 d o.2 (List.ne_nil_of_mem hmem)) hne

/-- The outside sends one flit of a flow, in the first cycle. -/
def Outside.once (f : F) (x : P) [DecidableEq N] : net.Outside P where
  send t c := if t = 0 ∧ c = net.entry f then some (f, x) else none
  takes _ _ := true
  send_entry h := by
    split at h
    · rename_i hc
      cases h
      exact hc.2.symm
    · cases h

omit [DecidableEq F] in
/-- Nothing has come in yet, so there is room for it. -/
theorem sent_once [DecidableEq N] (f : F) (x : P) :
    sent R (Outside.once f x) (net.entry f) 1 = [(f, x)] := by
  have hready := (R (net.entry f).1).ready_of_empty _ (net.entry f).2
    fun o => (R (net.entry f).1).queue_reset _ o
  have hsend : (Outside.once f x : net.Outside P).send 0 (net.entry f) = some (f, x) :=
    if_pos ⟨rfl, rfl⟩
  rw [sent, sent, enters, after, if_pos hready, input, net.entry_free f, hsend]
  rfl

section Tied

variable [DecidableEq N] {f : F} {x : P} {q : N × D}
  (hq : ((net.entry f).1, net.sel (net.entry f).1 f) = q) (hwire : net.wire q = none)
include hq hwire

omit [DecidableEq F] in
/-- In the run with one flit, only the queues for the output hold something. -/
theorem queue_of_once : ∀ t n d o,
    (R n).queue (after R (Outside.once f x) t n) d o ≠ [] → (n, o) = q := by
  intro t
  induction t with
  | zero => exact fun n d o hne => absurd ((R n).queue_reset d o) hne
  | succ t ih =>
      intro n d o hne
      by_contra hno
      have hempty : (R n).queue (after R (Outside.once f x) t n) d o = [] :=
        not_not.mp fun hne => hno (ih n d o hne)
      rw [queue_after, hempty] at hne
      simp only [List.tail_nil, ite_self, List.nil_append] at hne
      obtain ⟨y, hy⟩ := List.exists_mem_of_ne_nil _ hne
      rw [List.mem_filter, Option.mem_toList, enters, decide_eq_true_eq] at hy
      obtain ⟨hy, hsel⟩ := hy
      split at hy
      · rw [input] at hy
        split at hy
        · rename_i o' hdriver
          have hne' : o' ≠ q := fun h => by
            rw [h, net.driver_iff, hwire] at hdriver
            cases hdriver
          rw [no_offer ih hne'] at hy
          cases hy
        · simp only [Outside.once] at hy
          split at hy
          · rename_i hc
            cases hy
            refine hno ?_
            rw [← hq, ← hc.2, ← hsel]
          · cases hy
      · cases hy

omit [DecidableEq F] in
/-- And the output is not taken. -/
theorem got_of_once (hexit : net.exits q = false) (o : N × D) (t : Nat) :
    got R (Outside.once f x) o t = [] := by
  have hleaves : ∀ t, leaves R (Outside.once f x) t o = none := by
    intro t
    by_cases ho : o = q
    · rw [leaves, ho, taken, hwire, hexit, Bool.false_and]
      rfl
    · rw [leaves, no_offer (queue_of_once hq hwire t) ho, ite_self]
  induction t with
  | zero => rfl
  | succ t ih => rw [got, ih, hleaves]; rfl

theorem not_delivers_of_tied [Inhabited P] (hexit : net.exits q = false) :
    ¬ net.Delivers R dest := by
  intro hdel
  obtain ⟨u, hu⟩ := hdel.arrives (Outside.once f default)
    (fun o _ t => ⟨t, Nat.le_refl t, rfl⟩) f 1
  rw [got_of_once hq hwire hexit, sent_once, ofFlow_singleton] at hu
  exact List.cons_ne_nil _ _ (List.prefix_nil.mp hu)

end Tied

end Delivers

end Net

/-! ## Routers whose outputs serve the ports in turn -/

namespace RouterCell

section RoundRobin

variable {D X : Type} [DecidableEq D] [Fintype D]

/-- What has come in by each port for each output, and the port that an output looks at. -/
structure RoundRobin (D X : Type) where
  queues : D → D → List X
  turn : D → D

def RoundRobin.source (s : RoundRobin D X) (o : D) : Option D :=
  if s.queues (s.turn o) o = [] then none else some (s.turn o)

def RoundRobin.next (follow : D → D) (sel : X → D) (s : RoundRobin D X) (i : D → Option X)
    (t : D → Bool) : RoundRobin D X where
  queues d o := (if s.source o = some d ∧ t o = true then (s.queues d o).tail else s.queues d o) ++
    if ∀ o, s.queues d o = [] then (i d).toList.filter (sel · = o) else []
  turn o := if s.source o = none ∨ t o = true then follow (s.turn o) else s.turn o

variable {follow : D → D} {sel : X → D}

/-- An output looks at a port until it serves it or finds nothing to serve. -/
theorem RoundRobin.turns {s : Nat → RoundRobin D X} {i : Nat → D → Option X} {t : Nat → D → Bool}
    (hnext : ∀ n, s (n + 1) = (s n).next follow sel (i n) (t n)) {o : D} {n : Nat}
    (ht : ∃ u, n ≤ u ∧ t u o = true) :
    ∃ u, n ≤ u ∧ (s u).turn o = (s n).turn o ∧ ((s u).source o = none ∨ t u o = true) := by
  have hgo : ∃ u, n ≤ u ∧ ((s u).source o = none ∨ t u o = true) := by
    obtain ⟨u, hu, htaken⟩ := ht
    exact ⟨u, hu, .inr htaken⟩
  obtain ⟨u, ⟨hu, hgo⟩, hfirst⟩ : ∃ u, (n ≤ u ∧ ((s u).source o = none ∨ t u o = true)) ∧
      ∀ v < u, ¬ (n ≤ v ∧ ((s v).source o = none ∨ t v o = true)) :=
    ⟨Nat.find hgo, Nat.find_spec hgo, fun v hv => Nat.find_min hgo hv⟩
  have hstays : ∀ v, n ≤ v → v ≤ u → (s v).turn o = (s n).turn o := by
    intro v hv
    induction v, hv using Nat.le_induction with
    | base => exact fun _ => rfl
    | succ v hv ih =>
        intro hlt
        rw [← ih (by omega), hnext v]
        exact if_neg fun h => hfirst v hlt ⟨hv, h⟩
  exact ⟨u, hu, hstays u hu (Nat.le_refl u), hgo⟩

/-- `j` is how far the port is from the one the output looks at. -/
theorem RoundRobin.serves_within {s : Nat → RoundRobin D X} {i : Nat → D → Option X}
    {t : Nat → D → Bool} (hnext : ∀ n, s (n + 1) = (s n).next follow sel (i n) (t n)) {d o : D}
    {n : Nat} (hne : ∀ u, n ≤ u → (s u).queues d o ≠ []) (ht : ∀ v, ∃ w, v ≤ w ∧ t w o = true)
    (j : Nat) : ∀ u, n ≤ u → follow^[j] ((s u).turn o) = d →
      ∃ w, n ≤ w ∧ (s w).source o = some d ∧ t w o = true := by
  induction j with
  | zero =>
      intro u hu hd
      obtain ⟨w, hw, hturn, hgo⟩ := turns hnext (ht u)
      have hsource : (s w).source o = some d := by
        have hd : (s w).turn o = d := hturn.trans hd
        rw [source, hd, if_neg (hne w (hu.trans hw))]
      exact ⟨w, hu.trans hw, hsource, hgo.resolve_left (by simp [hsource])⟩
  | succ j ih =>
      intro u hu hd
      obtain ⟨w, hw, hturn, hgo⟩ := turns hnext (ht u)
      have hfollow : (s (w + 1)).turn o = follow ((s u).turn o) := by
        rw [hnext w, ← hturn]
        exact if_pos hgo
      exact ih (w + 1) (by omega) (by rw [hfollow]; exact hd)

/-- Every output looks at the ports in turn, in an order in which every port follows every other
one. -/
def roundRobin (sel : X → D) (follow : D → D) (cycle : ∀ a b, ∃ j, follow^[j] a = b) (first : D) :
    RouterCell D X sel where
  State := RoundRobin D X
  reset := { queues := fun _ _ => [], turn := fun _ => first }
  ready s d := decide (∀ o, s.queues d o = [])
  offer s o := (s.source o).bind fun d => (s.queues d o).head?
  next := RoundRobin.next follow sel
  queue := RoundRobin.queues
  source := RoundRobin.source
  queue_reset _ _ := rfl
  offer_eq _ _ := rfl
  queue_next s i t d o := by simp only [RoundRobin.next, decide_eq_true_eq]
  ready_of_empty _ _ h := decide_eq_true h
  serves s i t _ hnext d n hfair o hne := by
    by_contra hno
    have hwaits : ∀ u, n ≤ u → (s u).queues d o ≠ [] := by
      intro u hu
      induction u, hu using Nat.le_induction with
      | base => exact hne
      | succ u hu ih =>
          have hkeeps : (s (u + 1)).queues d o = (s u).queues d o ++
              if ∀ o, (s u).queues d o = [] then (i u d).toList.filter (sel · = o) else [] := by
            rw [hnext u]
            exact congrArg (· ++ _) (if_neg fun h => hno ⟨u, hu, h⟩)
          rw [hkeeps]
          exact List.append_ne_nil_of_left_ne_nil ih _
    obtain ⟨j, hj⟩ := cycle ((s n).turn o) d
    exact hno (RoundRobin.serves_within hnext hwaits (hfair o n (Nat.le_refl n) hne).2 j n
      (Nat.le_refl n) hj)

end RoundRobin

end RouterCell
end TeraNoC.Lib
