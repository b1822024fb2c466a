import Mathlib.Data.Finset.Card
import Mathlib.Data.Finset.Range
import Mathlib.Logic.Function.Basic
import Mathlib.Tactic.Ring
import TeraNoC.Lib.Progress

/-!
# Combining-tree barriers

Cores `0 .. size` climb a tree of counters. At level `l` the cores are cut into
blocks of `width l`; a core that stands for its block adds the width to the
counter of the block above, and the one that fills it sets it back to zero and
goes on for the larger block. Whoever gets to the top wakes everybody; all others
sleep, and a sleeping core leaves when it finds a wake-up.

The machine is one atomic access per step, and a run lets any core move at any
time. What makes it a barrier is a status for every block that the counters do
not show: nobody stands for it yet, some core does, or it has been added to the
counter above. `Agrees` ties the statuses to the state, every step keeps it, and
the results read off it: at a wake-up all cores have entered and all counters are
zero (`Agrees.at_top`), and the cores cannot all be asleep (`Agrees.awake`).
-/

namespace TeraNoC.Lib.CombiningTree

/-- The widths of the blocks, from single cores up to everybody. -/
structure Shape where
  width : Nat → Nat
  depth : Nat
  width_zero : width 0 = 1
  width_dvd : ∀ l < depth, width l ∣ width (l + 1)
  width_lt : ∀ l < depth, width l < width (l + 1)

namespace Shape

variable (T : Shape) {l b c : Nat}

def size : Nat := T.width T.depth

/-- How many blocks of level `l` make one of level `l + 1`. -/
def arity (l : Nat) : Nat := T.width (l + 1) / T.width l

def IsBlock (l b : Nat) : Prop := b * T.width l < T.size

theorem width_pos : ∀ l ≤ T.depth, 0 < T.width l := by
  intro l
  induction l with
  | zero =>
      intro _
      rw [T.width_zero]
      exact Nat.one_pos
  | succ l ih =>
      intro hl
      exact Nat.lt_trans (ih (by omega)) (T.width_lt l hl)

theorem width_succ (hl : l < T.depth) : T.width (l + 1) = T.width l * T.arity l :=
  (Nat.mul_div_cancel' (T.width_dvd l hl)).symm

theorem arity_pos (hl : l < T.depth) : 0 < T.arity l :=
  Nat.div_pos (Nat.le_of_lt (T.width_lt l hl)) (T.width_pos l (by omega))

theorem width_dvd_of_le {m : Nat} (hlm : l ≤ m) (hm : m ≤ T.depth) : T.width l ∣ T.width m := by
  induction hlm with
  | refl => exact Nat.dvd_refl _
  | step hlm ih => exact Nat.dvd_trans (ih (by omega)) (T.width_dvd _ hm)

/-- The block above a core's block. -/
theorem div_width_succ (hl : l < T.depth) (c : Nat) :
    c / T.width (l + 1) = c / T.width l / T.arity l := by
  rw [T.width_succ hl, Nat.div_div_eq_div_mul]

theorem isBlock_core (hc : c < T.size) : T.IsBlock l (c / T.width l) :=
  Nat.lt_of_le_of_lt (Nat.div_mul_le_self _ _) hc

theorem isBlock_parent (hl : l < T.depth) (hb : T.IsBlock l b) :
    T.IsBlock (l + 1) (b / T.arity l) := by
  refine Nat.lt_of_le_of_lt ?_ hb
  rw [T.width_succ hl, Nat.mul_comm (T.width l), ← Nat.mul_assoc]
  exact Nat.mul_le_mul_right _ (Nat.div_mul_le_self _ _)

/-- A block ends within the cores. -/
theorem isBlock_end (hl : l ≤ T.depth) (hb : T.IsBlock l b) : (b + 1) * T.width l ≤ T.size := by
  obtain ⟨k, hk⟩ := T.width_dvd_of_le hl (Nat.le_refl _)
  have hb' : T.width l * b < T.width l * k := by
    rw [← hk, Nat.mul_comm]
    exact hb
  have hbk : b < k := Nat.lt_of_mul_lt_mul_left hb'
  calc (b + 1) * T.width l ≤ k * T.width l := Nat.mul_le_mul_right _ hbk
    _ = T.size := by rw [Nat.mul_comm, ← hk]; rfl

theorem isBlock_child (hl : l < T.depth) (hb : T.IsBlock (l + 1) b) {j : Nat}
    (hj : j < T.arity l) : T.IsBlock l (b * T.arity l + j) := by
  calc (b * T.arity l + j) * T.width l
      < (b * T.arity l + T.arity l) * T.width l :=
        Nat.mul_lt_mul_of_pos_right (by omega) (T.width_pos l (by omega))
    _ = (b + 1) * T.width (l + 1) := by rw [T.width_succ hl]; ring
    _ ≤ T.size := T.isBlock_end hl hb

theorem isBlock_top (hb : T.IsBlock T.depth b) : b = 0 := by
  rcases Nat.eq_zero_or_pos b with h | h
  · exact h
  · exact absurd hb (Nat.not_lt.mpr (Nat.le_mul_of_pos_left _ h))

end Shape

/-! ## The machine -/

/-- Where a core is: outside the barrier, about to add to the counter above its
block of level `l` (or, at the top, to wake everybody), about to set the counter
it has filled back to zero, or asleep. -/
inductive Pos where
  | idle
  | climb (l : Nat)
  | clear (l : Nat)
  | wfi
  deriving DecidableEq

structure State where
  pos : Nat → Pos
  tokens : Nat → Nat
  count : Nat → Nat → Nat
  entered : Nat → Nat
  wakes : Nat

def set2 {α : Type} (f : Nat → Nat → α) (l b : Nat) (x : α) : Nat → Nat → α :=
  fun l' b' => if l' = l ∧ b' = b then x else f l' b'

theorem set2_same {α : Type} (f : Nat → Nat → α) (l b : Nat) (x : α) :
    set2 f l b x l b = x := by
  simp [set2]

theorem set2_of_ne {α : Type} (f : Nat → Nat → α) {l b l' b' : Nat} (x : α)
    (h : ¬ (l' = l ∧ b' = b)) : set2 f l b x l' b' = f l' b' :=
  if_neg h

namespace State

def start : State where
  pos := fun _ => .idle
  tokens := fun _ => 0
  count := fun _ _ => 0
  entered := fun _ => 0
  wakes := 0

variable (T : Shape)

def step (s : State) (c : Nat) : State :=
  match s.pos c with
  | .idle =>
      { s with
        pos := Function.update s.pos c (.climb 0)
        entered := Function.update s.entered c (s.entered c + 1) }
  | .climb l =>
      if l < T.depth then
        let old := s.count l (c / T.width (l + 1))
        { s with
          count := set2 s.count l (c / T.width (l + 1)) (old + T.width l)
          pos := Function.update s.pos c
            (if old = T.width (l + 1) - T.width l then .clear l else .wfi) }
      else
        { s with
          tokens := fun c' => if c' < T.size then s.tokens c' + 1 else s.tokens c'
          pos := Function.update s.pos c .wfi
          wakes := s.wakes + 1 }
  | .clear l =>
      { s with
        count := set2 s.count l (c / T.width (l + 1)) 0
        pos := Function.update s.pos c (.climb (l + 1)) }
  | .wfi =>
      if 0 < s.tokens c then
        { s with
          tokens := Function.update s.tokens c (s.tokens c - 1)
          pos := Function.update s.pos c .idle }
      else s

def after (sched : Nat → Nat) : Nat → State
  | 0 => start
  | t + 1 => (after sched t).step T (sched t)

/-- Not in the current episode: outside, or asleep with a wake-up to be found. -/
def Out (s : State) (c : Nat) : Prop :=
  s.pos c = .idle ∨ (s.pos c = .wfi ∧ 0 < s.tokens c)

end State

/-! ## The statuses of the blocks -/

inductive Status where
  | gathering
  | held (c : Nat)
  | delivered
  deriving DecidableEq

/-- The children of a block that have been added to its counter. -/
def delivered (T : Shape) (st : Nat → Nat → Status) (l b : Nat) : Nat :=
  ((Finset.range (T.arity l)).filter fun j => st l (b * T.arity l + j) = .delivered).card

/-- All children have. -/
def Full (T : Shape) (st : Nat → Nat → Status) (l b : Nat) : Prop :=
  ∀ j < T.arity l, st l (b * T.arity l + j) = .delivered

structure Agrees (T : Shape) (s : State) (st : Nat → Nat → Status) : Prop where
  climb : ∀ c < T.size, ∀ l,
    s.pos c = .climb l ↔ l ≤ T.depth ∧ st l (c / T.width l) = .held c
  holder : ∀ l b c, st l b = .held c → c < T.size ∧ c / T.width l = b
  clear : ∀ c < T.size, ∀ l, s.pos c = .clear l →
    l < T.depth ∧ Full T st l (c / T.width (l + 1)) ∧
      st (l + 1) (c / T.width (l + 1)) = .gathering
  clear_unique : ∀ c < T.size, ∀ c' < T.size, ∀ l, s.pos c = .clear l → s.pos c' = .clear l →
    c / T.width (l + 1) = c' / T.width (l + 1) → c = c'
  clearing : ∀ l < T.depth, ∀ b, Full T st l b → st (l + 1) b = .gathering →
    ∃ c < T.size, c / T.width (l + 1) = b ∧ s.pos c = .clear l
  full : ∀ l < T.depth, ∀ b, st (l + 1) b ≠ .gathering → Full T st l b
  count : ∀ l < T.depth, ∀ b, T.IsBlock (l + 1) b →
    s.count l b = if st (l + 1) b = .gathering then T.width l * delivered T st l b else 0
  out : ∀ c < T.size, s.Out c ↔ st 0 c = .gathering
  top : ∀ b, st T.depth b ≠ .delivered
  tokens : ∀ c < T.size, s.tokens c = if s.pos c = .wfi ∧ st 0 c = .gathering then 1 else 0
  entered : ∀ c < T.size, s.entered c = if st 0 c = .gathering then s.wakes else s.wakes + 1

section Statuses

variable {T : Shape} {st st' : Nat → Nat → Status} {l b x : Nat}

theorem child_eq (T : Shape) (l x : Nat) : x / T.arity l * T.arity l + x % T.arity l = x := by
  rw [Nat.mul_comm]
  exact Nat.div_add_mod x (T.arity l)

theorem child_div {j : Nat} (hj : j < T.arity l) : (b * T.arity l + j) / T.arity l = b := by
  rw [Nat.mul_comm, Nat.mul_add_div (by omega), Nat.div_eq_of_lt hj, Nat.add_zero]

theorem full_iff : Full T st l b ↔ delivered T st l b = T.arity l := by
  rw [Full, delivered]
  constructor
  · intro h
    rw [Finset.filter_true_of_mem fun j hj => h j (Finset.mem_range.mp hj), Finset.card_range]
  · intro h j hj
    have hall := Finset.card_filter_eq_iff.mp (h.trans (Finset.card_range _).symm)
    exact hall j (Finset.mem_range.mpr hj)

theorem delivered_congr
    (h : ∀ j < T.arity l, st' l (b * T.arity l + j) = .delivered ↔
      st l (b * T.arity l + j) = .delivered) : delivered T st' l b = delivered T st l b := by
  rw [delivered, delivered]
  congr 1
  exact Finset.filter_congr fun j hj => h j (Finset.mem_range.mp hj)

/-- A child that is delivered is one more. -/
theorem delivered_deliver (hl : l < T.depth) (hx : st l x ≠ .delivered) :
    delivered T (set2 st l x .delivered) l (x / T.arity l)
      = delivered T st l (x / T.arity l) + 1 := by
  have hj : x % T.arity l < T.arity l := Nat.mod_lt _ (T.arity_pos hl)
  have hchild := child_eq T l x
  rw [delivered, delivered, ← Finset.card_insert_of_notMem (a := x % T.arity l)]
  · congr 1
    ext j
    simp only [Finset.mem_filter, Finset.mem_insert, Finset.mem_range]
    by_cases hjx : j = x % T.arity l
    · subst hjx
      simp [hchild, set2_same, hj]
    · have hne : ¬ (l = l ∧ x / T.arity l * T.arity l + j = x) := by
        rintro ⟨-, h⟩
        omega
      rw [set2_of_ne _ _ hne]
      simp [hjx]
  · simp only [Finset.mem_filter, not_and]
    intro _
    rw [hchild]
    exact hx

theorem Full.congr (h : Full T st l b)
    (hst : ∀ j < T.arity l, st l (b * T.arity l + j) = .delivered →
      st' l (b * T.arity l + j) = .delivered) : Full T st' l b :=
  fun j hj => hst j hj (h j hj)

end Statuses

/-! ## One step -/

namespace Agrees

variable {T : Shape} {s : State} {st : Nat → Nat → Status} {c l : Nat}

theorem agrees_start (T : Shape) : Agrees T .start fun _ _ => .gathering where
  climb := by simp [State.start]
  holder := by simp
  clear := by simp [State.start]
  clear_unique := by simp [State.start]
  clearing := by
    intro l hl b hfull _
    have := hfull 0 (T.arity_pos hl)
    cases this
  full := by simp
  count := by simp [State.start, delivered]
  out := by simp [State.start, State.Out]
  top := by simp
  tokens := by simp [State.start]
  entered := by simp [State.start]

/-- A core that is neither climbing nor clearing. -/
theorem not_held (h : Agrees T s st) (hc : c < T.size) (hpos : ∀ l, s.pos c ≠ .climb l) (l b : Nat)
    (hl : l ≤ T.depth) : st l b ≠ .held c := by
  intro hst
  obtain ⟨-, hb⟩ := h.holder l b c hst
  exact hpos l ((h.climb c hc l).mpr ⟨hl, by rw [hb, hst]⟩)

theorem not_out_gathering (h : Agrees T s st) (hc : c < T.size) (hidle : s.pos c ≠ .idle)
    (hwfi : s.pos c ≠ .wfi) : st 0 c ≠ .gathering := by
  intro hg
  rcases (h.out c hc).mpr hg with hp | ⟨hp, -⟩
  · exact hidle hp
  · exact hwfi hp

end Agrees

/-- A core begins to stand for a block: its own when it enters, the one whose
counter it has filled when it clears that. -/
structure Takes (T : Shape) (st : Nat → Nat → Status) (s s' : State) (c l : Nat) : Prop where
  core : c < T.size
  le : l ≤ T.depth
  gathering : st l (c / T.width l) = .gathering
  others : ∀ c', c' ≠ c → s'.pos c' = s.pos c'
  pos : s'.pos c = .climb l
  origin : s.pos c = .idle ∧ l = 0 ∨ ∃ k, l = k + 1 ∧ s.pos c = .clear k
  count : ∀ k b, s'.count k b = if k + 1 = l ∧ b = c / T.width l then 0 else s.count k b
  tokens : s'.tokens = s.tokens
  wakes : s'.wakes = s.wakes
  entered : ∀ c', s'.entered c' = s.entered c' + if c' = c ∧ l = 0 then 1 else 0

namespace Takes

variable {T : Shape} {s s' : State} {st : Nat → Nat → Status} {c l : Nat}

theorem delivered_iff (ht : Takes T st s s' c l) (k b : Nat) :
    set2 st l (c / T.width l) (.held c) k b = .delivered ↔ st k b = .delivered := by
  by_cases hkb : k = l ∧ b = c / T.width l
  · obtain ⟨rfl, rfl⟩ := hkb
    simp [set2_same, ht.gathering]
  · rw [set2_of_ne _ _ hkb]

theorem full_iff (ht : Takes T st s s' c l) (k b : Nat) :
    Full T (set2 st l (c / T.width l) (.held c)) k b ↔ Full T st k b := by
  simp only [Full, ht.delivered_iff]

theorem origin_pos (ht : Takes T st s s' c l) : s.pos c = .idle ∨ ∃ k, s.pos c = .clear k := by
  rcases ht.origin with ⟨hp, -⟩ | ⟨k, -, hp⟩
  · exact .inl hp
  · exact .inr ⟨k, hp⟩

theorem pos_ne_climb (ht : Takes T st s s' c l) (k : Nat) : s.pos c ≠ .climb k := by
  rcases ht.origin_pos with hp | ⟨k', hp⟩ <;> simp [hp]

theorem pos_ne_wfi (ht : Takes T st s s' c l) : s.pos c ≠ .wfi := by
  rcases ht.origin_pos with hp | ⟨k, hp⟩ <;> simp [hp]

/-- Among the single cores only the block of `c` changes. -/
theorem core_of_ne (_ht : Takes T st s s' c l) {c' : Nat} (hcc : c' ≠ c) :
    set2 st l (c / T.width l) (.held c) 0 c' = st 0 c' := by
  refine set2_of_ne _ _ ?_
  rintro ⟨rfl, hb⟩
  rw [T.width_zero, Nat.div_one] at hb
  exact hcc hb

theorem core_self (h : Agrees T s st) (ht : Takes T st s s' c l) :
    set2 st l (c / T.width l) (.held c) 0 c ≠ .gathering := by
  rcases ht.origin with ⟨-, rfl⟩ | ⟨k, rfl, hp⟩
  · rw [T.width_zero, Nat.div_one, set2_same]
    exact fun h => by cases h
  · rw [set2_of_ne _ _ (by omega)]
    exact h.not_out_gathering ht.core (by simp [hp]) (by simp [hp])

theorem ne_of_clear (ht : Takes T st s s' c l) {c' k : Nat} (hp : s'.pos c' = .clear k) :
    c' ≠ c := by
  rintro rfl
  rw [ht.pos] at hp
  cases hp

theorem climb (h : Agrees T s st) (ht : Takes T st s s' c l) {c' : Nat} (hc' : c' < T.size)
    (k : Nat) : s'.pos c' = .climb k ↔
      k ≤ T.depth ∧ set2 st l (c / T.width l) (.held c) k (c' / T.width k) = .held c' := by
  by_cases hcc : c' = c
  · rw [hcc, ht.pos]
    by_cases hkl : k = l
    · rw [hkl, set2_same]
      simp [ht.le]
    · rw [set2_of_ne _ _ (by omega)]
      constructor
      · intro hp
        cases hp
        exact absurd rfl hkl
      · rintro ⟨hk, hst⟩
        exact absurd hst (h.not_held ht.core ht.pos_ne_climb k _ hk)
  · rw [ht.others c' hcc, h.climb c' hc' k]
    by_cases hkb : k = l ∧ c' / T.width k = c / T.width l
    · obtain ⟨rfl, hb⟩ := hkb
      rw [hb, set2_same, ht.gathering]
      simp [Ne.symm hcc]
    · rw [set2_of_ne _ _ hkb]

theorem holder (h : Agrees T s st) (ht : Takes T st s s' c l) {k b c' : Nat}
    (hst : set2 st l (c / T.width l) (.held c) k b = .held c') :
    c' < T.size ∧ c' / T.width k = b := by
  by_cases hkb : k = l ∧ b = c / T.width l
  · obtain ⟨rfl, rfl⟩ := hkb
    rw [set2_same] at hst
    cases hst
    exact ⟨ht.core, rfl⟩
  · rw [set2_of_ne _ _ hkb] at hst
    exact h.holder k b c' hst

theorem clear (h : Agrees T s st) (ht : Takes T st s s' c l) {c' k : Nat} (hc' : c' < T.size)
    (hp : s'.pos c' = .clear k) :
    k < T.depth ∧ Full T (set2 st l (c / T.width l) (.held c)) k (c' / T.width (k + 1)) ∧
      set2 st l (c / T.width l) (.held c) (k + 1) (c' / T.width (k + 1)) = .gathering := by
  have hcc := ht.ne_of_clear hp
  rw [ht.others c' hcc] at hp
  obtain ⟨hk, hf, hgat⟩ := h.clear c' hc' k hp
  refine ⟨hk, (ht.full_iff _ _).mpr hf, ?_⟩
  rw [set2_of_ne _ _ ?_, hgat]
  -- nobody else clears the counter that `c` clears
  rintro ⟨hkl, hb⟩
  rcases ht.origin with ⟨-, rfl⟩ | ⟨k', rfl, hpc⟩
  · omega
  · obtain rfl : k = k' := by omega
    exact hcc (h.clear_unique c' hc' c ht.core k hp hpc hb)

theorem clear_unique (h : Agrees T s st) (ht : Takes T st s s' c l) {c₁ c₂ k : Nat}
    (hc₁ : c₁ < T.size) (hc₂ : c₂ < T.size) (h₁ : s'.pos c₁ = .clear k)
    (h₂ : s'.pos c₂ = .clear k) (hb : c₁ / T.width (k + 1) = c₂ / T.width (k + 1)) : c₁ = c₂ := by
  rw [ht.others c₁ (ht.ne_of_clear h₁)] at h₁
  rw [ht.others c₂ (ht.ne_of_clear h₂)] at h₂
  exact h.clear_unique c₁ hc₁ c₂ hc₂ k h₁ h₂ hb

theorem clearing (h : Agrees T s st) (ht : Takes T st s s' c l) {k b : Nat} (hk : k < T.depth)
    (hf : Full T (set2 st l (c / T.width l) (.held c)) k b)
    (hgat : set2 st l (c / T.width l) (.held c) (k + 1) b = .gathering) :
    ∃ c' < T.size, c' / T.width (k + 1) = b ∧ s'.pos c' = .clear k := by
  have hkb : ¬ (k + 1 = l ∧ b = c / T.width l) := by
    rintro ⟨rfl, rfl⟩
    rw [set2_same] at hgat
    cases hgat
  rw [set2_of_ne _ _ hkb] at hgat
  obtain ⟨c', hc', hb, hp⟩ := h.clearing k hk b ((ht.full_iff _ _).mp hf) hgat
  refine ⟨c', hc', hb, ?_⟩
  rw [ht.others c' ?_, hp]
  rintro rfl
  rcases ht.origin with ⟨hp', -⟩ | ⟨k', rfl, hp'⟩
  · rw [hp'] at hp
    cases hp
  · rw [hp'] at hp
    cases hp
    exact hkb ⟨rfl, hb.symm⟩

theorem full (h : Agrees T s st) (ht : Takes T st s s' c l) {k b : Nat} (hk : k < T.depth)
    (hne : set2 st l (c / T.width l) (.held c) (k + 1) b ≠ .gathering) :
    Full T (set2 st l (c / T.width l) (.held c)) k b := by
  rw [ht.full_iff]
  by_cases hkb : k + 1 = l ∧ b = c / T.width l
  · obtain ⟨rfl, rfl⟩ := hkb
    rcases ht.origin with ⟨-, hl0⟩ | ⟨k', hk', hp⟩
    · omega
    · obtain rfl : k = k' := by omega
      exact (h.clear c ht.core k hp).2.1
  · rw [set2_of_ne _ _ hkb] at hne
    exact h.full k hk b hne

theorem count_eq (h : Agrees T s st) (ht : Takes T st s s' c l) {k b : Nat} (hk : k < T.depth)
    (hb : T.IsBlock (k + 1) b) :
    s'.count k b = if set2 st l (c / T.width l) (.held c) (k + 1) b = .gathering
      then T.width k * delivered T (set2 st l (c / T.width l) (.held c)) k b else 0 := by
  rw [ht.count, delivered_congr fun j _ => ht.delivered_iff k _]
  by_cases hkb : k + 1 = l ∧ b = c / T.width l
  · rw [if_pos hkb, hkb.1, hkb.2, set2_same, if_neg (by simp)]
  · rw [if_neg hkb, set2_of_ne _ _ hkb]
    exact h.count k hk b hb

theorem out (h : Agrees T s st) (ht : Takes T st s s' c l) {c' : Nat} (hc' : c' < T.size) :
    s'.Out c' ↔ set2 st l (c / T.width l) (.held c) 0 c' = .gathering := by
  by_cases hcc : c' = c
  · rw [hcc, State.Out, ht.pos]
    simp [ht.core_self h]
  · rw [ht.core_of_ne hcc, ← h.out c' hc', State.Out, State.Out, ht.others c' hcc, ht.tokens]

theorem tokens_eq (h : Agrees T s st) (ht : Takes T st s s' c l) {c' : Nat} (hc' : c' < T.size) :
    s'.tokens c' = if s'.pos c' = .wfi ∧ set2 st l (c / T.width l) (.held c) 0 c' = .gathering
      then 1 else 0 := by
  rw [ht.tokens]
  by_cases hcc : c' = c
  · rw [hcc, h.tokens c ht.core, ht.pos]
    simp [ht.pos_ne_wfi]
  · rw [ht.others c' hcc, ht.core_of_ne hcc]
    exact h.tokens c' hc'

theorem entered_eq (h : Agrees T s st) (ht : Takes T st s s' c l) {c' : Nat} (hc' : c' < T.size) :
    s'.entered c' = if set2 st l (c / T.width l) (.held c) 0 c' = .gathering
      then s'.wakes else s'.wakes + 1 := by
  rw [ht.entered, ht.wakes]
  by_cases hcc : c' = c
  · rw [hcc, if_neg (ht.core_self h), h.entered c ht.core]
    rcases ht.origin with ⟨-, rfl⟩ | ⟨k, rfl, hp⟩
    · have hg := ht.gathering
      rw [T.width_zero, Nat.div_one] at hg
      simp [hg]
    · rw [if_neg (h.not_out_gathering ht.core (by simp [hp]) (by simp [hp]))]
      simp
  · rw [ht.core_of_ne hcc, if_neg (by tauto), Nat.add_zero]
    exact h.entered c' hc'

end Takes

theorem Agrees.take {T : Shape} {s s' : State} {st : Nat → Nat → Status} {c l : Nat}
    (h : Agrees T s st) (ht : Takes T st s s' c l) :
    Agrees T s' (set2 st l (c / T.width l) (.held c)) where
  climb _ hc' k := ht.climb h hc' k
  holder _ _ _ hst := ht.holder h hst
  clear _ hc' _ hp := ht.clear h hc' hp
  clear_unique _ hc₁ _ hc₂ _ h₁ h₂ hb := ht.clear_unique h hc₁ hc₂ h₁ h₂ hb
  clearing _ hk _ hf hgat := ht.clearing h hk hf hgat
  full _ hk _ hne := ht.full h hk hne
  count _ hk _ hb := ht.count_eq h hk hb
  out _ hc' := ht.out h hc'
  top b := by
    rw [Ne, ht.delivered_iff]
    exact h.top b
  tokens _ hc' := ht.tokens_eq h hc'
  entered _ hc' := ht.entered_eq h hc'

namespace Agrees

variable {T : Shape} {s : State} {st : Nat → Nat → Status} {c l : Nat}

theorem held_of_climb (h : Agrees T s st) (hc : c < T.size) (hpos : s.pos c = .climb l) :
    l ≤ T.depth ∧ st l (c / T.width l) = .held c :=
  (h.climb c hc l).mp hpos

/-- The block above one that has not been delivered is still gathering. -/
theorem gathering_above (h : Agrees T s st) (hl : l < T.depth)
    (hst : st l (c / T.width l) ≠ .delivered) :
    st (l + 1) (c / T.width (l + 1)) = .gathering := by
  by_contra hne
  have hfull := h.full l hl _ hne
  rw [T.div_width_succ hl] at hfull
  have := hfull (c / T.width l % T.arity l) (Nat.mod_lt _ (T.arity_pos hl))
  rw [child_eq] at this
  exact hst this

/-- Below a block that somebody stands for, or that has been delivered, all are delivered. -/
theorem delivered_within (h : Agrees T s st) {m : Nat} (hlm : l < m) (hm : m ≤ T.depth)
    (hst : st m (c / T.width m) ≠ .gathering) : st l (c / T.width l) = .delivered := by
  induction m with
  | zero => exact absurd hlm (Nat.not_lt_zero l)
  | succ m ih =>
      have hfull := h.full m hm _ hst
      rw [T.div_width_succ hm] at hfull
      have hchild := hfull (c / T.width m % T.arity m) (Nat.mod_lt _ (T.arity_pos hm))
      rw [child_eq] at hchild
      rcases Nat.lt_succ_iff_lt_or_eq.mp hlm with hlt | rfl
      · exact ih hlt (Nat.le_of_succ_le hm) (by rw [hchild]; exact fun h => by cases h)
      · exact hchild

/-- A core is in one block only that has been gathered while the block above has not. -/
theorem live_unique (h : Agrees T s st) {m : Nat} (hl : l ≤ T.depth) (hm : m ≤ T.depth)
    (hst : st l (c / T.width l) ≠ .gathering)
    (habove : l < T.depth → st (l + 1) (c / T.width (l + 1)) = .gathering)
    (hst' : st m (c / T.width m) ≠ .gathering)
    (habove' : m < T.depth → st (m + 1) (c / T.width (m + 1)) = .gathering) : l = m := by
  have hnot : ∀ {l m : Nat}, m ≤ T.depth → st m (c / T.width m) ≠ .gathering →
      (l < T.depth → st (l + 1) (c / T.width (l + 1)) = .gathering) → ¬ l < m := by
    intro l m hm hst habove hlm
    have hgat := habove (Nat.lt_of_lt_of_le hlm hm)
    rcases Nat.lt_or_eq_of_le (show l + 1 ≤ m from hlm) with hlt | rfl
    · rw [h.delivered_within hlt hm hst] at hgat
      cases hgat
    · exact hst hgat
  have := hnot hm hst' habove
  have := hnot hl hst habove'
  omega

/-- The test of the fetch-and-add: the counter is full with this one exactly if
all other children have been delivered. -/
theorem last_iff (h : Agrees T s st) (hc : c < T.size) (hl : l < T.depth)
    (hpos : s.pos c = .climb l) :
    s.count l (c / T.width (l + 1)) = T.width (l + 1) - T.width l ↔
      delivered T st l (c / T.width (l + 1)) + 1 = T.arity l := by
  have hst := (h.held_of_climb hc hpos).2
  have hg := h.gathering_above (c := c) hl (by rw [hst]; exact fun h => by cases h)
  have hw := T.width_pos l (by omega)
  have ha := T.arity_pos hl
  rw [h.count l hl _ (T.isBlock_core hc), if_pos hg, T.width_succ hl]
  obtain ⟨n, hn⟩ : ∃ n, T.arity l = n + 1 := ⟨T.arity l - 1, by omega⟩
  rw [hn, Nat.mul_add, Nat.mul_one, Nat.add_sub_cancel, Nat.add_right_cancel_iff]
  exact Nat.mul_right_inj (by omega)

/-- There is room for the block in the counter above. -/
theorem count_room (h : Agrees T s st) (hc : c < T.size) (hl : l < T.depth)
    (hpos : s.pos c = .climb l) :
    s.count l (c / T.width (l + 1)) + T.width l ≤ T.width (l + 1) := by
  have hnd : st l (c / T.width l) ≠ .delivered := by
    rw [(h.held_of_climb hc hpos).2]
    exact fun h => by cases h
  have hadd := delivered_deliver hl hnd
  have hle : delivered T (set2 st l (c / T.width l) .delivered) l (c / T.width l / T.arity l)
      ≤ T.arity l := by
    refine Nat.le_trans (Finset.card_filter_le _ _) ?_
    rw [Finset.card_range]
  rw [h.count l hl _ (T.isBlock_core hc), if_pos (h.gathering_above hl hnd), T.div_width_succ hl]
  calc T.width l * delivered T st l (c / T.width l / T.arity l) + T.width l
      = T.width l * (delivered T st l (c / T.width l / T.arity l) + 1) := by
        rw [Nat.mul_add, Nat.mul_one]
    _ ≤ T.width l * T.arity l := Nat.mul_le_mul_left _ (by omega)
    _ = T.width (l + 1) := (T.width_succ hl).symm

end Agrees

/-- A core adds its block to the counter above. -/
structure Delivers (T : Shape) (s s' : State) (c l : Nat) : Prop where
  core : c < T.size
  lt : l < T.depth
  from_ : s.pos c = .climb l
  others : ∀ c', c' ≠ c → s'.pos c' = s.pos c'
  pos : s'.pos c = if s.count l (c / T.width (l + 1)) = T.width (l + 1) - T.width l
    then .clear l else .wfi
  count : s'.count = set2 s.count l (c / T.width (l + 1))
    (s.count l (c / T.width (l + 1)) + T.width l)
  tokens : s'.tokens = s.tokens
  wakes : s'.wakes = s.wakes
  entered : s'.entered = s.entered

namespace Delivers

variable {T : Shape} {s s' : State} {st : Nat → Nat → Status} {c l : Nat}

theorem held (h : Agrees T s st) (hd : Delivers T s s' c l) : st l (c / T.width l) = .held c :=
  (h.held_of_climb hd.core hd.from_).2

theorem not_delivered (h : Agrees T s st) (hd : Delivers T s s' c l) :
    st l (c / T.width l) ≠ .delivered := by
  rw [hd.held h]
  exact fun h => by cases h

theorem gathering_iff (h : Agrees T s st) (hd : Delivers T s s' c l) (k b : Nat) :
    set2 st l (c / T.width l) .delivered k b = .gathering ↔ st k b = .gathering := by
  by_cases hkb : k = l ∧ b = c / T.width l
  · obtain ⟨rfl, rfl⟩ := hkb
    simp [set2_same, hd.held h]
  · rw [set2_of_ne _ _ hkb]

theorem full_mono {k b : Nat} (hf : Full T st k b) :
    Full T (set2 st l (c / T.width l) .delivered) k b := by
  refine hf.congr fun j _ hj => ?_
  by_cases hkb : k = l ∧ b * T.arity k + j = c / T.width l
  · obtain ⟨rfl, hb⟩ := hkb
    rw [hb, set2_same]
  · rw [set2_of_ne _ _ hkb, hj]

/-- Only the counter above sees the new delivery. -/
theorem child_of_ne (st : Nat → Nat → Status) (hd : Delivers T s s' c l) {k b j : Nat}
    (hj : j < T.arity k) (hkb : ¬ (k = l ∧ b = c / T.width (l + 1))) :
    set2 st l (c / T.width l) .delivered k (b * T.arity k + j) = st k (b * T.arity k + j) := by
  refine set2_of_ne _ _ ?_
  rintro ⟨rfl, hb⟩
  refine hkb ⟨rfl, ?_⟩
  rw [T.div_width_succ hd.lt, ← hb, child_div hj]

theorem delivered_above (h : Agrees T s st) (hd : Delivers T s s' c l) :
    delivered T (set2 st l (c / T.width l) .delivered) l (c / T.width (l + 1))
      = delivered T st l (c / T.width (l + 1)) + 1 := by
  rw [T.div_width_succ hd.lt]
  exact delivered_deliver hd.lt (hd.not_delivered h)

theorem clear_or_wfi (hd : Delivers T s s' c l) : s'.pos c = .clear l ∨ s'.pos c = .wfi := by
  rw [hd.pos]
  split
  · exact .inl rfl
  · exact .inr rfl

/-- The core goes on to clear the counter exactly if the counter is full now. -/
theorem clear_iff (h : Agrees T s st) (hd : Delivers T s s' c l) : s'.pos c = .clear l ↔
    Full T (set2 st l (c / T.width l) .delivered) l (c / T.width (l + 1)) := by
  rw [full_iff, hd.delivered_above h, ← h.last_iff hd.core hd.lt hd.from_, hd.pos]
  split <;> simp_all

theorem level_of_clear (hd : Delivers T s s' c l) {k : Nat} (hp : s'.pos c = .clear k) :
    k = l := by
  rcases hd.clear_or_wfi with hp' | hp' <;> rw [hp'] at hp <;> cases hp
  rfl

theorem core_ne (h : Agrees T s st) (hd : Delivers T s s' c l) : st 0 c ≠ .gathering :=
  h.not_out_gathering hd.core (by simp [hd.from_]) (by simp [hd.from_])

theorem climb (h : Agrees T s st) (hd : Delivers T s s' c l) {c' : Nat} (hc' : c' < T.size)
    (k : Nat) : s'.pos c' = .climb k ↔
      k ≤ T.depth ∧ set2 st l (c / T.width l) .delivered k (c' / T.width k) = .held c' := by
  by_cases hcc : c' = c
  · rw [hcc]
    constructor
    · intro hp
      rcases hd.clear_or_wfi with hp' | hp' <;> rw [hp'] at hp <;> cases hp
    · rintro ⟨hk, hst⟩
      exfalso
      by_cases hkb : k = l ∧ c / T.width k = c / T.width l
      · rw [hkb.1, set2_same] at hst
        cases hst
      · rw [set2_of_ne _ _ hkb] at hst
        have := (h.climb c hd.core k).mpr ⟨hk, hst⟩
        rw [hd.from_] at this
        cases this
        exact hkb ⟨rfl, rfl⟩
  · rw [hd.others c' hcc, h.climb c' hc' k]
    by_cases hkb : k = l ∧ c' / T.width k = c / T.width l
    · obtain ⟨rfl, hb⟩ := hkb
      rw [hb, set2_same, hd.held h]
      simp [Ne.symm hcc]
    · rw [set2_of_ne _ _ hkb]

theorem holder (h : Agrees T s st) {k b c' : Nat}
    (hst : set2 st l (c / T.width l) .delivered k b = .held c') :
    c' < T.size ∧ c' / T.width k = b := by
  by_cases hkb : k = l ∧ b = c / T.width l
  · rw [hkb.1, hkb.2, set2_same] at hst
    cases hst
  · rw [set2_of_ne _ _ hkb] at hst
    exact h.holder k b c' hst

theorem clear (h : Agrees T s st) (hd : Delivers T s s' c l) {c' k : Nat} (hc' : c' < T.size)
    (hp : s'.pos c' = .clear k) :
    k < T.depth ∧ Full T (set2 st l (c / T.width l) .delivered) k (c' / T.width (k + 1)) ∧
      set2 st l (c / T.width l) .delivered (k + 1) (c' / T.width (k + 1)) = .gathering := by
  by_cases hcc : c' = c
  · rw [hcc] at hp ⊢
    obtain rfl := hd.level_of_clear hp
    have hg := h.gathering_above hd.lt (hd.not_delivered h)
    exact ⟨hd.lt, (hd.clear_iff h).mp hp, (hd.gathering_iff h _ _).mpr hg⟩
  · rw [hd.others c' hcc] at hp
    obtain ⟨hk, hf, hgat⟩ := h.clear c' hc' k hp
    exact ⟨hk, full_mono hf, (hd.gathering_iff h _ _).mpr hgat⟩

/-- A counter that somebody clears is full, so `c` cannot have filled it. -/
theorem other_clears (h : Agrees T s st) (hd : Delivers T s s' c l) {c' : Nat}
    (hc' : c' < T.size) (hcc : c' ≠ c) (hp : s'.pos c' = .clear l) :
    c' / T.width (l + 1) ≠ c / T.width (l + 1) := by
  intro hb
  rw [hd.others c' hcc] at hp
  obtain ⟨-, hf, -⟩ := h.clear c' hc' l hp
  rw [hb, T.div_width_succ hd.lt] at hf
  have := hf (c / T.width l % T.arity l) (Nat.mod_lt _ (T.arity_pos hd.lt))
  rw [child_eq] at this
  exact hd.not_delivered h this

theorem clear_unique (h : Agrees T s st) (hd : Delivers T s s' c l) {c₁ c₂ k : Nat}
    (hc₁ : c₁ < T.size) (hc₂ : c₂ < T.size) (h₁ : s'.pos c₁ = .clear k)
    (h₂ : s'.pos c₂ = .clear k) (hb : c₁ / T.width (k + 1) = c₂ / T.width (k + 1)) : c₁ = c₂ := by
  by_cases hcc₁ : c₁ = c
  · by_cases hcc₂ : c₂ = c
    · rw [hcc₁, hcc₂]
    · rw [hcc₁] at h₁ hb
      obtain rfl := hd.level_of_clear h₁
      exact absurd hb.symm (hd.other_clears h hc₂ hcc₂ h₂)
  · by_cases hcc₂ : c₂ = c
    · rw [hcc₂] at h₂ hb
      obtain rfl := hd.level_of_clear h₂
      exact absurd hb (hd.other_clears h hc₁ hcc₁ h₁)
    · rw [hd.others c₁ hcc₁] at h₁
      rw [hd.others c₂ hcc₂] at h₂
      exact h.clear_unique c₁ hc₁ c₂ hc₂ k h₁ h₂ hb

theorem clearing (h : Agrees T s st) (hd : Delivers T s s' c l) {k b : Nat} (hk : k < T.depth)
    (hf : Full T (set2 st l (c / T.width l) .delivered) k b)
    (hgat : set2 st l (c / T.width l) .delivered (k + 1) b = .gathering) :
    ∃ c' < T.size, c' / T.width (k + 1) = b ∧ s'.pos c' = .clear k := by
  rw [hd.gathering_iff h] at hgat
  by_cases hkb : k = l ∧ b = c / T.width (l + 1)
  · obtain ⟨rfl, rfl⟩ := hkb
    exact ⟨c, hd.core, rfl, (hd.clear_iff h).mpr hf⟩
  · have hf' : Full T st k b := fun j hj => by
      rw [← hd.child_of_ne st hj hkb]
      exact hf j hj
    obtain ⟨c', hc', hb, hp⟩ := h.clearing k hk b hf' hgat
    refine ⟨c', hc', hb, ?_⟩
    rw [hd.others c' ?_, hp]
    rintro rfl
    rw [hd.from_] at hp
    cases hp

theorem count_eq (h : Agrees T s st) (hd : Delivers T s s' c l) {k b : Nat} (hk : k < T.depth)
    (hb : T.IsBlock (k + 1) b) :
    s'.count k b = if set2 st l (c / T.width l) .delivered (k + 1) b = .gathering
      then T.width k * delivered T (set2 st l (c / T.width l) .delivered) k b else 0 := by
  rw [hd.count, if_congr (hd.gathering_iff h _ _) rfl rfl]
  by_cases hkb : k = l ∧ b = c / T.width (l + 1)
  · obtain ⟨rfl, rfl⟩ := hkb
    have hg := h.gathering_above hk (hd.not_delivered h)
    rw [set2_same, if_pos hg, hd.delivered_above h, h.count k hk _ hb, if_pos hg, Nat.mul_add,
      Nat.mul_one]
  · rw [set2_of_ne _ _ hkb, delivered_congr fun j hj => by rw [hd.child_of_ne st hj hkb]]
    exact h.count k hk b hb

theorem out (h : Agrees T s st) (hd : Delivers T s s' c l) {c' : Nat} (hc' : c' < T.size) :
    s'.Out c' ↔ set2 st l (c / T.width l) .delivered 0 c' = .gathering := by
  rw [hd.gathering_iff h, ← h.out c' hc', State.Out, State.Out, hd.tokens]
  by_cases hcc : c' = c
  · have htok : s.tokens c = 0 := by
      rw [h.tokens c hd.core, if_neg (by simp [hd.from_])]
    rw [hcc, htok, hd.from_]
    rcases hd.clear_or_wfi with hp' | hp' <;> simp [hp']
  · rw [hd.others c' hcc]

theorem tokens_eq (h : Agrees T s st) (hd : Delivers T s s' c l) {c' : Nat} (hc' : c' < T.size) :
    s'.tokens c' = if s'.pos c' = .wfi ∧ set2 st l (c / T.width l) .delivered 0 c' = .gathering
      then 1 else 0 := by
  rw [hd.tokens, h.tokens c' hc']
  by_cases hcc : c' = c
  · rw [hcc, if_neg (by simp [hd.core_ne h]), if_neg]
    rw [hd.gathering_iff h]
    simp [hd.core_ne h]
  · rw [hd.others c' hcc, if_congr (and_congr_right' (hd.gathering_iff h 0 c')) rfl rfl]

end Delivers

theorem Agrees.deliver {T : Shape} {s s' : State} {st : Nat → Nat → Status} {c l : Nat}
    (h : Agrees T s st) (hd : Delivers T s s' c l) :
    Agrees T s' (set2 st l (c / T.width l) .delivered) where
  climb _ hc' k := hd.climb h hc' k
  holder _ _ _ hst := Delivers.holder h hst
  clear _ hc' _ hp := hd.clear h hc' hp
  clear_unique _ hc₁ _ hc₂ _ h₁ h₂ hb := hd.clear_unique h hc₁ hc₂ h₁ h₂ hb
  clearing _ hk _ hf hgat := hd.clearing h hk hf hgat
  full k hk b hne := by
    rw [Ne, hd.gathering_iff h] at hne
    exact Delivers.full_mono (h.full k hk b hne)
  count _ hk _ hb := hd.count_eq h hk hb
  out _ hc' := hd.out h hc'
  top b := by
    rw [set2_of_ne _ _ (by have := hd.lt; omega)]
    exact h.top b
  tokens _ hc' := hd.tokens_eq h hc'
  entered c' hc' := by
    rw [hd.entered, hd.wakes, h.entered c' hc', if_congr (hd.gathering_iff h 0 c') rfl rfl]

namespace Agrees

variable {T : Shape} {s : State} {st : Nat → Nat → Status} {c l : Nat}

/-- Below the top everything has been delivered. -/
theorem delivered_below (h : Agrees T s st) (hc : c < T.size) (hpos : s.pos c = .climb T.depth) :
    ∀ n ≤ T.depth, ∀ b, T.IsBlock (T.depth - n) b →
      st (T.depth - n) b = if n = 0 then .held c else .delivered := by
  intro n
  induction n with
  | zero =>
      intro _ b hb
      have h0 : c / T.width T.depth = 0 := Nat.div_eq_of_lt hc
      have hst := (h.held_of_climb hc hpos).2
      rw [h0] at hst
      rw [Nat.sub_zero] at hb ⊢
      rw [T.isBlock_top hb, hst, if_pos rfl]
  | succ n ih =>
      intro hn b hb
      have hlev : T.depth - (n + 1) + 1 = T.depth - n := by omega
      have hlt : T.depth - (n + 1) < T.depth := by omega
      have habove := T.isBlock_parent hlt hb
      rw [hlev] at habove
      have hne : st (T.depth - (n + 1) + 1) (b / T.arity (T.depth - (n + 1))) ≠ .gathering := by
        rw [hlev, ih (by omega) _ habove]
        split <;> exact fun h => by cases h
      have := h.full _ hlt _ hne (b % T.arity (T.depth - (n + 1))) (Nat.mod_lt _ (T.arity_pos hlt))
      rw [child_eq] at this
      rw [this, if_neg (by omega)]

/-- At the top: everybody has entered, all counters are zero, all others sleep. -/
theorem at_top (h : Agrees T s st) (hc : c < T.size)
    (hpos : s.pos c = .climb T.depth) :
    (∀ c' < T.size, ¬ s.Out c') ∧
    (∀ l < T.depth, ∀ b, T.IsBlock (l + 1) b → s.count l b = 0) ∧
    ∀ c' < T.size, c' ≠ c → s.pos c' = .wfi := by
  have hbelow : ∀ l < T.depth, ∀ b, T.IsBlock l b → st l b = .delivered := by
    intro l hl b hb
    have hlev : T.depth - (T.depth - l) = l := by omega
    have := h.delivered_below hc hpos (T.depth - l) (by omega) b (by rw [hlev]; exact hb)
    rw [hlev, if_neg (by omega)] at this
    exact this
  have hnever : ∀ l ≤ T.depth, ∀ b, T.IsBlock l b → st l b ≠ .gathering := by
    intro l hl b hb
    have hlev : T.depth - (T.depth - l) = l := by omega
    have := h.delivered_below hc hpos (T.depth - l) (by omega) b (by rw [hlev]; exact hb)
    rw [hlev] at this
    rw [this]
    split <;> exact fun h => by cases h
  have hcore : ∀ c' < T.size, st 0 c' ≠ .gathering := by
    intro c' hc'
    refine hnever 0 (Nat.zero_le _) c' ?_
    rw [Shape.IsBlock, T.width_zero, Nat.mul_one]
    exact hc'
  refine ⟨?_, ?_, ?_⟩
  · intro c' hc' hout
    exact hcore c' hc' ((h.out c' hc').mp hout)
  · intro l hl b hb
    rw [h.count l hl b hb, if_neg (hnever (l + 1) hl b hb)]
  · intro c' hc' hcc
    cases hp : s.pos c' with
    | idle => exact absurd ((h.out c' hc').mp (.inl hp)) (hcore c' hc')
    | climb l =>
        exfalso
        obtain ⟨hl, hst⟩ := h.held_of_climb hc' hp
        rcases Nat.lt_or_ge l T.depth with hlt | hge
        · rw [hbelow l hlt _ (T.isBlock_core hc')] at hst
          cases hst
        · obtain rfl : l = T.depth := by omega
          have htop := (h.held_of_climb hc hpos).2
          have hsame : c' / T.width T.depth = c / T.width T.depth :=
            (Nat.div_eq_of_lt hc').trans (Nat.div_eq_of_lt hc).symm
          rw [hsame, htop] at hst
          cases hst
          exact hcc rfl
    | clear l =>
        exfalso
        obtain ⟨hl, -, hg⟩ := h.clear c' hc' l hp
        exact hnever (l + 1) hl _ (T.isBlock_core hc') hg
    | wfi => rfl

/-- The cores cannot all be asleep with nobody to wake them. -/
theorem awake (h : Agrees T s st) (hsize : 0 < T.size) :
    ¬ ∀ c < T.size, s.pos c = .wfi ∧ s.tokens c = 0 := by
  intro hall
  have hdel : ∀ l ≤ T.depth, ∀ b, T.IsBlock l b → st l b = .delivered := by
    intro l
    induction l with
    | zero =>
        intro _ c hc
        rw [Shape.IsBlock, T.width_zero, Nat.mul_one] at hc
        obtain ⟨hp, ht⟩ := hall c hc
        cases hst : st 0 c with
        | gathering =>
            have := h.tokens c hc
            rw [ht, if_pos ⟨hp, hst⟩] at this
            cases this
        | held c' =>
            obtain ⟨hc', -⟩ := h.holder 0 c c' hst
            exact absurd hst
              (h.not_held hc' (by simp [(hall c' hc').1]) 0 c (Nat.zero_le _))
        | delivered => rfl
    | succ l ih =>
        intro hl b hb
        have hfull : Full T st l b := fun j hj =>
          ih (by omega) _ (T.isBlock_child hl hb hj)
        cases hst : st (l + 1) b with
        | gathering =>
            obtain ⟨c, hc, -, hp⟩ := h.clearing l hl b hfull hst
            rw [(hall c hc).1] at hp
            cases hp
        | held c =>
            obtain ⟨hc, -⟩ := h.holder (l + 1) b c hst
            exact absurd hst (h.not_held hc (by simp [(hall c hc).1]) (l + 1) b hl)
        | delivered => rfl
  refine h.top 0 (hdel T.depth (Nat.le_refl _) 0 ?_)
  rw [Shape.IsBlock, Nat.zero_mul]
  exact hsize

/-- The wake-up ends the episode. -/
theorem wake (h : Agrees T s st) (hc : c < T.size)
    (hpos : s.pos c = .climb T.depth) : Agrees T (s.step T c) fun _ _ => .gathering := by
  obtain ⟨hin, hzero, hsleep⟩ := h.at_top hc hpos
  have hg : ∀ c' < T.size, st 0 c' ≠ .gathering := fun c' hc' hst =>
    hin c' hc' ((h.out c' hc').mpr hst)
  have hstep : s.step T c = { s with
      tokens := fun c' => if c' < T.size then s.tokens c' + 1 else s.tokens c'
      pos := Function.update s.pos c .wfi
      wakes := s.wakes + 1 } := by
    simp [State.step, hpos]
  have hp : ∀ c' < T.size, (s.step T c).pos c' = .wfi := by
    intro c' hc'
    rw [hstep]
    by_cases hcc : c' = c
    · simp [hcc]
    · simp [Function.update_of_ne hcc, hsleep c' hc' hcc]
  have htok : ∀ c' < T.size, (s.step T c).tokens c' = 1 := by
    intro c' hc'
    have := h.tokens c' hc'
    rw [if_neg (fun h => hg c' hc' h.2)] at this
    rw [hstep]
    simp [hc', this]
  refine ⟨?_, by simp, ?_, ?_, ?_, by simp, ?_, ?_, by simp, ?_, ?_⟩
  · intro c' hc' l
    simp [hp c' hc']
  · intro c' hc' l hcl
    rw [hp c' hc'] at hcl
    cases hcl
  · intro c₁ hc₁ c₂ _ l h₁
    rw [hp c₁ hc₁] at h₁
    cases h₁
  · intro l hl b hf
    have := hf 0 (T.arity_pos hl)
    cases this
  · intro l hl b hb
    rw [hstep]
    simp [delivered, hzero l hl b hb]
  · intro c' hc'
    simp [State.Out, hp c' hc', htok c' hc']
  · intro c' hc'
    simp [hp c' hc', htok c' hc']
  · intro c' hc'
    have := h.entered c' hc'
    rw [if_neg (hg c' hc')] at this
    rw [hstep]
    simpa using this

/-- A sleeping core finds its wake-up and leaves. -/
theorem leave (h : Agrees T s st) (hc : c < T.size) (hpos : s.pos c = .wfi)
    (htok : 0 < s.tokens c) : Agrees T (s.step T c) st := by
  have hg : st 0 c = .gathering := (h.out c hc).mp (.inr ⟨hpos, htok⟩)
  have hone : s.tokens c = 1 := by rw [h.tokens c hc, if_pos ⟨hpos, hg⟩]
  have hstep : s.step T c = { s with
      tokens := Function.update s.tokens c 0
      pos := Function.update s.pos c .idle } := by
    simp [State.step, hpos, hone]
  have hp : ∀ c', c' ≠ c → (s.step T c).pos c' = s.pos c' := by
    intro c' hcc
    rw [hstep]
    exact Function.update_of_ne hcc _ _
  have hpc : (s.step T c).pos c = .idle := by
    rw [hstep]
    exact Function.update_self _ _ _
  have ht : ∀ c', c' ≠ c → (s.step T c).tokens c' = s.tokens c' := by
    intro c' hcc
    rw [hstep]
    exact Function.update_of_ne hcc _ _
  -- a core that climbs or clears is not the one that leaves
  have hclimb : ∀ c', ∀ l, (s.step T c).pos c' = .climb l ↔ s.pos c' = .climb l := by
    intro c' l
    by_cases hcc : c' = c
    · simp [hcc, hpc, hpos]
    · rw [hp c' hcc]
  have hclear : ∀ c', ∀ l, (s.step T c).pos c' = .clear l ↔ s.pos c' = .clear l := by
    intro c' l
    by_cases hcc : c' = c
    · simp [hcc, hpc, hpos]
    · rw [hp c' hcc]
  refine ⟨?_, h.holder, ?_, ?_, ?_, h.full, ?_, ?_, h.top, ?_, ?_⟩
  · intro c' hc' l
    rw [hclimb]
    exact h.climb c' hc' l
  · intro c' hc' l hcl
    exact h.clear c' hc' l ((hclear c' l).mp hcl)
  · intro c₁ hc₁ c₂ hc₂ l h₁ h₂
    exact h.clear_unique c₁ hc₁ c₂ hc₂ l ((hclear _ _).mp h₁) ((hclear _ _).mp h₂)
  · intro l hl b hf hgat
    obtain ⟨c', hc', hb, hcl⟩ := h.clearing l hl b hf hgat
    exact ⟨c', hc', hb, (hclear c' l).mpr hcl⟩
  · rw [hstep]
    exact h.count
  · intro c' hc'
    by_cases hcc : c' = c
    · rw [hcc]
      exact ⟨fun _ => hg, fun _ => .inl hpc⟩
    · rw [← h.out c' hc', State.Out, State.Out, hp c' hcc, ht c' hcc]
  · intro c' hc'
    by_cases hcc : c' = c
    · rw [hcc, hpc, hstep]
      simp
    · rw [hp c' hcc, ht c' hcc]
      exact h.tokens c' hc'
  · rw [hstep]
    exact h.entered

/-- A core enters. -/
theorem step_idle (h : Agrees T s st) (hc : c < T.size) (hpos : s.pos c = .idle) :
    Agrees T (s.step T c) (set2 st 0 (c / T.width 0) (.held c)) := by
  have hg : st 0 (c / T.width 0) = .gathering := by
    rw [T.width_zero, Nat.div_one]
    exact (h.out c hc).mp (.inl hpos)
  refine h.take ⟨hc, Nat.zero_le _, hg, ?_, ?_, .inl ⟨hpos, rfl⟩, ?_, ?_, ?_, ?_⟩
  · intro c' hcc
    simp [State.step, hpos, Function.update_of_ne hcc]
  · simp [State.step, hpos]
  · intro k b
    simp [State.step, hpos]
  · simp [State.step, hpos]
  · simp [State.step, hpos]
  · intro c'
    by_cases hcc : c' = c
    · simp [State.step, hpos, hcc]
    · simp [State.step, hpos, hcc]

/-- A core adds its block to the counter above. -/
theorem step_climb (h : Agrees T s st) (hc : c < T.size) (hl : l < T.depth)
    (hpos : s.pos c = .climb l) :
    Agrees T (s.step T c) (set2 st l (c / T.width l) .delivered) := by
  refine h.deliver ⟨hc, hl, hpos, ?_, ?_, ?_, ?_, ?_, ?_⟩
  · intro c' hcc
    simp [State.step, hpos, hl, Function.update_of_ne hcc]
  · simp [State.step, hpos, hl]
  · simp [State.step, hpos, hl]
  · simp [State.step, hpos, hl]
  · simp [State.step, hpos, hl]
  · simp [State.step, hpos, hl]

/-- The last core of a block goes on for the block. -/
theorem step_clear (h : Agrees T s st) (hc : c < T.size) (hpos : s.pos c = .clear l) :
    Agrees T (s.step T c) (set2 st (l + 1) (c / T.width (l + 1)) (.held c)) := by
  obtain ⟨hl, -, hg⟩ := h.clear c hc l hpos
  refine h.take ⟨hc, hl, hg, ?_, ?_, .inr ⟨l, rfl, hpos⟩, ?_, ?_, ?_, ?_⟩
  · intro c' hcc
    simp [State.step, hpos, Function.update_of_ne hcc]
  · simp [State.step, hpos]
  · intro k b
    simp [State.step, hpos, set2]
  · simp [State.step, hpos]
  · simp [State.step, hpos]
  · simp [State.step, hpos]

theorem step (h : Agrees T s st) (hc : c < T.size) :
    ∃ st', Agrees T (s.step T c) st' := by
  cases hpos : s.pos c with
  | idle => exact ⟨_, h.step_idle hc hpos⟩
  | climb l =>
      obtain ⟨hl, -⟩ := h.held_of_climb hc hpos
      rcases Nat.lt_or_eq_of_le hl with hlt | rfl
      · exact ⟨_, h.step_climb hc hlt hpos⟩
      · exact ⟨_, h.wake hc hpos⟩
  | clear l => exact ⟨_, h.step_clear hc hpos⟩
  | wfi =>
      rcases Nat.eq_zero_or_pos (s.tokens c) with h0 | htok
      · refine ⟨st, ?_⟩
        have hstep : s.step T c = s := by simp [State.step, hpos, h0]
        rw [hstep]
        exact h
      · exact ⟨st, h.leave hc hpos htok⟩

end Agrees

/-! ## Runs -/

namespace State

variable {T : Shape} {sched : Nat → Nat} {s : State} {c c' : Nat}

theorem agrees_after (hsched : ∀ t, sched t < T.size) (t : Nat) :
    ∃ st, Agrees T (after T sched t) st := by
  induction t with
  | zero => exact ⟨_, Agrees.agrees_start T⟩
  | succ t ih =>
      obtain ⟨st, h⟩ := ih
      exact h.step (hsched t)

/-- The step with which `c` calls everybody. -/
def Wakes (T : Shape) (s : State) (c : Nat) : Prop := s.pos c = .climb T.depth

theorem wakes_step_of_wakes (h : Wakes T s c) : (s.step T c).wakes = s.wakes + 1 := by
  rw [Wakes] at h
  simp [step, h]

theorem wakes_step (h : ∃ st, Agrees T s st) (hc : c < T.size) (hw : ¬ Wakes T s c) :
    (s.step T c).wakes = s.wakes := by
  obtain ⟨st, h⟩ := h
  cases hpos : s.pos c with
  | idle => simp [step, hpos]
  | climb l =>
      obtain ⟨hl, -⟩ := h.held_of_climb hc hpos
      have hlt : l < T.depth := by
        rcases Nat.lt_or_eq_of_le hl with hlt | rfl
        · exact hlt
        · exact absurd hpos hw
      simp [step, hpos, hlt]
  | clear l => simp [step, hpos]
  | wfi =>
      rcases Nat.eq_zero_or_pos (s.tokens c) with h0 | htok
      · simp [step, hpos, h0]
      · simp [step, hpos, htok]

/-- Steps a core can take before it sleeps for good. -/
def rank (T : Shape) (s : State) (c : Nat) : Nat :=
  match s.pos c with
  | .idle => 2 * T.depth + 2
  | .climb l => 2 * (T.depth - l) + 1
  | .clear l => 2 * (T.depth - l)
  | .wfi => if 0 < s.tokens c then 2 * T.depth + 3 else 0

theorem rank_step_self (h : ∃ st, Agrees T s st) (hc : c < T.size) (hw : ¬ Wakes T s c)
    (hr : 0 < rank T s c) : rank T (s.step T c) c < rank T s c := by
  obtain ⟨st, h⟩ := h
  cases hpos : s.pos c with
  | idle => simp [rank, step, hpos]
  | climb l =>
      obtain ⟨hl, -⟩ := h.held_of_climb hc hpos
      have hlt : l < T.depth := by
        rcases Nat.lt_or_eq_of_le hl with hlt | rfl
        · exact hlt
        · exact absurd hpos hw
      have htok : s.tokens c = 0 := by rw [h.tokens c hc, if_neg (by simp [hpos])]
      by_cases hlast : s.count l (c / T.width (l + 1)) = T.width (l + 1) - T.width l
      · simp [rank, step, hpos, hlt, hlast]
      · simp [rank, step, hpos, hlt, hlast, htok]
  | clear l =>
      obtain ⟨hl, -, -⟩ := h.clear c hc l hpos
      simp only [rank, step, hpos, Function.update_self]
      omega
  | wfi =>
      rcases Nat.eq_zero_or_pos (s.tokens c) with h0 | htok
      · simp [rank, hpos, h0] at hr
      · simp [rank, step, hpos, htok]

theorem rank_step_other (h : ∃ st, Agrees T s st) (hc : c < T.size) (hw : ¬ Wakes T s c)
    (hcc : c' ≠ c) : rank T (s.step T c) c' = rank T s c' := by
  obtain ⟨st, h⟩ := h
  cases hpos : s.pos c with
  | idle => simp [rank, step, hpos, Function.update_of_ne hcc]
  | climb l =>
      obtain ⟨hl, -⟩ := h.held_of_climb hc hpos
      have hlt : l < T.depth := by
        rcases Nat.lt_or_eq_of_le hl with hlt | rfl
        · exact hlt
        · exact absurd hpos hw
      simp [rank, step, hpos, hlt, Function.update_of_ne hcc]
  | clear l => simp [rank, step, hpos, Function.update_of_ne hcc]
  | wfi =>
      rcases Nat.eq_zero_or_pos (s.tokens c) with h0 | htok
      · simp [rank, step, hpos, h0]
      · simp [rank, step, hpos, htok, Function.update_of_ne hcc]

theorem rank_zero (h : ∃ st, Agrees T s st) (hc : c < T.size) (hr : rank T s c = 0) :
    s.pos c = .wfi ∧ s.tokens c = 0 := by
  obtain ⟨st, h⟩ := h
  cases hpos : s.pos c with
  | idle => simp [rank, hpos] at hr
  | climb l => simp [rank, hpos] at hr
  | clear l =>
      obtain ⟨hl, -, -⟩ := h.clear c hc l hpos
      simp only [rank, hpos] at hr
      omega
  | wfi =>
      refine ⟨rfl, ?_⟩
      by_contra hne
      simp [rank, hpos, Nat.pos_of_ne_zero hne] at hr

/-- Steps a core can take before it sleeps. -/
def climbRank (T : Shape) (s : State) (c : Nat) : Nat :=
  match s.pos c with
  | .idle => 2 * T.depth + 2
  | .climb l => 2 * (T.depth - l) + 1
  | .clear l => 2 * (T.depth - l)
  | .wfi => 0

theorem climbRank_pos (h : ∃ st, Agrees T s st) (hc : c < T.size) (hpos : s.pos c ≠ .wfi) :
    0 < climbRank T s c := by
  obtain ⟨st, h⟩ := h
  cases hp : s.pos c with
  | idle => simp [climbRank, hp]
  | climb l => simp [climbRank, hp]
  | clear l =>
      obtain ⟨hl, -, -⟩ := h.clear c hc l hp
      simp only [climbRank, hp]
      omega
  | wfi => exact absurd hp hpos

theorem climbRank_step_self (h : ∃ st, Agrees T s st) (hc : c < T.size) (hpos : s.pos c ≠ .wfi) :
    climbRank T (s.step T c) c < climbRank T s c := by
  obtain ⟨st, h⟩ := h
  cases hp : s.pos c with
  | idle => simp [climbRank, step, hp]
  | climb l =>
      rcases Nat.lt_or_ge l T.depth with hlt | hge
      · by_cases hlast : s.count l (c / T.width (l + 1)) = T.width (l + 1) - T.width l
        · simp [climbRank, step, hp, hlt, hlast]
        · simp [climbRank, step, hp, hlt, hlast]
      · simp [climbRank, step, hp, Nat.not_lt.mpr hge]
  | clear l =>
      obtain ⟨hl, -, -⟩ := h.clear c hc l hp
      simp only [climbRank, step, hp, Function.update_self]
      omega
  | wfi => exact absurd hp hpos

theorem pos_step_other {c' : Nat} (hcc : c' ≠ c) : (s.step T c).pos c' = s.pos c' := by
  cases hp : s.pos c with
  | idle => simp [step, hp, Function.update_of_ne hcc]
  | climb l =>
      by_cases hl : l < T.depth <;> simp [step, hp, hl, Function.update_of_ne hcc]
  | clear l => simp [step, hp, Function.update_of_ne hcc]
  | wfi =>
      by_cases htok : 0 < s.tokens c <;> simp [step, hp, htok, Function.update_of_ne hcc]

/-- A core that keeps moving gets to its WFI, whatever the others do. -/
theorem sleeps (hsched : ∀ t, sched t < T.size) (hc : c < T.size)
    (hmoves : ∀ t, ∃ u, t ≤ u ∧ sched u = c) (t : Nat) :
    ∃ u, t ≤ u ∧ (after T sched u).pos c = .wfi := by
  by_contra hno
  have hagree := agrees_after hsched
  have hnever : ∀ d, (after T sched (t + d)).pos c ≠ .wfi := fun d hp =>
    hno ⟨t + d, Nat.le_add_right _ _, hp⟩
  have hstep : ∀ d, sched (t + d) = c →
      climbRank T (after T sched (t + d + 1)) c < climbRank T (after T sched (t + d)) c := by
    intro d hsc
    show climbRank T ((after T sched (t + d)).step T (sched (t + d))) c < _
    rw [hsc]
    exact climbRank_step_self (hagree _) hc (hnever d)
  obtain ⟨d, hzero⟩ := @eventually_zero (fun d => climbRank T (after T sched (t + d)) c)
    (fun d => sched (t + d) = c)
    (fun d => by
      by_cases hsc : sched (t + d) = c
      · exact Nat.le_of_lt (hstep d hsc)
      · refine Nat.le_of_eq ?_
        show climbRank T ((after T sched (t + d)).step T (sched (t + d))) c = _
        rw [climbRank, pos_step_other (Ne.symm hsc)]
        rfl)
    (fun d hsc _ => hstep d hsc)
    (fun d => by
      obtain ⟨u, hu, hsc⟩ := hmoves (t + d)
      exact ⟨u - t, by omega, by rw [Nat.add_sub_cancel' (by omega), hsc]⟩)
  exact absurd hzero (Nat.ne_of_gt (climbRank_pos (hagree _) hc (hnever d)))

/-! ## Runs with idle steps

A program that simulates the machine may need more steps for the same, and then some
of its steps are none of the machine's.
-/

structure Run (T : Shape) (run : Nat → State) : Prop where
  agrees : ∀ t, ∃ st, Agrees T (run t) st
  next : ∀ t, run (t + 1) = run t ∨ ∃ c < T.size, run (t + 1) = (run t).step T c

namespace Run

variable {run : Nat → State}

theorem wakes_next (h : Run T run) (t : Nat) :
    (run (t + 1)).wakes = (run t).wakes ∨ (run (t + 1)).wakes = (run t).wakes + 1 := by
  rcases h.next t with heq | ⟨c, hc, heq⟩
  · rw [heq]
    exact .inl rfl
  · rw [heq]
    by_cases hw : Wakes T (run t) c
    · exact .inr (wakes_step_of_wakes hw)
    · exact .inl (wakes_step (h.agrees t) hc hw)

theorem wakes_mono (h : Run T run) {t u : Nat} (htu : t ≤ u) : (run t).wakes ≤ (run u).wakes := by
  induction htu with
  | refl => exact Nat.le_refl _
  | @step u _ ih =>
      refine Nat.le_trans ih ?_
      rcases h.wakes_next u with heq | heq
      · exact Nat.le_of_eq heq.symm
      · exact Nat.le_of_lt (Nat.lt_of_lt_of_eq (Nat.lt_succ_self _) heq.symm)

/-- Without a wake-up a core's rank never grows. -/
theorem rank_le (h : Run T run) {t : Nat} (hno : (run (t + 1)).wakes = (run t).wakes) (c : Nat)
    (hc : c < T.size) : rank T (run (t + 1)) c ≤ rank T (run t) c := by
  rcases h.next t with heq | ⟨c', hc', heq⟩
  · rw [heq]
  · have hw : ¬ Wakes T (run t) c' := by
      intro hw
      rw [heq, wakes_step_of_wakes hw] at hno
      omega
    rw [heq]
    by_cases hcc : c = c'
    · subst hcc
      rcases Nat.eq_zero_or_pos (rank T (run t) c) with h0 | hpos
      · obtain ⟨hp, ht⟩ := rank_zero (h.agrees t) hc h0
        have hstep : (run t).step T c = run t := by simp [step, hp, ht]
        rw [hstep]
      · exact Nat.le_of_lt (rank_step_self (h.agrees t) hc hw hpos)
    · exact Nat.le_of_eq (rank_step_other (h.agrees t) hc' hw hcc)

/-- If every core keeps moving, there is always another wake-up. -/
theorem next_wake (h : Run T run) (hsize : 0 < T.size)
    (hfair : ∀ c < T.size, ∀ t, ∃ u, t ≤ u ∧ run (u + 1) = (run u).step T c) (t : Nat) :
    ∃ u, t ≤ u ∧ (run u).wakes < (run (u + 1)).wakes := by
  by_contra hno
  have hnone : ∀ u, t ≤ u → (run (u + 1)).wakes = (run u).wakes := by
    intro u hu
    by_contra hne
    have := h.wakes_next u
    exact hno ⟨u, hu, by omega⟩
  have hle : ∀ c < T.size, ∀ u d, t ≤ u → rank T (run (u + d)) c ≤ rank T (run u) c := by
    intro c hc u d hu
    induction d with
    | zero => exact Nat.le_refl _
    | succ d ih => exact Nat.le_trans (h.rank_le (hnone (u + d) (by omega)) c hc) ih
  have hzero : ∀ c < T.size, ∃ d, rank T (run (t + d)) c = 0 := by
    intro c hc
    refine @eventually_zero (fun d => rank T (run (t + d)) c)
      (fun d => run (t + d + 1) = (run (t + d)).step T c)
      (fun d => h.rank_le (hnone (t + d) (Nat.le_add_right _ _)) c hc) ?_ ?_
    · intro d hmove hpos
      have hsame := hnone (t + d) (Nat.le_add_right _ _)
      rw [hmove] at hsame
      show rank T (run (t + d + 1)) c < _
      rw [hmove]
      refine rank_step_self (h.agrees _) hc (fun hw => ?_) hpos
      rw [wakes_step_of_wakes hw] at hsame
      omega
    · intro d
      obtain ⟨u, hu, hmove⟩ := hfair c hc (t + d)
      exact ⟨u - t, by omega, by rw [Nat.add_sub_cancel' (by omega), hmove]⟩
  have hall : ∀ n ≤ T.size, ∃ d, ∀ c < n, rank T (run (t + d)) c = 0 := by
    intro n
    induction n with
    | zero => exact fun _ => ⟨0, fun c hc => absurd hc (Nat.not_lt_zero _)⟩
    | succ n ih =>
        intro hn
        obtain ⟨d, hd'⟩ := ih (by omega)
        obtain ⟨e, he⟩ := hzero n hn
        refine ⟨d + e, fun c hc => ?_⟩
        rcases Nat.lt_or_eq_of_le (Nat.lt_succ_iff.mp hc) with hlt | rfl
        · have := hle c (by omega) (t + d) e (by omega)
          rw [hd' c hlt, Nat.add_assoc] at this
          exact Nat.le_zero.mp this
        · have := hle c (by omega) (t + e) d (by omega)
          rw [he, Nat.add_assoc, Nat.add_comm e d] at this
          exact Nat.le_zero.mp this
  obtain ⟨d, hd'⟩ := hall T.size (Nat.le_refl _)
  obtain ⟨st, ha⟩ := h.agrees (t + d)
  exact ha.awake hsize fun c hc => rank_zero ⟨st, ha⟩ hc (hd' c hc)

/-- Then every episode has one. -/
theorem episode (h : Run T run) (hsize : 0 < T.size) (hstart : (run 0).wakes = 0)
    (hfair : ∀ c < T.size, ∀ t, ∃ u, t ≤ u ∧ run (u + 1) = (run u).step T c) (e : Nat) :
    ∃ t, (run t).wakes = e ∧ (run (t + 1)).wakes = e + 1 := by
  -- the first time at which the number of wake-ups is beyond `e`
  have hreach : ∃ t, e < (run t).wakes := by
    induction e with
    | zero =>
        obtain ⟨u, -, hu⟩ := h.next_wake hsize hfair 0
        exact ⟨u + 1, by omega⟩
    | succ e ih =>
        obtain ⟨t, ht⟩ := ih
        obtain ⟨u, htu, hu⟩ := h.next_wake hsize hfair t
        have := h.wakes_mono htu
        exact ⟨u + 1, by omega⟩
  obtain ⟨t, ht⟩ := hreach
  induction t with
  | zero => omega
  | succ t ih =>
      have := h.wakes_next t
      by_cases hlt : e < (run t).wakes
      · exact ih hlt
      · exact ⟨t, by omega, by omega⟩

end Run

theorem run_after (hsched : ∀ t, sched t < T.size) : Run T (after T sched) where
  agrees := agrees_after hsched
  next t := .inr ⟨sched t, hsched t, rfl⟩

/-! ## Episodes -/

/-- What a wake-up finds: it belongs to the episode everybody has entered, and all
counters are back at zero. -/
theorem Wakes.spec (h : ∃ st, Agrees T s st) (hc : c < T.size)
    (hw : Wakes T s c) :
    (∀ c' < T.size, s.entered c' = s.wakes + 1) ∧
    ∀ l < T.depth, ∀ b, T.IsBlock (l + 1) b → s.count l b = 0 := by
  obtain ⟨st, h⟩ := h
  obtain ⟨hin, hzero, -⟩ := h.at_top hc hw
  refine ⟨fun c' hc' => ?_, hzero⟩
  rw [h.entered c' hc', if_neg fun hg => hin c' hc' ((h.out c' hc').mpr hg)]

theorem wakes_unique (hsched : ∀ t, sched t < T.size) {t u : Nat}
    (ht : Wakes T (after T sched t) (sched t)) (hu : Wakes T (after T sched u) (sched u))
    (htu : (after T sched t).wakes = (after T sched u).wakes) : t = u := by
  have hlt : ∀ {t u : Nat}, Wakes T (after T sched t) (sched t) →
      (after T sched t).wakes = (after T sched u).wakes → ¬ t < u := by
    intro t u ht htu hlt
    have hmono := (run_after hsched).wakes_mono (show t + 1 ≤ u from hlt)
    have hone : (after T sched (t + 1)).wakes = (after T sched t).wakes + 1 :=
      wakes_step_of_wakes ht
    omega
  rcases Nat.lt_trichotomy t u with h | h | h
  · exact absurd h (hlt ht htu)
  · exact h
  · exact absurd h (hlt hu htu.symm)

/-- If every core keeps moving, every episode has its wake-up. -/
theorem episode_wakes (hsched : ∀ t, sched t < T.size)
    (hfair : ∀ c < T.size, ∀ t, ∃ u, t ≤ u ∧ sched u = c) (e : Nat) :
    ∃ t, Wakes T (after T sched t) (sched t) ∧ (after T sched t).wakes = e := by
  obtain ⟨t, ht, hnext⟩ := (run_after hsched).episode (T.width_pos _ (Nat.le_refl _)) rfl
    (fun c hc t => by
      obtain ⟨u, hu, rfl⟩ := hfair c hc t
      exact ⟨u, hu, rfl⟩) e
  refine ⟨t, ?_, ht⟩
  by_contra hw
  have hsame := wakes_step (agrees_after hsched t) (hsched t) hw
  rw [after, hsame, ht] at hnext
  omega

end State

/-! ## A tree in an array -/

section Update

variable {α β : Type} {R : α → β → Prop} {f : Nat → α} {g : Nat → β} {x : α} {y : β} {n i : Nat}

/-- What relates the members of a team to those of another, it still relates when one of each has
moved. The members of the first are at places of their own. -/
theorem forall_update_at {p : Nat → Nat} (hinj : ∀ j < n, p j = p i → j = i)
    (h : ∀ j < n, R (f (p j)) (g j)) (hxy : R x y) :
    ∀ j < n, R (Function.update f (p i) x (p j)) (Function.update g i y j) := by
  intro j hj
  by_cases hji : j = i
  · rw [hji, Function.update_self, Function.update_self]
    exact hxy
  · rw [Function.update_of_ne fun he => hji (hinj j hj he), Function.update_of_ne hji]
    exact h j hj

theorem forall_update (h : ∀ j < n, R (f j) (g j)) (hxy : R x y) (i : Nat) :
    ∀ j < n, R (Function.update f i x j) (Function.update g i y j) :=
  forall_update_at (p := id) (fun _ _ => id) h hxy

end Update

/-- What a program has of the array holds the counters of the tree, and zeros. -/
structure InArray (T : Shape) (place : Nat → Nat → Nat) (own : Nat → Prop) (mem : Nat → Nat)
    (count : Nat → Nat → Nat) : Prop where
  count : ∀ l < T.depth, ∀ b, T.IsBlock (l + 1) b → mem (place l b) = count l b
  rest : ∀ e, own e → (∀ l < T.depth, ∀ b, T.IsBlock (l + 1) b → e ≠ place l b) → mem e = 0

section InArray

variable {T : Shape} {place : Nat → Nat → Nat} {own : Nat → Prop} {mem : Nat → Nat}
  {count : Nat → Nat → Nat} {l b : Nat}

theorem InArray.update (h : InArray T place own mem count) (hl : l < T.depth)
    (hb : T.IsBlock (l + 1) b)
    (hinj : ∀ m < T.depth, ∀ y, T.IsBlock (m + 1) y → place m y = place l b → m = l ∧ y = b)
    (v : Nat) : InArray T place own (Function.update mem (place l b) v) (set2 count l b v) where
  count := by
    intro m hm y hy
    by_cases hmy : m = l ∧ y = b
    · obtain ⟨rfl, rfl⟩ := hmy
      rw [Function.update_self, set2_same]
    · rw [Function.update_of_ne fun he => hmy (hinj m hm y hy he), set2_of_ne _ _ hmy]
      exact h.count m hm y hy
  rest := by
    intro e he hne
    rw [Function.update_of_ne (hne l hl b hb)]
    exact h.rest e he hne

/-- When the counters are zero, so is all of it. -/
theorem InArray.zero (h : InArray T place own mem count)
    (hzero : ∀ l < T.depth, ∀ b, T.IsBlock (l + 1) b → count l b = 0) {e : Nat} (he : own e) :
    mem e = 0 := by
  by_cases hex : ∃ l < T.depth, ∃ b, T.IsBlock (l + 1) b ∧ e = place l b
  · obtain ⟨l, hl, b, hb, rfl⟩ := hex
    rw [h.count l hl b hb]
    exact hzero l hl b hb
  · exact h.rest e he fun l hl b hb hne => hex ⟨l, hl, b, hb, hne⟩

end InArray

end TeraNoC.Lib.CombiningTree
