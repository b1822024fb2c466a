import Mathlib.Data.List.Perm.Basic
import Mathlib.Algebra.BigOperators.Group.List.Basic
import Mathlib.Algebra.GroupWithZero.Nat

/-!
# Items in transit

A list of items on their way through a line of stages. A move takes one item out
of the list and puts it back at the end, one stage further. Two things survive
every move: how many items of a kind there are, and, for items that share their
queues, who is ahead of whom.

`Ahead` compares an item `x` with one that stands after it in the list: if `x`
was sent first it is at least as far, else it is behind by a whole stage. That
is what a move keeps when no item passes another of its own stage.
-/

namespace TeraNoC.Lib

variable {α : Type}

theorem perm_cons_eraseIdx {l : List α} {i : Nat} {x : α} (h : l[i]? = some x) :
    l.Perm (x :: l.eraseIdx i) := by
  obtain ⟨hi, rfl⟩ := List.getElem?_eq_some_iff.mp h
  exact (List.getElem_cons_eraseIdx_perm hi).symm

theorem countP_eraseIdx {l : List α} {i : Nat} {x : α} (h : l[i]? = some x) (p : α → Bool) :
    l.countP p = (l.eraseIdx i).countP p + if p x then 1 else 0 := by
  rw [(perm_cons_eraseIdx h).countP_eq, List.countP_cons]

theorem countP_move {l : List α} {i : Nat} {x : α} (h : l[i]? = some x) (y : α)
    (p : α → Bool) :
    (l.eraseIdx i ++ [y]).countP p + (if p x then 1 else 0)
      = l.countP p + if p y then 1 else 0 := by
  rw [List.countP_append, List.countP_singleton, countP_eraseIdx h p]
  omega

theorem sum_eraseIdx {l : List α} {i : Nat} {x : α} (h : l[i]? = some x) (w : α → Nat) :
    (l.map w).sum = w x + ((l.eraseIdx i).map w).sum := by
  rw [((perm_cons_eraseIdx h).map w).sum_eq, List.map_cons, List.sum_cons]

/-- A split of an extended list at an item: the item is the new one, or the split is
one of the old list. -/
theorem append_singleton_eq_split {l pre post : List α} {x e : α}
    (h : l ++ [x] = pre ++ e :: post) :
    (l = pre ∧ x = e) ∨ ∃ post', l = pre ++ e :: post' := by
  rcases List.eq_nil_or_concat post with rfl | ⟨post', y, rfl⟩
  · obtain ⟨h1, h2⟩ := List.append_inj' h rfl
    exact .inl ⟨h1, List.cons.inj h2 |>.1⟩
  · rw [List.concat_eq_append, ← List.cons_append, ← List.append_assoc] at h
    exact .inr ⟨post', (List.append_inj' h rfl).1⟩

theorem mem_move {l : List α} {i : Nat} {y z : α} (h : z ∈ l.eraseIdx i ++ [y]) :
    z ∈ l ∨ z = y := by
  rcases List.mem_append.mp h with h | h
  · exact .inl (List.mem_of_mem_eraseIdx h)
  · exact .inr (List.mem_singleton.mp h)

/-! ## Who is ahead -/

section Ahead

variable (same : α → α → Prop) (tag rank : α → Nat)

def Ahead (x y : α) : Prop :=
  same x y → (tag x < tag y → rank y ≤ rank x) ∧ (tag y < tag x → rank x < rank y)

variable {same tag rank}

/-- Those sent earlier are further when `x` is the first of its queue. -/
theorem Ahead.first {l : List α} (hl : l.Pairwise (Ahead same tag rank)) {i : Nat} {x : α}
    (hi : l[i]? = some x) (hsymm : ∀ y z, same y z → same z y)
    (hfirst : ∀ y ∈ l.take i, same y x → rank y ≠ rank x) {y : α} (hy : y ∈ l)
    (hxy : same y x) (htag : tag y < tag x) : rank x < rank y := by
  obtain ⟨hlt, rfl⟩ := List.getElem?_eq_some_iff.mp hi
  rw [← List.take_append_drop i l, List.drop_eq_getElem_cons hlt] at hl hy
  obtain ⟨-, hdrop, hcross⟩ := List.pairwise_append.mp hl
  rcases List.mem_append.mp hy with hy | hy
  · have hle := (hcross y hy _ List.mem_cons_self hxy).1 htag
    have := hfirst y hy hxy
    omega
  · rcases List.mem_cons.mp hy with rfl | hy
    · exact absurd htag (Nat.lt_irrefl _)
    · exact ((List.pairwise_cons.mp hdrop).1 y hy (hsymm _ _ hxy)).2 htag

/-- The first of a queue moves one stage on. -/
theorem Ahead.move {l : List α} (hl : l.Pairwise (Ahead same tag rank)) {i : Nat} {x x' : α}
    (hi : l[i]? = some x) (hsymm : ∀ y z, same y z → same z y)
    (hfirst : ∀ y ∈ l.take i, same y x → rank y ≠ rank x)
    (hsame : ∀ y, same y x' → same y x) (htag : tag x' = tag x)
    (hrank : rank x' = rank x + 1) :
    (l.eraseIdx i ++ [x']).Pairwise (Ahead same tag rank) := by
  refine List.pairwise_append.mpr
    ⟨hl.sublist (List.eraseIdx_sublist l i), List.pairwise_singleton _ _, ?_⟩
  intro y hy z hz hyz
  rw [List.mem_singleton.mp hz] at hyz ⊢
  have hyl := List.mem_of_mem_eraseIdx hy
  rw [htag, hrank]
  refine ⟨fun h => Ahead.first hl hi hsymm hfirst hyl (hsame y hyz) h, fun h => ?_⟩
  -- one that was sent later has not got past `x`
  obtain ⟨hlt, rfl⟩ := List.getElem?_eq_some_iff.mp hi
  rw [List.eraseIdx_eq_take_drop_succ] at hy
  rw [← List.take_append_drop i l, List.drop_eq_getElem_cons hlt] at hl
  obtain ⟨-, hdrop, hcross⟩ := List.pairwise_append.mp hl
  rcases List.mem_append.mp hy with hy | hy
  · have := (hcross y hy _ List.mem_cons_self (hsame y hyz)).2 h
    omega
  · have := ((List.pairwise_cons.mp hdrop).1 y hy (hsymm _ _ (hsame y hyz))).1 h
    omega

/-- A new item, sent after all the others, stands at the end of the line. -/
theorem Ahead.append {l : List α} (hl : l.Pairwise (Ahead same tag rank)) {x : α}
    (htag : ∀ y ∈ l, tag y < tag x) (hrank : ∀ y ∈ l, same y x → rank x ≤ rank y) :
    (l ++ [x]).Pairwise (Ahead same tag rank) := by
  refine List.pairwise_append.mpr ⟨hl, List.pairwise_singleton _ _, ?_⟩
  intro y hy z hz hyz
  rw [List.mem_singleton.mp hz] at hyz ⊢
  have := htag y hy
  exact ⟨fun _ => hrank y hy hyz, fun h => by omega⟩

/-- An item that is compared with no other goes to the end. -/
theorem Ahead.leave {l : List α} (hl : l.Pairwise (Ahead same tag rank)) (i : Nat) {x : α}
    (hx : ∀ y, ¬same y x) : (l.eraseIdx i ++ [x]).Pairwise (Ahead same tag rank) := by
  refine List.pairwise_append.mpr
    ⟨hl.sublist (List.eraseIdx_sublist l i), List.pairwise_singleton _ _, ?_⟩
  intro y _ z hz hyz
  rw [List.mem_singleton.mp hz] at hyz
  exact absurd hyz (hx y)

theorem Ahead.erase {l : List α} (hl : l.Pairwise (Ahead same tag rank)) (i : Nat) :
    (l.eraseIdx i).Pairwise (Ahead same tag rank) :=
  hl.sublist (List.eraseIdx_sublist l i)

end Ahead

end TeraNoC.Lib
