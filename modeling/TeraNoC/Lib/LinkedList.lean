import Mathlib.Data.List.Basic
import Mathlib.Logic.Function.Basic

/-!
# Linked lists in memory

A singly linked list threaded through the memory it describes: a node is an
address, and the word `link` above it holds the address of the next node. `Seg
mem link p l q` says that the nodes met from `p` on until `q` are `l`. A list
ends in the null pointer, and a node is never null.

A segment splits where its list does (`seg_append`), depends on the links of its
nodes only (`Seg.congr`), and is led elsewhere by writing the link of its last node
(`Seg.relink`). `walk` is the loop that looks for a node, with the node before it.
-/

namespace TeraNoC.Lib

variable {mem mem' : Nat → Nat} {link p q r x : Nat} {l l₁ l₂ : List Nat}

def Seg (mem : Nat → Nat) (link : Nat) (p : Nat) : List Nat → Nat → Prop
  | [], q => p = q
  | x :: l, q => p = x ∧ x ≠ 0 ∧ Seg mem link (mem (x + link)) l q

theorem seg_nil : Seg mem link p [] q ↔ p = q := Iff.rfl

theorem seg_cons : Seg mem link p (x :: l) q ↔
    p = x ∧ x ≠ 0 ∧ Seg mem link (mem (x + link)) l q := Iff.rfl

theorem seg_append :
    Seg mem link p (l₁ ++ l₂) q ↔ ∃ r, Seg mem link p l₁ r ∧ Seg mem link r l₂ q := by
  induction l₁ generalizing p with
  | nil => simp [seg_nil]
  | cons x l₁ ih =>
      simp only [List.cons_append, seg_cons, ih]
      constructor
      · rintro ⟨hp, hx, r, h₁, h₂⟩
        exact ⟨r, ⟨hp, hx, h₁⟩, h₂⟩
      · rintro ⟨r, ⟨hp, hx, h₁⟩, h₂⟩
        exact ⟨hp, hx, r, h₁, h₂⟩

theorem Seg.congr (h : Seg mem link p l q) (hmem : ∀ x ∈ l, mem' (x + link) = mem (x + link)) :
    Seg mem' link p l q := by
  induction l generalizing p with
  | nil => exact h
  | cons x l ih =>
      obtain ⟨hp, hx, hl⟩ := h
      refine ⟨hp, hx, ?_⟩
      rw [hmem x List.mem_cons_self]
      exact ih hl fun y hy => hmem y (List.mem_cons_of_mem _ hy)

/-- Writing the link of the last node leads the segment elsewhere. -/
theorem Seg.relink (h : Seg mem link p (l ++ [x]) q) (hx : x ∉ l) (r : Nat) :
    Seg (Function.update mem (x + link) r) link p (l ++ [x]) r := by
  obtain ⟨r', h₁, h₂⟩ := seg_append.mp h
  refine seg_append.mpr ⟨r', h₁.congr fun y hy => ?_, h₂.1, h₂.2.1, ?_⟩
  · have hne : y ≠ x := by
      rintro rfl
      exact hx hy
    exact Function.update_of_ne (by omega) _ _
  · exact seg_nil.mpr (Function.update_self _ _ _)

/-- The first nodes that satisfy `go` are passed; the result is the node stopped at
and the one before it, `none` if the fuel ran out. -/
def walk (mem : Nat → Nat) (link : Nat) (go : Nat → Bool) : Nat → Nat → Nat → Option (Nat × Nat)
  | 0, _, _ => none
  | fuel + 1, curr, prev =>
      if curr ≠ 0 ∧ go curr then walk mem link go fuel (mem (curr + link)) curr
      else some (curr, prev)

/-- The last node of a list, or what stands before it. -/
def lastOr (prev : Nat) (l : List Nat) : Nat := l.getLast?.getD prev

theorem lastOr_nil (prev : Nat) : lastOr prev [] = prev := rfl

theorem lastOr_cons (prev x : Nat) (l : List Nat) : lastOr prev (x :: l) = lastOr x l := by
  cases l with
  | nil => rfl
  | cons y l =>
      rw [lastOr, lastOr, List.getLast?_cons_cons, List.getLast?_eq_some_getLast (by simp)]
      rfl

theorem lastOr_append (prev x : Nat) (l : List Nat) : lastOr prev (l ++ [x]) = x := by
  rw [lastOr, List.getLast?_append]
  rfl

/-- The walk stops where the list splits into the nodes that satisfy `go` and one
that does not. -/
theorem walk_eq {go : Nat → Bool} {fuel : Nat} (prev : Nat) (h : Seg mem link p l 0)
    (hfuel : l.length < fuel) :
    ∃ l₁ l₂, l = l₁ ++ l₂ ∧ (∀ x ∈ l₁, go x = true) ∧ (∀ x ∈ l₂.head?, go x = false) ∧
      Seg mem link p l₁ (l₂.headD 0) ∧ Seg mem link (l₂.headD 0) l₂ 0 ∧
      walk mem link go fuel p prev = some (l₂.headD 0, lastOr prev l₁) := by
  induction l generalizing p prev fuel with
  | nil =>
      obtain ⟨fuel, rfl⟩ : ∃ n, fuel = n + 1 := ⟨fuel - 1, by omega⟩
      have hp := seg_nil.mp h
      refine ⟨[], [], rfl, by simp, by simp, hp, rfl, ?_⟩
      rw [walk, hp]
      simp [lastOr_nil]
  | cons x l ih =>
      obtain ⟨fuel, rfl⟩ : ∃ n, fuel = n + 1 := ⟨fuel - 1, by omega⟩
      obtain ⟨rfl, hx, hl⟩ := h
      cases hgo : go p with
      | false =>
          refine ⟨[], p :: l, rfl, by simp, by simpa using hgo, rfl, ⟨rfl, hx, hl⟩, ?_⟩
          rw [walk]
          simp [hgo, lastOr_nil]
      | true =>
          have hlen : l.length < fuel := by
            rw [List.length_cons] at hfuel
            omega
          obtain ⟨l₁, l₂, rfl, h₁, h₂, hs₁, hs₂, hw⟩ := ih p hl hlen
          refine ⟨p :: l₁, l₂, rfl, ?_, h₂, ⟨rfl, hx, hs₁⟩, hs₂, ?_⟩
          · intro y hy
            rcases List.mem_cons.mp hy with rfl | hy
            · exact hgo
            · exact h₁ y hy
          · rw [walk, if_pos ⟨hx, hgo⟩, hw, lastOr_cons]

/-- A walk sees nothing of the memory but the list. -/
theorem walk_congr {go go' : Nat → Bool} (fuel prev : Nat) (h : Seg mem link p l 0)
    (hmem : ∀ x ∈ l, mem' (x + link) = mem (x + link)) (hgo : ∀ x ∈ l, go' x = go x) :
    walk mem' link go' fuel p prev = walk mem link go fuel p prev := by
  induction fuel generalizing l p prev with
  | zero => rfl
  | succ fuel ih =>
      cases l with
      | nil => simp [walk, seg_nil.mp h]
      | cons x l =>
          obtain ⟨rfl, -, hl⟩ := h
          simp only [walk, hgo p List.mem_cons_self, hmem p List.mem_cons_self]
          rw [ih p hl (fun x hx => hmem x (List.mem_cons_of_mem _ hx)) fun x hx =>
            hgo x (List.mem_cons_of_mem _ hx)]

end TeraNoC.Lib
