import Mathlib.Logic.Function.Basic
import Mathlib.Data.Nat.ModEq

/-!
# Ring buffers

A buffer of `n` slots of `d` words each, used round and round: entry number `k` is
in slot `k % n`. `Holds` says that the entries from number `first` on are there. It
survives a write to the next slot as long as that is not one of theirs.
-/

namespace TeraNoC.Lib.Ring

variable {ε α : Type} {d n : Nat}

/-- The entries from number `first` on are in the buffer. -/
def Holds (n : Nat) (word : ε → Fin d → α) (buf : Nat → α) (entries : List ε) (first : Nat) :
    Prop :=
  ∀ k, first ≤ k → ∀ h : k < entries.length, ∀ i : Fin d, buf (d * (k % n) + i) = word entries[k] i

/-- Numbers that are less than `n` apart are in different slots. -/
theorem slot_inj {k m : Nat} (hkm : k ≤ m) (hlt : m < k + n) (h : k % n = m % n) : k = m := by
  have hdvd : n ∣ m - k := (Nat.modEq_iff_dvd' hkm).mp h
  have := Nat.eq_zero_of_dvd_of_lt hdvd (by omega)
  omega

/-- The next number is in the slot of the first exactly when the ring is full. -/
theorem slot_wrap {first next : Nat} (hle : first ≤ next) (hlt : next < first + n) :
    (next + 1) % n = first % n ↔ next + 1 = first + n := by
  constructor
  · intro h
    by_contra hne
    have := slot_inj (by omega) (by omega) h.symm
    omega
  · intro h
    rw [h, Nat.add_mod_right]

/-- The words of different slots are different. -/
theorem word_inj {a b i j : Nat} (hi : i < d) (hj : j < d) (h : d * a + i = d * b + j) :
    a = b ∧ i = j := by
  have hdiv := congrArg (· / d) h
  have hd : 0 < d := by omega
  simp only [Nat.mul_add_div hd, Nat.div_eq_of_lt hi, Nat.div_eq_of_lt hj, Nat.add_zero] at hdiv
  subst hdiv
  exact ⟨rfl, Nat.add_left_cancel h⟩

section Holds

variable {word : ε → Fin d → α} {buf : Nat → α} {entries : List ε} {first : Nat}

/-- A write to a slot that is free. -/
theorem Holds.write (h : Holds n word buf entries first) (hroom : entries.length < first + n)
    {j : Nat} (hj : j < d) (v : α) :
    Holds n word (Function.update buf (d * (entries.length % n) + j) v) entries first := by
  intro k hk hlt i
  have hne : d * (k % n) + i ≠ d * (entries.length % n) + j := by
    intro he
    have := slot_inj (Nat.le_of_lt hlt) (by omega) (word_inj i.isLt hj he).1
    omega
  rw [Function.update_of_ne hne]
  exact h k hk hlt i

/-- The entry that was written counts. -/
theorem Holds.push (h : Holds n word buf entries first) {x : ε}
    (hx : ∀ i : Fin d, buf (d * (entries.length % n) + i) = word x i) :
    Holds n word buf (entries ++ [x]) first := by
  intro k hk hlt i
  rw [List.length_append, List.length_singleton] at hlt
  rcases Nat.lt_or_ge k entries.length with hlt' | hge
  · rw [List.getElem_append_left hlt']
    exact h k hk hlt' i
  · obtain rfl : k = entries.length := by omega
    rw [List.getElem_append_right (Nat.le_refl _)]
    simpa using hx i

/-- The first entry does not. -/
theorem Holds.pop (h : Holds n word buf entries first) : Holds n word buf entries (first + 1) :=
  fun k hk => h k (by omega)

end Holds

end TeraNoC.Lib.Ring
