import Mathlib.Data.List.Perm.Basic
import Mathlib.Order.Lattice

/-!
# The running minimum

A loop that keeps the element with the smallest key seen so far. Whatever the order of the list, it ends with an element
of least key (`minBy_mem`, `minBy_le`).
-/

namespace Argmin

variable {α κ : Type} [LinearOrder κ] (key : α → κ)

/-- The one with the smaller key; the first wins a draw. -/
def pick (best a : α) : α := if key a < key best then a else best

/-- Keep `best` until an element with a smaller key comes. -/
def minBy : α → List α → α
  | best, [] => best
  | best, a :: as => minBy (pick key best a) as

theorem pick_eq (best a : α) : pick key best a = a ∨ pick key best a = best := by
  unfold pick
  split
  · exact .inl rfl
  · exact .inr rfl

theorem pick_le (best a : α) : key (pick key best a) ≤ key a ∧ key (pick key best a) ≤ key best := by
  unfold pick
  split
  · exact ⟨le_refl _, le_of_lt ‹_›⟩
  · exact ⟨not_lt.1 ‹_›, le_refl _⟩

theorem minBy_mem : ∀ (best : α) (as : List α), minBy key best as ∈ best :: as
  | best, [] => by simp [minBy]
  | best, a :: as => by
    simp only [minBy]
    rcases List.mem_cons.1 (minBy_mem (pick key best a) as) with h | h
    · rw [h]
      rcases pick_eq key best a with h' | h' <;> simp [h']
    · exact List.mem_cons_of_mem _ (List.mem_cons_of_mem _ h)

theorem minBy_le_best : ∀ (best : α) (as : List α), key (minBy key best as) ≤ key best
  | _, [] => le_refl _
  | best, a :: as => le_trans (minBy_le_best (pick key best a) as) (pick_le key best a).2

theorem minBy_le : ∀ (best : α) (as : List α), ∀ a ∈ best :: as, key (minBy key best as) ≤ key a
  | best, [], a, ha => by
    obtain rfl : a = best := by simpa using ha
    exact le_refl _
  | best, b :: as, a, ha => by
    simp only [minBy]
    have hle := minBy_le_best key (pick key best b) as
    rcases List.mem_cons.1 ha with rfl | ha
    · exact le_trans hle (pick_le key a b).2
    · rcases List.mem_cons.1 ha with rfl | ha
      · exact le_trans hle (pick_le key best a).1
      · exact minBy_le (pick key best b) as a (List.mem_cons_of_mem _ ha)

end Argmin
