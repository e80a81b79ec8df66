import Mathlib.Data.List.Basic

/-!
# Occurrences in an appended list

A list with an element singled out, `u ++ a :: v`, that is also `l ++ r`: the element stands in one of the parts
(`left_or_right`), in the left one if it is not in the right one, and the other way round (`of_left`, `of_right`).
-/

namespace Occurrence

variable {α : Type} {a : α} {u v l r m : List α}

/-- The element stands in one of the two parts. -/
theorem left_or_right (h : u ++ a :: v = l ++ r) :
    (∃ w, l = u ++ a :: w ∧ v = w ++ r) ∨ ∃ w, r = w ++ a :: v ∧ u = l ++ w := by
  rcases List.append_eq_append_iff.1 h with ⟨w, rfl, hw⟩ | ⟨w, rfl, hw⟩
  · cases w with
    | nil => exact .inr ⟨[], hw.symm, by simp⟩
    | cons b w =>
      obtain ⟨rfl, rfl⟩ := List.cons.inj hw
      exact .inl ⟨w, rfl, rfl⟩
  · exact .inr ⟨w, hw, rfl⟩

/-- The element stands in the left part when it is not in the right one. -/
theorem of_left (h : u ++ a :: v = l ++ r) (ha : a ∉ r) : ∃ w, l = u ++ a :: w ∧ v = w ++ r := by
  refine (left_or_right h).resolve_right ?_
  rintro ⟨w, rfl, -⟩
  exact ha (List.mem_append_right _ List.mem_cons_self)

/-- The element stands in the right part when it is not in the left one. -/
theorem of_right (h : u ++ a :: v = l ++ r) (ha : a ∉ l) : ∃ w, r = w ++ a :: v ∧ u = l ++ w := by
  refine (left_or_right h).resolve_left ?_
  rintro ⟨w, rfl, -⟩
  exact ha (List.mem_append_right _ List.mem_cons_self)

/-- The element stands in the middle when it is in neither end. -/
theorem of_middle (h : u ++ a :: v = l ++ (m ++ r)) (hl : a ∉ l) (hr : a ∉ r) :
    ∃ w w', m = w ++ a :: w' ∧ u = l ++ w := by
  obtain ⟨w, hw, hu⟩ := of_right h hl
  obtain ⟨w', hm, -⟩ := of_left hw.symm hr
  exact ⟨w, w', hm, hu⟩

end Occurrence
