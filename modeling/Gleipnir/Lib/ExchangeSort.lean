import Mathlib.Data.List.Perm.Basic
import Mathlib.Order.Lattice

/-!
# Sorting by exchanges

The sort of two nested loops: pass `i` compares the element at `i` with every later one and exchanges them when the later one
is smaller. After the pass the smallest is in front (`settle_perm`, `settle_le`), so the result is the sorted list, whatever
the order it started from (`exchangeSort_eq_of_perm`).
-/

namespace ExchangeSort

variable {α : Type*} [LinearOrder α]

/-- One pass that starts with `x` in front: what is in front afterwards, and what is behind it. -/
def settle (x : α) : List α → α × List α
  | [] => (x, [])
  | y :: ys =>
    if y < x then ((settle y ys).1, x :: (settle y ys).2) else ((settle x ys).1, y :: (settle x ys).2)

/-- That many passes, each on what the one before has left behind. -/
def passes : Nat → List α → List α
  | k + 1, x :: xs => (settle x xs).1 :: passes k (settle x xs).2
  | _, xs => xs

def exchangeSort (xs : List α) : List α := passes (xs.length - 1) xs

/-! ## One pass -/

theorem settle_perm (x : α) (xs : List α) : ((settle x xs).1 :: (settle x xs).2).Perm (x :: xs) := by
  induction xs generalizing x with
  | nil => exact .refl _
  | cons y ys ih =>
    unfold settle
    split
    · exact (List.Perm.swap _ _ _).trans ((ih y).cons x)
    · exact (List.Perm.swap _ _ _).trans (((ih x).cons y).trans (List.Perm.swap _ _ _))

theorem length_settle (x : α) (xs : List α) : (settle x xs).2.length = xs.length := by
  simpa using (settle_perm x xs).length_eq

/-- What a pass brings to the front is not above what it started with. -/
theorem settle_le_head (x : α) (xs : List α) : (settle x xs).1 ≤ x := by
  induction xs generalizing x with
  | nil => exact le_refl x
  | cons y ys ih =>
    unfold settle
    split
    · next hlt => exact (ih y).trans hlt.le
    · exact ih x

/-- **A pass brings the smallest to the front.** -/
theorem settle_le (x : α) (xs : List α) : ∀ y ∈ (settle x xs).2, (settle x xs).1 ≤ y := by
  induction xs generalizing x with
  | nil => simp [settle]
  | cons y ys ih =>
    unfold settle
    split
    · next hlt =>
      simp only [List.mem_cons, forall_eq_or_imp]
      exact ⟨(settle_le_head y ys).trans hlt.le, ih y⟩
    · next hle =>
      simp only [List.mem_cons, forall_eq_or_imp]
      exact ⟨(settle_le_head x ys).trans (not_lt.1 hle), ih x⟩

/-! ## All the passes -/

theorem passes_perm (k : Nat) (xs : List α) : (passes k xs).Perm xs := by
  induction k generalizing xs with
  | zero => cases xs <;> exact .refl _
  | succ k ih =>
    cases xs with
    | nil => exact .refl _
    | cons x xs => exact ((ih (settle x xs).2).cons _).trans (settle_perm x xs)

theorem passes_pairwise (k : Nat) (xs : List α) (h : xs.length ≤ k + 1) : (passes k xs).Pairwise (· ≤ ·) := by
  induction k generalizing xs with
  | zero =>
    cases xs with
    | nil => exact .nil
    | cons x xs =>
      obtain rfl : xs = [] := List.length_eq_zero_iff.1 (by simpa using h)
      exact List.pairwise_singleton _ _
  | succ k ih =>
    cases xs with
    | nil => exact .nil
    | cons x xs =>
      have hlen : (settle x xs).2.length ≤ k + 1 := by rw [length_settle]; exact Nat.le_of_succ_le_succ h
      refine .cons (fun y hy => ?_) (ih _ hlen)
      exact settle_le x xs y ((passes_perm k _).mem_iff.1 hy)

theorem exchangeSort_perm (xs : List α) : (exchangeSort xs).Perm xs := passes_perm _ xs

theorem exchangeSort_pairwise (xs : List α) : (exchangeSort xs).Pairwise (· ≤ ·) :=
  passes_pairwise _ xs (by omega)

/-- **The order it started from does not matter.** -/
theorem exchangeSort_eq_of_perm {xs ys : List α} (h : xs.Perm ys) : exchangeSort xs = exchangeSort ys :=
  List.Perm.eq_of_pairwise (fun _ _ _ _ hle hge => le_antisymm hle hge) (exchangeSort_pairwise xs)
    (exchangeSort_pairwise ys) ((exchangeSort_perm xs).trans (h.trans (exchangeSort_perm ys).symm))

end ExchangeSort
