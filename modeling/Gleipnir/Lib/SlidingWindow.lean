import Mathlib.Data.Int.Order.Basic
import Mathlib.Data.List.Basic

/-!
# Sliding windows

A log of times in which each entry had fewer than `n` entries of the log less than `w` before it. Then no set of times that lie
less than `w` apart has more than `n` entries (`Admitted.length_filter_le`), in particular no half-open interval of length `w`.

Whoever decides about the next entry need not keep the whole log: it may forget what is too old to count (`Remembers`).
-/

namespace SlidingWindow

variable {n : ℕ} {w now now' cutoff t : ℤ} {log kept : List ℤ}

/-- The entries that are less than `w` before `now`. -/
def recent (w now : ℤ) (log : List ℤ) : List ℤ := log.filter fun t => now - w < t

theorem recent_append (log log' : List ℤ) : recent w now (log ++ log') = recent w now log ++ recent w now log' :=
  List.filter_append ..

/-- What was dropped as too old stays too old. -/
theorem recent_filter (h : cutoff ≤ now - w) : recent w now (log.filter fun t => cutoff < t) = recent w now log := by
  rw [recent, List.filter_filter]
  refine List.filter_congr fun t _ => ?_
  by_cases ht : now - w < t
  · simp [ht, lt_of_le_of_lt h ht]
  · simp [ht]

/-! ## Logs -/

/-- Each entry came when fewer than `n` were recent. -/
inductive Admitted (n : ℕ) (w : ℤ) : List ℤ → Prop
  | nil : Admitted n w []
  | concat {log : List ℤ} {t : ℤ} (h : Admitted n w log) (hroom : (recent w t log).length < n) : Admitted n w (log ++ [t])

/-- **Sliding windows.** At most `n` entries lie less than `w` apart. -/
theorem Admitted.length_filter_le (h : Admitted n w log) {p : ℤ → Bool}
    (hp : ∀ t t', p t = true → p t' = true → t - t' < w) : (log.filter p).length ≤ n := by
  induction h with
  | nil => exact Nat.zero_le n
  | @concat log t _ hroom ih =>
    rw [List.filter_append]
    cases ht : p t with
    | false => simpa [ht] using ih
    | true =>
      have hsub : (log.filter p).length ≤ (recent w t log).length := by
        refine (List.monotone_filter_right log fun t' ht' => ?_).length_le
        have hclose := hp t t' ht ht'
        simp only [decide_eq_true_eq]
        omega
      simp only [List.filter_cons, ht, if_true, List.filter_nil, List.length_append, List.length_singleton]
      omega

theorem Admitted.length_Ico_le (h : Admitted n w log) (a : ℤ) :
    (log.filter fun t => a ≤ t ∧ t < a + w).length ≤ n := by
  refine h.length_filter_le fun t t' ht ht' => ?_
  simp only [decide_eq_true_eq] at ht ht'
  omega

theorem Admitted.length_Ioc_le (h : Admitted n w log) (a : ℤ) :
    (log.filter fun t => a < t ∧ t ≤ a + w).length ≤ n := by
  refine h.length_filter_le fun t t' ht ht' => ?_
  simp only [decide_eq_true_eq] at ht ht'
  omega

/-! ## Memory -/

/-- From `now` on, the entries kept show what is recent in the log. -/
def Remembers (w now : ℤ) (log kept : List ℤ) : Prop := ∀ now', now ≤ now' → recent w now' kept = recent w now' log

namespace Remembers

theorem later (h : Remembers w now log kept) (hle : now ≤ now') : Remembers w now' log kept :=
  fun t ht => h t (le_trans hle ht)

theorem recent_eq (h : Remembers w now log kept) : recent w now kept = recent w now log := h now le_rfl

/-- Old entries may be dropped. -/
theorem prune (h : Remembers w now log kept) (hcutoff : cutoff ≤ now - w) :
    Remembers w now log (kept.filter fun t => cutoff < t) := by
  intro t ht
  rw [recent_filter (by omega), h t ht]

theorem recent (h : Remembers w now log kept) : Remembers w now log (recent w now kept) := h.prune le_rfl

/-- An entry that is made is kept. -/
theorem concat (h : Remembers w now log kept) (t : ℤ) : Remembers w now (log ++ [t]) (kept ++ [t]) := by
  intro now' hnow
  rw [recent_append, recent_append, h now' hnow]

end Remembers

end SlidingWindow
