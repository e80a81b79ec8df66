import Mathlib.Order.Lattice
import Mathlib.Data.List.Basic

/-!
# Handovers of a key

The holder of a key passes it on in handovers: from `start` on the new key counts, and until `stop` the old one counts as
well. `keysAt` walks a list of handovers and stops at the first that has not been completed, so a later handover counts only
once the earlier ones are over.

* `keysAt_eq`: where the walk stops.
* `keysAt_append_of_before`: handovers still to come change nothing.
* `mem_keysAt`: a key that counts is the first one or comes from a handover that has begun.
-/

/-- From `start` to `stop` the old key and the new one both count. -/
structure Handover (T K : Type) where
  start : T
  stop : T
  key : K

namespace Handover

variable {T K : Type} [LinearOrder T] {t : T}

/-- The handover has begun and is not over. -/
def OpenAt (h : Handover T K) (t : T) : Prop := h.start ≤ t ∧ t ≤ h.stop

/-- The handover is over. -/
def DoneAt (h : Handover T K) (t : T) : Prop := h.start ≤ t ∧ h.stop < t

instance (h : Handover T K) (t : T) : Decidable (h.OpenAt t) := inferInstanceAs (Decidable (_ ∧ _))

instance (h : Handover T K) (t : T) : Decidable (h.DoneAt t) := inferInstanceAs (Decidable (_ ∧ _))

/-- The keys that count at `t`, when `k` is the key before the handovers. -/
def keysAt (t : T) : K → List (Handover T K) → List K
  | k, [] => [k]
  | k, h :: hs => if t < h.start then [k] else if t ≤ h.stop then [k, h.key] else keysAt t h.key hs

/-- The key after all the handovers. -/
def lastKey : K → List (Handover T K) → K
  | k, [] => k
  | _, h :: hs => lastKey h.key hs

/-- The handovers are listed in the order of their beginnings. -/
def Ascending (hs : List (Handover T K)) : Prop := hs.Pairwise fun h h' => h.start < h'.start

variable {h : Handover T K} {hs : List (Handover T K)}

theorem OpenAt.not_done (ho : h.OpenAt t) : ¬ h.DoneAt t := fun hd => not_le_of_gt hd.2 ho.2

omit [LinearOrder T] in
/-- The key after the handovers is that of the last one. -/
theorem lastKey_eq (hs : List (Handover T K)) : ∀ k, lastKey k hs = (hs.getLast?.map Handover.key).getD k := by
  induction hs with
  | nil => intro k; rfl
  | cons h hs ih =>
    intro k
    rw [lastKey, ih, List.getLast?_cons]
    cases hs.getLast? with
    | none => rfl
    | some last => rfl

/-! ## The walk -/

theorem keysAt_done (hd : h.DoneAt t) (k : K) (hs : List (Handover T K)) : keysAt t k (h :: hs) = keysAt t h.key hs := by
  rw [keysAt, if_neg (not_lt.2 hd.1), if_neg (not_le.2 hd.2)]

theorem keysAt_open (ho : h.OpenAt t) (k : K) (hs : List (Handover T K)) : keysAt t k (h :: hs) = [k, h.key] := by
  rw [keysAt, if_neg (not_lt.2 ho.1), if_pos ho.2]

/-- Before the handovers begin the first key counts alone. -/
theorem keysAt_of_before (k : K) (h : ∀ h ∈ hs, t < h.start) : keysAt t k hs = [k] := by
  cases hs with
  | nil => rfl
  | cons h' hs => rw [keysAt, if_pos (h h' List.mem_cons_self)]

/-- **Handovers still to come** change nothing. -/
theorem keysAt_append_of_before {later : List (Handover T K)} (hlater : ∀ h ∈ later, t < h.start)
    (hs : List (Handover T K)) : ∀ k, keysAt t k (hs ++ later) = keysAt t k hs := by
  induction hs with
  | nil => intro k; exact keysAt_of_before k hlater
  | cons h hs ih =>
    intro k
    simp only [List.cons_append, keysAt]
    split
    · rfl
    · split
      · rfl
      · exact ih h.key

/-- **Where the walk stops**: the key of the handovers that are over, and that of the first open one if there is any. -/
theorem keysAt_eq (hasc : Ascending hs) : ∀ k, keysAt t k hs =
    lastKey k (hs.takeWhile fun h => decide (h.DoneAt t)) ::
      ((hs.find? fun h => decide (h.OpenAt t)).map Handover.key).toList := by
  induction hs with
  | nil => intro k; rfl
  | cons h hs ih =>
    intro k
    obtain ⟨hfirst, hasc'⟩ := List.pairwise_cons.1 hasc
    by_cases hbegun : h.start ≤ t
    · by_cases hopen : t ≤ h.stop
      · have ho : h.OpenAt t := ⟨hbegun, hopen⟩
        rw [keysAt_open ho, List.takeWhile_cons_of_neg (by simpa using ho.not_done),
          List.find?_cons_of_pos (by simpa using ho)]
        rfl
      · have hd : h.DoneAt t := ⟨hbegun, not_le.1 hopen⟩
        have hno : ¬ h.OpenAt t := fun ho => hopen ho.2
        rw [keysAt_done hd, ih hasc', List.takeWhile_cons_of_pos (by simpa using hd),
          List.find?_cons_of_neg (by simpa using hno)]
        rfl
    · -- the list is ascending, so nothing after `h` has begun either
      have hnone : ∀ h' ∈ h :: hs, t < h'.start := by
        intro h' hmem
        rcases List.mem_cons.1 hmem with rfl | hmem
        · exact not_le.1 hbegun
        · exact (not_le.1 hbegun).trans (hfirst h' hmem)
      have hfind : (h :: hs).find? (fun h => decide (h.OpenAt t)) = none := by
        rw [List.find?_eq_none]
        intro h' hmem ho
        exact not_lt.2 (of_decide_eq_true ho).1 (hnone h' hmem)
      rw [keysAt_of_before k hnone, hfind, List.takeWhile_cons_of_neg (by simpa using fun hd : h.DoneAt t => hbegun hd.1)]
      rfl

/-- **A key that counts** is the first one or comes from a handover that has begun. -/
theorem mem_keysAt (hs : List (Handover T K)) : ∀ {k k' : K}, k' ∈ keysAt t k hs →
    k' = k ∨ ∃ h ∈ hs, h.start ≤ t ∧ h.key = k' := by
  induction hs with
  | nil => intro k k' hk; exact .inl (List.mem_singleton.1 hk)
  | cons h hs ih =>
    intro k k' hk
    rw [keysAt] at hk
    split at hk
    · exact .inl (List.mem_singleton.1 hk)
    · next hbegun =>
      split at hk
      · rcases List.mem_cons.1 hk with heq | hk
        · exact .inl heq
        · exact .inr ⟨h, List.mem_cons_self, not_lt.1 hbegun, (List.mem_singleton.1 hk).symm⟩
      · rcases ih hk with heq | ⟨h', hmem, hstart, heq⟩
        · exact .inr ⟨h, List.mem_cons_self, not_lt.1 hbegun, heq.symm⟩
        · exact .inr ⟨h', List.mem_cons_of_mem _ hmem, hstart, heq⟩

theorem keysAt_ne_nil (hs : List (Handover T K)) : ∀ k, keysAt t k hs ≠ [] := by
  induction hs with
  | nil => intro k; exact List.cons_ne_nil _ _
  | cons h hs ih =>
    intro k
    rw [keysAt]
    split
    · exact List.cons_ne_nil _ _
    · split
      · exact List.cons_ne_nil _ _
      · exact ih h.key

end Handover
