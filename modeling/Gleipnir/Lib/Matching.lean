import Mathlib.Data.Finset.Card
import Mathlib.Data.Finset.Filter

/-!
# Matching greedily

Items come one after the other, and each takes the first key that fits it and is still free. In general the order decides who is
left with nothing. If no item fits two keys it does not: the keys taken are those that fit some item
(`length_takeAll`).
-/

namespace Matching

variable {ι κ : Type*} [DecidableEq κ] (fits : κ → ι → Bool) (keys : List κ)

/-- The keys in use after an item has taken the first free one that fits. -/
def take (used : List κ) (i : ι) : List κ :=
  match keys.find? fun k => !decide (k ∈ used) && fits k i with
  | none => used
  | some k => k :: used

/-- The condition on the key may be tested in any way. -/
theorem take_eq_of_find? {fits : κ → ι → Bool} (keys : List κ) {used : List κ} {i : ι} {test : κ → Bool}
    (htest : ∀ k, test k = true ↔ k ∉ used ∧ fits k i = true) :
    (∀ k, keys.find? test = some k → take fits keys used i = k :: used) ∧
      (keys.find? test = none → take fits keys used i = used) := by
  have heq : (fun k => !decide (k ∈ used) && fits k i) = test := by
    funext k
    rw [Bool.eq_iff_iff, htest]
    simp
  unfold take
  rw [heq]
  exact ⟨fun k hk => by rw [hk], fun hnone => by rw [hnone]⟩

/-- The keys in use after all items. -/
def takeAll (is : List ι) (used : List κ) : List κ := is.foldl (take fits keys) used

/-- No item fits two of the keys. -/
def Unambiguous (is : List ι) : Prop :=
  ∀ i ∈ is, ∀ k ∈ keys, ∀ k' ∈ keys, fits k i = true → fits k' i = true → k = k'

variable {fits keys} {used : List κ} {is : List ι} {i : ι} {k : κ}

theorem nodup_take (h : used.Nodup) : (take fits keys used i).Nodup := by
  unfold take
  split
  · exact h
  · next k hfound =>
    have hfree := List.find?_some hfound
    exact List.nodup_cons.2 ⟨by simpa using (Bool.and_eq_true_iff.1 hfree).1, h⟩

/-- An item that fits at most one key puts that key in use. -/
theorem mem_take_iff (hone : ∀ k ∈ keys, ∀ k' ∈ keys, fits k i = true → fits k' i = true → k = k') :
    k ∈ take fits keys used i ↔ k ∈ used ∨ k ∈ keys ∧ fits k i = true := by
  unfold take
  split
  · next hnone =>
    refine (or_iff_left_of_imp fun hk => ?_).symm
    have hbusy := List.find?_eq_none.1 hnone k hk.1
    simpa [hk.2] using hbusy
  · next k' hfound =>
    have hmem := List.mem_of_find?_eq_some hfound
    have hgood := List.find?_some hfound
    have hfits := (Bool.and_eq_true_iff.1 hgood).2
    rw [List.mem_cons, or_comm]
    refine or_congr_right ⟨?_, fun hk => hone k hk.1 k' hmem hk.2 hfits⟩
    rintro rfl
    exact ⟨hmem, hfits⟩

theorem nodup_takeAll (h : used.Nodup) : (takeAll fits keys is used).Nodup := by
  induction is generalizing used with
  | nil => exact h
  | cons i is ih => exact ih (nodup_take h)

theorem mem_takeAll_iff (hone : Unambiguous fits keys is) :
    k ∈ takeAll fits keys is used ↔ k ∈ used ∨ k ∈ keys ∧ ∃ i ∈ is, fits k i = true := by
  induction is generalizing used with
  | nil => simp [takeAll]
  | cons i is ih =>
    have hrest : Unambiguous fits keys is := fun j hj => hone j (List.mem_cons_of_mem _ hj)
    refine (ih hrest).trans ?_
    rw [mem_take_iff (hone i List.mem_cons_self), or_assoc, ← and_or_left]
    simp only [List.mem_cons, exists_eq_or_imp]

/-- The keys that fit some item. -/
def wanted (fits : κ → ι → Bool) (keys : List κ) (is : List ι) : Finset κ :=
  keys.toFinset.filter fun k => ∃ i ∈ is, fits k i = true

theorem mem_wanted : k ∈ wanted fits keys is ↔ k ∈ keys ∧ ∃ i ∈ is, fits k i = true := by
  rw [wanted, Finset.mem_filter, List.mem_toFinset]

/-- **Greedy matching.** The number of keys taken is the number of keys that fit some item. -/
theorem length_takeAll (hone : Unambiguous fits keys is) : (takeAll fits keys is []).length = (wanted fits keys is).card := by
  have hset : (takeAll fits keys is []).toFinset = wanted fits keys is := by
    ext k
    rw [List.mem_toFinset, mem_takeAll_iff hone, mem_wanted]
    simp
  rw [← hset, List.toFinset_card_of_nodup (nodup_takeAll List.nodup_nil)]

end Matching
