import Mathlib.Data.Finset.Card
import Mathlib.Data.List.Nodup

/-!
# Marked members of a list

A certificate marks positions of a list of members. `named f l m` is the set of names of the marked members: with
distinct names it has one element per mark (`card_named`), and two such sets over one list meet in at least as many
names as their sizes exceed the list (`card_named_inter`).
-/

namespace Quorum

variable {α ι : Type*} [DecidableEq ι] (f : α → ι)

/-- The names of the members at the marked positions. -/
def named (l : List α) (m : Nat → Bool) : Finset ι :=
  ((l.zipIdx.filter fun ai => m ai.2).map fun ai => f ai.1).toFinset

variable {f} {l : List α} {m m' : Nat → Bool}

theorem mem_named {id : ι} : id ∈ named f l m ↔ ∃ i a, l[i]? = some a ∧ m i = true ∧ f a = id := by
  simp only [named, List.mem_toFinset, List.mem_map, List.mem_filter, Prod.exists, List.mem_zipIdx_iff_getElem?]
  constructor
  · rintro ⟨a, i, ⟨ha, hm⟩, hf⟩
    exact ⟨i, a, ha, hm, hf⟩
  · rintro ⟨i, a, ha, hm, hf⟩
    exact ⟨a, i, ⟨ha, hm⟩, hf⟩

theorem countP_zipIdx (l : List α) (m : Nat → Bool) :
    (l.zipIdx.countP fun ai => m ai.2) = (List.range l.length).countP m := by
  have h : l.zipIdx.map Prod.snd = List.range l.length := by simp [List.range_eq_range']
  rw [← h, List.countP_map]
  rfl

/-- Distinct names are counted by the marks. -/
theorem card_named (hd : (l.map f).Nodup) : (named f l m).card = (List.range l.length).countP m := by
  have hmap : l.zipIdx.map (fun ai => f ai.1) = l.map f := by
    have : (fun ai : α × Nat => f ai.1) = f ∘ Prod.fst := rfl
    rw [this, ← List.map_map, List.zipIdx_map_fst]
  have hnodup : ((l.zipIdx.filter fun ai => m ai.2).map fun ai => f ai.1).Nodup :=
    List.Nodup.sublist (List.filter_sublist.map _) (hmap ▸ hd)
  rw [named, List.toFinset_card_of_nodup hnodup, List.length_map, ← List.countP_eq_length_filter, countP_zipIdx]

/-- Two marked sets over one list overlap in what they have too many. -/
theorem card_named_inter : (named f l m).card + (named f l m').card ≤ l.length + (named f l m ∩ named f l m').card := by
  have hsub : ∀ k, named f l k ⊆ (l.map f).toFinset := by
    intro k id hid
    obtain ⟨i, a, ha, -, rfl⟩ := mem_named.1 hid
    exact List.mem_toFinset.2 (List.mem_map_of_mem (List.mem_of_getElem? ha))
  have hunion : (named f l m ∪ named f l m').card ≤ l.length :=
    calc (named f l m ∪ named f l m').card ≤ (l.map f).toFinset.card :=
          Finset.card_le_card (Finset.union_subset (hsub m) (hsub m'))
      _ ≤ (l.map f).length := List.toFinset_card_le _
      _ = l.length := List.length_map _
  have := Finset.card_inter_add_card_union (named f l m) (named f l m')
  omega

end Quorum
