import Mathlib.Data.List.AList
import Mathlib.Data.Set.Function

/-!
# Copying a map entry by entry

A loop over the entries of a finite map enters each of them into a new map, under another key and with another value. If no
two keys of the map get the same new key, the copy is the map under the new keys (`lookup_copyMap`) and has nothing else
(`lookup_copyMap_eq_none`), whatever the order of the loop.
-/

namespace CopyMap

variable {κ κ' β β' : Type*}

/-- Enter every entry under its new key. -/
def copyMap [DecidableEq κ'] (f : κ → κ') (g : β → β') (m : AList fun _ : κ => β) : AList fun _ : κ' => β' :=
  m.entries.foldl (fun acc s => acc.insert (f s.1) (g s.2)) ∅

variable {f : κ → κ'} {g : β → β'} {m : AList fun _ : κ => β}

theorem nodup_newKeys (hinj : Set.InjOn f {k | k ∈ m}) : (m.entries.map fun s => f s.1).Nodup := by
  have hkeys : (m.entries.map fun s => f s.1) = m.keys.map f := (List.map_map ..).symm
  rw [hkeys]
  exact m.keys_nodup.map_on fun a ha b hb heq => hinj (AList.mem_keys.2 ha) (AList.mem_keys.2 hb) heq

variable [DecidableEq κ']

/-- The loop leaves the other keys alone. -/
theorem lookup_foldl_of_ne {k' : κ'} (l : List (Sigma fun _ : κ => β)) (acc : AList fun _ : κ' => β')
    (h : ∀ s ∈ l, f s.1 ≠ k') :
    (l.foldl (fun acc s => acc.insert (f s.1) (g s.2)) acc).lookup k' = acc.lookup k' := by
  induction l generalizing acc with
  | nil => rfl
  | cons s l ih =>
    rw [List.forall_mem_cons] at h
    rw [List.foldl_cons, ih _ h.2, AList.lookup_insert_ne h.1.symm]

/-- An entry whose new key is no other's stays. -/
theorem lookup_foldl_of_mem {s : Sigma fun _ : κ => β} {l : List (Sigma fun _ : κ => β)} (acc : AList fun _ : κ' => β')
    (hs : s ∈ l) (hd : (l.map fun s => f s.1).Nodup) :
    (l.foldl (fun acc s => acc.insert (f s.1) (g s.2)) acc).lookup (f s.1) = some (g s.2) := by
  induction l generalizing acc with
  | nil => cases hs
  | cons a l ih =>
    obtain ⟨hnot, hd⟩ := List.nodup_cons.1 hd
    rw [List.foldl_cons]
    rcases List.mem_cons.1 hs with rfl | hs
    · rw [lookup_foldl_of_ne l _ fun b hb heq => hnot (List.mem_map.2 ⟨b, hb, heq⟩), AList.lookup_insert]
    · exact ih _ hs hd

/-- **The copy has every entry** under its new key. -/
theorem lookup_copyMap [DecidableEq κ] (hinj : Set.InjOn f {k | k ∈ m}) {k : κ} (hk : k ∈ m) :
    (copyMap f g m).lookup (f k) = (m.lookup k).map g := by
  obtain ⟨v, hv⟩ := Option.isSome_iff_exists.1 (AList.lookup_isSome.2 hk)
  rw [hv, Option.map_some]
  exact lookup_foldl_of_mem ∅ (AList.mem_lookup_iff.1 hv) (nodup_newKeys hinj)

/-- **The copy has nothing else.** -/
theorem lookup_copyMap_eq_none {k' : κ'} (h : ∀ k ∈ m, f k ≠ k') : (copyMap f g m).lookup k' = none := by
  rw [copyMap, lookup_foldl_of_ne m.entries ∅ fun s hs => h s.1 (AList.mem_keys.2 (List.mem_map_of_mem hs)),
    AList.lookup_empty]

/-- With distinct new keys for all keys, a new key has what the key has. -/
theorem lookup_copyMap_of_injective [DecidableEq κ] (hf : Function.Injective f) (k : κ) :
    (copyMap f g m).lookup (f k) = (m.lookup k).map g := by
  by_cases hk : k ∈ m
  · exact lookup_copyMap hf.injOn hk
  · have hnone : ∀ a ∈ m, f a ≠ f k := by
      intro a ha heq
      exact hk (hf heq ▸ ha)
    rw [lookup_copyMap_eq_none hnone, AList.lookup_eq_none.2 hk, Option.map_none]

/-- A loop that may fail on a key makes the same copy if it fails on none. -/
theorem foldlM_eq_copyMap {ε : Type*} {read : κ → Except ε κ'} (h : ∀ k ∈ m, read k = .ok (f k)) :
    m.entries.foldlM (fun acc s => (read s.1).map fun k => acc.insert k (g s.2)) ∅ = .ok (copyMap f g m) := by
  have hloop : ∀ (l : List (Sigma fun _ : κ => β)) (acc : AList fun _ : κ' => β'), (∀ s ∈ l, read s.1 = .ok (f s.1)) →
      l.foldlM (fun acc s => (read s.1).map fun k => acc.insert k (g s.2)) acc =
        .ok (l.foldl (fun acc s => acc.insert (f s.1) (g s.2)) acc) := by
    intro l
    induction l with
    | nil => exact fun acc _ => rfl
    | cons s l ih =>
      intro acc hl
      rw [List.forall_mem_cons] at hl
      rw [List.foldlM_cons, hl.1]
      exact ih _ hl.2
  exact hloop _ ∅ fun s hs => h s.1 (AList.mem_keys.2 (List.mem_map_of_mem hs))

end CopyMap
