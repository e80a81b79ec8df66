import Mathlib.Data.List.Sort

/-!
# Buckets of an ordered store

A bucket keeps values in the order of their keys, one for each key; a value carries its key. `put` replaces the value with the
same key, and reading the bucket from its first key on gives the values in order.

* `Bucket.put_of_mem`: putting a value again changes nothing.
* `Bucket.values_putAll_iff`: a list that is put over values of its own is read back as it was exactly if its keys ascend.
-/

namespace Atomic

variable {V K : Type} [LinearOrder K] (key : V → K)

/-- Put a value into a list that is sorted by the keys. -/
def insertKeyed (v : V) : List V → List V
  | [] => [v]
  | w :: ws => if key v < key w then v :: w :: ws else if key w < key v then w :: insertKeyed v ws else v :: ws

/-- The keys ascend strictly. -/
abbrev Ascending (vs : List V) : Prop := vs.Pairwise fun a b => key a < key b

variable {key} {v w : V} {vs : List V}

theorem mem_of_mem_insertKeyed (h : w ∈ insertKeyed key v vs) : w = v ∨ w ∈ vs := by
  induction vs with
  | nil => exact .inl (List.mem_singleton.1 h)
  | cons x vs ih =>
    unfold insertKeyed at h
    split at h
    · exact List.mem_cons.1 h
    · split at h
      · rcases List.mem_cons.1 h with rfl | h
        · exact .inr List.mem_cons_self
        · exact (ih h).imp_right (List.mem_cons_of_mem _)
      · exact (List.mem_cons.1 h).imp_right (List.mem_cons_of_mem _)

theorem self_mem_insertKeyed (v : V) (vs : List V) : v ∈ insertKeyed key v vs := by
  induction vs with
  | nil => exact List.mem_singleton.2 rfl
  | cons x vs ih =>
    unfold insertKeyed
    split
    · exact List.mem_cons_self
    · split
      · exact List.mem_cons_of_mem _ ih
      · exact List.mem_cons_self

/-- Only the value with the same key is replaced. -/
theorem mem_insertKeyed_of_ne (hw : w ∈ vs) (hne : key w ≠ key v) : w ∈ insertKeyed key v vs := by
  induction vs with
  | nil => cases hw
  | cons x vs ih =>
    unfold insertKeyed
    split
    · exact List.mem_cons_of_mem _ hw
    · next hle =>
      split
      · rcases List.mem_cons.1 hw with rfl | hw
        · exact List.mem_cons_self
        · exact List.mem_cons_of_mem _ (ih hw)
      · next hge =>
        rcases List.mem_cons.1 hw with rfl | hw
        · exact absurd (le_antisymm (not_lt.1 hle) (not_lt.1 hge)) hne
        · exact List.mem_cons_of_mem _ hw

theorem ascending_insertKeyed (h : Ascending key vs) (v : V) : Ascending key (insertKeyed key v vs) := by
  induction vs with
  | nil => exact List.pairwise_singleton _ v
  | cons x vs ih =>
    obtain ⟨hx, hvs⟩ := List.pairwise_cons.1 h
    unfold insertKeyed
    split
    · next hlt =>
      refine List.pairwise_cons.2 ⟨fun y hy => ?_, h⟩
      rcases List.mem_cons.1 hy with rfl | hy
      · exact hlt
      · exact hlt.trans (hx y hy)
    · next hle =>
      split
      · next hlt =>
        refine List.pairwise_cons.2 ⟨fun y hy => ?_, ih hvs⟩
        rcases mem_of_mem_insertKeyed hy with rfl | hy
        · exact hlt
        · exact hx y hy
      · next hge =>
        have hkey : key v = key x := le_antisymm (not_lt.1 hge) (not_lt.1 hle)
        exact List.pairwise_cons.2 ⟨fun y hy => hkey ▸ hx y hy, hvs⟩

/-- In an ascending list the key determines the value. -/
theorem Ascending.eq_of_key (h : Ascending key vs) (hv : v ∈ vs) (hw : w ∈ vs) (hkey : key v = key w) : v = w := by
  induction vs with
  | nil => cases hv
  | cons x vs ih =>
    obtain ⟨hx, hvs⟩ := List.pairwise_cons.1 h
    rcases List.mem_cons.1 hv with rfl | hv'
    · rcases List.mem_cons.1 hw with rfl | hw'
      · rfl
      · exact absurd hkey (hx w hw').ne
    · rcases List.mem_cons.1 hw with rfl | hw'
      · exact absurd hkey (hx v hv').ne'
      · exact ih hvs hv' hw'

/-- An ascending list is determined by its members. -/
theorem Ascending.eq_of_mem_iff {ws : List V} (h : Ascending key vs) (h' : Ascending key ws)
    (hmem : ∀ x, x ∈ vs ↔ x ∈ ws) : vs = ws := by
  have hirr : Std.Irrefl fun a b : V => key a < key b := ⟨fun a => lt_irrefl (key a)⟩
  have hanti : Std.Antisymm fun a b : V => key a < key b := ⟨fun _ _ hab hba => absurd hba hab.asymm⟩
  exact List.Pairwise.eq_of_mem_iff h h' hmem

/-! ## Buckets -/

/-- The values of a bucket, in the order of their keys. -/
structure Bucket (key : V → K) where
  values : List V
  sorted : Ascending key values

namespace Bucket

def empty : Bucket key := ⟨[], .nil⟩

/-- Put a value under its key. -/
def put (b : Bucket key) (v : V) : Bucket key := ⟨insertKeyed key v b.values, ascending_insertKeyed b.sorted v⟩

/-- Put values one after the other. -/
def putAll (b : Bucket key) (vs : List V) : Bucket key := vs.foldl put b

variable {b : Bucket key}

theorem eq_of_mem_iff {c : Bucket key} (h : ∀ x, x ∈ b.values ↔ x ∈ c.values) : b = c := by
  have hvalues : b.values = c.values := b.sorted.eq_of_mem_iff c.sorted h
  cases b
  cases c
  cases hvalues
  rfl

theorem put_of_mem (h : v ∈ b.values) : b.put v = b := by
  refine eq_of_mem_iff fun x => ⟨fun hx => ?_, fun hx => ?_⟩
  · rcases mem_of_mem_insertKeyed hx with rfl | hx
    · exact h
    · exact hx
  · by_cases hkey : key x = key v
    · rw [b.sorted.eq_of_key hx h hkey]
      exact self_mem_insertKeyed v b.values
    · exact mem_insertKeyed_of_ne hx hkey

/-- Values that are there already may be put again. -/
theorem putAll_of_mem (h : ∀ x ∈ vs, x ∈ b.values) : b.putAll vs = b := by
  induction vs with
  | nil => rfl
  | cons x vs ih =>
    rw [putAll, List.foldl_cons, put_of_mem (h x List.mem_cons_self)]
    exact ih fun y hy => h y (List.mem_cons_of_mem _ hy)

theorem mem_of_mem_putAll (h : v ∈ (b.putAll vs).values) : v ∈ b.values ∨ v ∈ vs := by
  induction vs generalizing b with
  | nil => exact .inl h
  | cons x vs ih =>
    rcases ih h with hput | hvs
    · rcases mem_of_mem_insertKeyed hput with rfl | hb
      · exact .inr List.mem_cons_self
      · exact .inl hb
    · exact .inr (List.mem_cons_of_mem _ hvs)

/-- A value stays as long as no other is put under its key. -/
theorem mem_putAll_of_ne (hv : v ∈ b.values) (h : ∀ x ∈ vs, key v ≠ key x) : v ∈ (b.putAll vs).values := by
  induction vs generalizing b with
  | nil => exact hv
  | cons x vs ih =>
    exact ih (mem_insertKeyed_of_ne hv (h x List.mem_cons_self)) fun y hy => h y (List.mem_cons_of_mem _ hy)

theorem mem_putAll (b : Bucket key) (h : Ascending key vs) (hv : v ∈ vs) : v ∈ (b.putAll vs).values := by
  induction vs generalizing b with
  | nil => cases hv
  | cons x vs ih =>
    obtain ⟨hx, hvs⟩ := List.pairwise_cons.1 h
    rcases List.mem_cons.1 hv with rfl | hv'
    · show v ∈ ((b.put v).putAll vs).values
      exact mem_putAll_of_ne (self_mem_insertKeyed v b.values) fun y hy => (hx y hy).ne
    · exact ih (b.put x) hvs hv'

/-- A list that is put into a bucket that has nothing else is read back exactly if its keys ascend. -/
theorem values_putAll_iff (hb : ∀ x ∈ b.values, x ∈ vs) : (b.putAll vs).values = vs ↔ Ascending key vs := by
  constructor
  · intro heq
    rw [← heq]
    exact (b.putAll vs).sorted
  · intro h
    refine (b.putAll vs).sorted.eq_of_mem_iff h fun x => ⟨fun hx => ?_, fun hx => mem_putAll b h hx⟩
    exact (mem_of_mem_putAll hx).elim (hb x) id

end Bucket

end Atomic
