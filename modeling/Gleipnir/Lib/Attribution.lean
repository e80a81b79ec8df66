import Mathlib.Data.List.Nodup
import Mathlib.Data.List.Range

/-!
# Items attributed by position

A certificate over a list of members marks the positions of those who contributed an item, and carries the items in the
order of the list. A reader takes the item at the rank of a mark for one of the member at that position of the reader's own
list.

* `getElem?_items`: over the list it was written for, the item at the rank of a mark is the member's own.
* `attributed_iff`, `paired_iff`: over another list, when no item passes for two members, the reading succeeds exactly if
  every contributor stands at the same position of both lists.
-/

namespace Attribution

variable {ι σ : Type*} (l l' : List ι) (item : ι → Option σ)

/-- The number of marks below a position. -/
def rank (m : Nat → Bool) (i : Nat) : Nat := (List.range i).countP m

/-- The positions of the members with an item. -/
def marks (i : Nat) : Bool := (l[i]?.bind item).isSome

/-- Every contributor of the one list stands at the same position of the other. -/
def Aligned : Prop := ∀ (i : Nat) (a : ι), l[i]? = some a → (item a).isSome → l'[i]? = some a

variable {l l' item}

theorem rank_succ (m : Nat → Bool) (i : Nat) : rank m (i + 1) = rank m i + if m i = true then 1 else 0 := by
  simp [rank, List.range_succ, List.countP_append, List.countP_singleton]

variable {i n : Nat} {a : ι} {s : σ}

theorem marks_iff : marks l item i = true ↔ ∃ a s, l[i]? = some a ∧ item a = some s := by
  simp only [marks, Option.isSome_iff_exists, Option.bind_eq_some_iff]
  constructor
  · rintro ⟨s, a, ha, hs⟩
    exact ⟨a, s, ha, hs⟩
  · rintro ⟨a, s, ha, hs⟩
    exact ⟨s, a, ha, hs⟩

theorem marks_of_getElem? (ha : l[i]? = some a) (hs : item a = some s) : marks l item i = true := marks_iff.2 ⟨a, s, ha, hs⟩

/-- The items of the members before a position are as many as the marks. -/
theorem length_items_take (i : Nat) : ((l.take i).filterMap item).length = rank (marks l item) i := by
  induction i with
  | zero => simp [rank]
  | succ i ih =>
    rw [List.take_add_one, List.filterMap_append, List.length_append, ih, rank_succ]
    congr 1
    cases ha : l[i]? with
    | none => simp [marks, ha]
    | some a =>
      cases hs : item a with
      | none => simp [marks, ha, hs]
      | some s => simp [marks, ha, hs]

theorem rank_marks_length : rank (marks l item) l.length = (l.filterMap item).length := by
  rw [← length_items_take, List.take_length]

/-- There are as many marks as items. -/
theorem length_filter_marks (hn : l.length ≤ n) :
    ((List.range n).filter (marks l item)).length = (l.filterMap item).length := by
  rw [← List.countP_eq_length_filter]
  exact (length_items_take n).symm.trans (by rw [List.take_of_length_le hn])

/-- **The item at the rank of a mark** is that of the member at the marked position. -/
theorem getElem?_items (ha : l[i]? = some a) (hs : item a = some s) : (l.filterMap item)[rank (marks l item) i]? = some s := by
  obtain ⟨hi, rfl⟩ := List.getElem?_eq_some_iff.1 ha
  have hsplit : l = l.take i ++ l[i] :: l.drop (i + 1) := by
    rw [List.getElem_cons_drop, List.take_append_drop]
  have hitems : l.filterMap item = (l.take i).filterMap item ++ s :: (l.drop (i + 1)).filterMap item := by
    conv_lhs => rw [hsplit]
    rw [List.filterMap_append, List.filterMap_cons_some hs]
  rw [hitems, ← length_items_take, List.getElem?_append_right le_rfl, Nat.sub_self, List.getElem?_cons_zero]

/-! ## Reading over the same list -/

/-- The members at the marked positions, each with the item at the rank of its mark. -/
def byRank (m : Nat → Bool) (items : List σ) : List (ι × Nat) → Option (List (ι × σ))
  | [] => some []
  | (a, i) :: ps =>
    if m i = true then items[rank m i]?.bind fun s => (byRank m items ps).map ((a, s) :: ·) else byRank m items ps

/-- The items with the members at the positions they come with. -/
def byPosition (l : List ι) : List (σ × Nat) → Option (List (ι × σ))
  | [] => some []
  | (s, i) :: ps => l[i]?.bind fun a => (byPosition l ps).map ((a, s) :: ·)

/-- The members with an item, each with its own. -/
def contributions (l : List ι) (item : ι → Option σ) : List (ι × σ) := l.filterMap fun a => (item a).map (a, ·)

theorem mem_contributions : (a, s) ∈ contributions l item ↔ a ∈ l ∧ item a = some s := by
  simp [contributions]

/-- The members under other names. -/
theorem map_contributions {κ : Type*} (f : κ → ι) (l : List κ) (item : ι → Option σ) :
    ((contributions l fun a => item (f a)).map fun x => (f x.1, x.2)) = contributions (l.map f) item := by
  rw [contributions, contributions, List.filterMap_map, List.map_filterMap]
  refine List.filterMap_congr fun a _ => ?_
  rw [Option.map_map]
  rfl

theorem nodup_contributions (h : l.Nodup) : (contributions l item).Nodup := by
  refine h.filterMap fun a b x ha hb => ?_
  obtain ⟨s, -, rfl⟩ := Option.map_eq_some_iff.1 ha
  obtain ⟨t, -, hx⟩ := Option.map_eq_some_iff.1 hb
  exact (congrArg Prod.fst hx).symm

theorem contributions_zipIdx (l : List ι) (item : ι → Option σ) :
    (l.zipIdx.filterMap fun x => (item x.1).map (x.1, ·)) = contributions l item := by
  conv_rhs => rw [contributions, ← List.zipIdx_map_fst 0 l, List.filterMap_map]
  rfl

/-- One member of either kind after the other; `ps` is what is left of the list. -/
theorem byRank_eq (ps : List (ι × Nat)) (h : ∀ x ∈ ps, l[x.2]? = some x.1) :
    byRank (marks l item) (l.filterMap item) ps = some (ps.filterMap fun x => (item x.1).map (x.1, ·)) := by
  induction ps with
  | nil => rfl
  | cons x ps ih =>
    obtain ⟨a, i⟩ := x
    rw [List.forall_mem_cons] at h
    have ha : l[i]? = some a := h.1
    rw [byRank, ih h.2]
    cases hs : item a with
    | none =>
      have hmark : marks l item i = false := by simp [marks, ha, hs]
      rw [if_neg (by simp [hmark]), List.filterMap_cons_none (by simp [hs])]
    | some s =>
      rw [if_pos (marks_of_getElem? ha hs), getElem?_items ha hs, List.filterMap_cons_some (by simp [hs]; rfl)]
      rfl

theorem byPosition_eq (ps : List (ι × Nat)) (h : ∀ x ∈ ps, l[x.2]? = some x.1) :
    byPosition l (ps.filterMap fun x => (item x.1).map (·, x.2)) =
      some (ps.filterMap fun x => (item x.1).map (x.1, ·)) := by
  induction ps with
  | nil => rfl
  | cons x ps ih =>
    obtain ⟨a, i⟩ := x
    rw [List.forall_mem_cons] at h
    have ha : l[i]? = some a := h.1
    cases hs : item a with
    | none => simpa [hs] using ih h.2
    | some s => simp [hs, byPosition, ha, ih h.2]

theorem getElem?_of_mem_zipIdx : ∀ x ∈ l.zipIdx, l[x.2]? = some x.1 := by
  intro x hx
  exact List.mem_zipIdx_iff_getElem?.1 hx

/-- The marked positions, taken from the members. -/
theorem filter_marks_eq (hn : l.length ≤ n) :
    (List.range n).filter (marks l item) = l.zipIdx.filterMap fun x => (item x.1).map fun _ => x.2 := by
  obtain ⟨k, rfl⟩ := Nat.exists_eq_add_of_le hn
  have hpast : ((List.range k).map (l.length + ·)).filter (marks l item) = [] := by
    simp [List.filter_eq_nil_iff, marks]
  have hpositions : List.range l.length = l.zipIdx.map Prod.snd := by
    rw [List.zipIdx_map_snd, List.range_eq_range']
  rw [List.range_add, List.filter_append, hpast, List.append_nil, hpositions, ← List.filterMap_eq_filter,
    List.filterMap_map]
  refine List.filterMap_congr fun x hx => ?_
  cases hs : item x.1 with
  | none => simp [marks, getElem?_of_mem_zipIdx x hx, hs, Option.guard]
  | some s => simp [marks, getElem?_of_mem_zipIdx x hx, hs, Option.guard]

theorem zip_items (ps : List (ι × Nat)) :
    (ps.filterMap fun x => item x.1).zip (ps.filterMap fun x => (item x.1).map fun _ => x.2) =
      ps.filterMap fun x => (item x.1).map (·, x.2) := by
  induction ps with
  | nil => rfl
  | cons x ps ih =>
    cases hs : item x.1 with
    | none => simpa [hs] using ih
    | some s => simpa [hs] using ih

/-- **Reading by rank** over the list of the certificate gives the contributions. -/
theorem byRank_marks : byRank (marks l item) (l.filterMap item) l.zipIdx = some (contributions l item) := by
  rw [byRank_eq _ getElem?_of_mem_zipIdx, contributions_zipIdx]

/-- The items and the marked positions are those of the same members. -/
theorem zip_marks (hn : l.length ≤ n) :
    (l.filterMap item).zip ((List.range n).filter (marks l item)) =
      l.zipIdx.filterMap fun x => (item x.1).map (·, x.2) := by
  have hitems : l.filterMap item = l.zipIdx.filterMap fun x => item x.1 := by
    conv_lhs => rw [← List.zipIdx_map_fst 0 l, List.filterMap_map]
    rfl
  rw [filter_marks_eq hn, hitems, zip_items]

/-- **Reading in pairs** over the list of the certificate gives the contributions. -/
theorem byPosition_marks (hn : l.length ≤ n) :
    byPosition l ((l.filterMap item).zip ((List.range n).filter (marks l item))) = some (contributions l item) := by
  rw [zip_marks hn, byPosition_eq _ getElem?_of_mem_zipIdx, contributions_zipIdx]

/-! ## Reading over another list -/

variable {ok : ι → σ → Prop}

/-- Every marked position of a list has an item that passes for the member there. -/
def Attributed (ok : ι → σ → Prop) (l : List ι) (m : Nat → Bool) (items : List σ) : Prop :=
  ∀ (i : Nat) (a : ι), l[i]? = some a → m i = true → ∃ s, items[rank m i]? = some s ∧ ok a s

/-- The items paired with the marked positions. -/
theorem mem_zip_marks (hn : l.length ≤ n) :
    (s, i) ∈ (l.filterMap item).zip ((List.range n).filter (marks l item)) ↔ ∃ a, l[i]? = some a ∧ item a = some s := by
  rw [zip_marks hn]
  simp [List.mem_zipIdx_iff_getElem?]

section Reading

variable (hok : ∀ a s, a ∈ l → item a = some s → ok a s)
  (hone : ∀ a s b, a ∈ l → item a = some s → b ∈ l' → ok b s → b = a)

include hok hone

/-- **Reading by rank** over a list of the same length. -/
theorem attributed_iff (hlen : l'.length = l.length) :
    Attributed ok l' (marks l item) (l.filterMap item) ↔ Aligned l l' item := by
  constructor
  · intro h i a ha hsome
    obtain ⟨s, hs⟩ := Option.isSome_iff_exists.1 hsome
    have hi : i < l'.length := hlen ▸ (List.getElem?_eq_some_iff.1 ha).1
    have hb : l'[i]? = some l'[i] := List.getElem?_eq_getElem hi
    obtain ⟨s', hs', hpass⟩ := h i _ hb (marks_of_getElem? ha hs)
    rw [getElem?_items ha hs] at hs'
    cases hs'
    rw [hb, hone a s _ (List.mem_of_getElem? ha) hs (List.mem_of_getElem? hb) hpass]
  · intro h i b hb hmark
    obtain ⟨a, s, ha, hs⟩ := marks_iff.1 hmark
    have hab := h i a ha (by rw [hs]; rfl)
    rw [hb] at hab
    cases hab
    exact ⟨s, getElem?_items ha hs, hok b s (List.mem_of_getElem? ha) hs⟩

/-- **Reading in pairs** over another list. -/
theorem paired_iff {n : Nat} (hn : l.length ≤ n) :
    (∀ x ∈ (l.filterMap item).zip ((List.range n).filter (marks l item)), ∃ b, l'[x.2]? = some b ∧ ok b x.1) ↔
      Aligned l l' item := by
  constructor
  · intro h i a ha hsome
    obtain ⟨s, hs⟩ := Option.isSome_iff_exists.1 hsome
    obtain ⟨b, hb, hpass⟩ := h (s, i) ((mem_zip_marks hn).2 ⟨a, ha, hs⟩)
    rw [hb, hone a s b (List.mem_of_getElem? ha) hs (List.mem_of_getElem? hb) hpass]
  · rintro h ⟨s, i⟩ hx
    obtain ⟨a, ha, hs⟩ := (mem_zip_marks hn).1 hx
    exact ⟨a, h i a ha (by rw [hs]; rfl), hok a s (List.mem_of_getElem? ha) hs⟩

end Reading

end Attribution
