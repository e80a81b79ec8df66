import Mathlib.Data.List.AList
import Mathlib.Data.List.Induction

/-!
# The first message of each key

A store that keeps the first message under each key, before it looks at whether the message is valid. `find?_firsts`: what it
answers for a key is the first message that came. `valid_first_iff`: the keys whose message is valid are those under which
some valid message came exactly if no key is shadowed, its first message invalid and a later one valid.

`lookup_foldl_offer` is the same for a map that is filled from a list, some messages being unreadable.
-/

namespace FirstWins

variable {α κ : Type} [DecidableEq κ] (key : α → κ)

/-- Keep a message unless one of its key is there. -/
def keep (l : List α) (a : α) : List α := if ∃ x ∈ l, key x = key a then l else l ++ [a]

/-- The store after the messages `l`. -/
def firsts (l : List α) : List α := l.foldl (keep key) []

/-- The first message of a key. -/
def first (k : κ) (l : List α) : Option α := l.find? fun a => key a = k

variable {key}

theorem first_append (k : κ) (l l' : List α) : first key k (l ++ l') = (first key k l).or (first key k l') :=
  List.find?_append

variable {k : κ} {l : List α} {a : α}

theorem first_eq_none : first key k l = none ↔ ∀ a ∈ l, key a ≠ k := by
  simp [first]

theorem first_singleton_ne (h : key a ≠ k) : first key k [a] = none :=
  first_eq_none.2 fun b hb => by rwa [List.mem_singleton.1 hb]

theorem key_of_first (h : first key k l = some a) : a ∈ l ∧ key a = k :=
  ⟨List.mem_of_find?_eq_some h, by simpa using List.find?_some h⟩

theorem exists_first (ha : a ∈ l) (hk : key a = k) : ∃ b, first key k l = some b := by
  cases h : first key k l with
  | none => exact absurd hk (first_eq_none.1 h a ha)
  | some b => exact ⟨b, rfl⟩

theorem first_keep (k : κ) (l : List α) (a : α) : first key k (keep key l a) = first key k (l ++ [a]) := by
  unfold keep
  split
  · next hheld =>
    obtain ⟨x, hx, hkey⟩ := hheld
    rw [first_append]
    by_cases hk : key a = k
    · obtain ⟨b, hb⟩ := exists_first hx (hkey.trans hk)
      rw [hb, Option.some_or]
    · rw [first_singleton_ne hk, Option.or_none]
  · rfl

/-- **The store answers with the first message.** -/
theorem find?_firsts (k : κ) (l : List α) : first key k (firsts key l) = first key k l := by
  induction l using List.reverseRecOn with
  | nil => rfl
  | append_singleton l a ih =>
    rw [firsts, List.foldl_concat, ← firsts, first_keep, first_append, first_append, ih]

/-- What a prefix answers, the whole list answers. -/
theorem first_of_prefix {l' : List α} (h : l <+: l') (ha : first key k l = some a) : first key k l' = some a := by
  obtain ⟨rest, rfl⟩ := h
  rw [first_append, ha, Option.some_or]

/-! ## Shadowing -/

variable (key) in
/-- If some message of the key is valid, the first one is. -/
def Unshadowed (valid : α → Prop) (k : κ) (l : List α) : Prop :=
  (∃ a ∈ l, key a = k ∧ valid a) → ∀ a, first key k l = some a → valid a

/-- **Validity after the choice** is validity of some message exactly if the key is not shadowed. -/
theorem valid_first_iff {valid : α → Prop} :
    ((∃ a, first key k l = some a ∧ valid a) ↔ ∃ a ∈ l, key a = k ∧ valid a) ↔ Unshadowed key valid k l := by
  constructor
  · intro h hsome a ha
    obtain ⟨b, hb, hvalid⟩ := h.2 hsome
    rw [ha] at hb
    cases hb
    exact hvalid
  · refine fun h => ⟨fun ⟨a, ha, hvalid⟩ => ?_, fun hsome => ?_⟩
    · obtain ⟨hmem, hk⟩ := key_of_first ha
      exact ⟨a, hmem, hk, hvalid⟩
    · obtain ⟨b, hb, hk, hvalid⟩ := hsome
      obtain ⟨a, ha⟩ := exists_first hb hk
      exact ⟨a, ha, h ⟨b, hb, hk, hvalid⟩ a ha⟩

/-! ## Maps -/

variable {β : Type} (value : α → Option β)

variable (key) in
/-- Put a readable message into a map unless its key is there. -/
def offer (m : AList fun _ : κ => β) (a : α) : AList fun _ : κ => β :=
  match value a with
  | none => m
  | some v => if key a ∈ m then m else m.insert (key a) v

variable {value}

theorem lookup_singleton_ne {k' : κ} (h : k' ≠ k) (v : β) :
    AList.lookup k' (AList.singleton k v : AList fun _ : κ => β) = none := by
  rw [← AList.insert_empty, AList.lookup_insert_ne h, AList.lookup_empty]

theorem lookup_offer (m : AList fun _ : κ => β) (a : α) (k : κ) :
    (offer key value m a).lookup k = (m.lookup k).or (if key a = k then value a else none) := by
  unfold offer
  cases hv : value a with
  | none => simp
  | some v =>
    simp only
    by_cases hk : key a = k
    · subst hk
      rw [if_pos rfl]
      split
      · next hmem =>
        obtain ⟨w, hw⟩ := Option.isSome_iff_exists.1 (AList.lookup_isSome.2 hmem)
        rw [hw, Option.some_or]
      · next hmem => rw [AList.lookup_insert, AList.lookup_eq_none.2 hmem, Option.none_or]
    · rw [if_neg hk, Option.or_none]
      split
      · rfl
      · exact AList.lookup_insert_ne (Ne.symm hk)

/-- **A map that is filled from a list** has under each key the first message that could be read. -/
theorem lookup_foldl_offer (l : List α) (m : AList fun _ : κ => β) (k : κ) :
    (l.foldl (offer key value) m).lookup k = (m.lookup k).or (l.findSome? fun a => if key a = k then value a else none) := by
  induction l generalizing m with
  | nil => simp
  | cons a l ih =>
    rw [List.foldl_cons, ih, lookup_offer, Option.or_assoc, List.findSome?_cons]
    cases if key a = k then value a else none with
    | none => rfl
    | some v => rfl

/-- If every message can be read, this is the first message of the key. -/
theorem findSome?_total {f : α → β} (k : κ) :
    (l.findSome? fun a => if key a = k then some (f a) else none) = (first key k l).map f := by
  induction l with
  | nil => rfl
  | cons a l ih =>
    by_cases hk : key a = k
    · simp [first, hk]
    · simp only [first, List.findSome?_cons, List.find?_cons, hk, decide_false] at ih ⊢
      exact ih

/-- In a store each key has one message, so the first one decides. -/
theorem findSome?_firsts (l : List α) (k : κ) :
    ((firsts key l).findSome? fun a => if key a = k then value a else none) = (first key k l).bind value := by
  induction l using List.reverseRecOn with
  | nil => rfl
  | append_singleton l a ih =>
    have hfirsts : firsts key (l ++ [a]) = keep key (firsts key l) a := List.foldl_concat _ _ _ _
    rw [hfirsts, first_append]
    by_cases hk : key a = k
    · subst hk
      have hone : first key (key a) [a] = some a := by simp [first]
      unfold keep
      split
      · next hheld =>
        obtain ⟨x, hx, hkey⟩ := hheld
        obtain ⟨b, hb⟩ := exists_first hx hkey
        rw [find?_firsts] at hb
        rw [ih, hb, Option.some_or]
      · next hheld =>
        have hnone : first key (key a) l = none := by
          rw [← find?_firsts]
          exact first_eq_none.2 fun x hx hkey => hheld ⟨x, hx, hkey⟩
        rw [List.findSome?_append, ih, hnone, hone]
        simp
    · rw [first_singleton_ne hk, Option.or_none, ← ih]
      unfold keep
      split
      · rfl
      · simp [List.findSome?_append, hk]

end FirstWins
