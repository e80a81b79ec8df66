import Mathlib.Data.List.Basic

/-!
# Chains of hashes

Every item of a chain names the hash of the item before it. If the hash of an item determines the name it carries, then the
last hash determines all of them (`hashes_eq`): the argument goes backwards, from each item to the one that it names.
-/

namespace HashChain

variable {B H : Type} (hash prev : B → H)

/-- The items name one another, the first one `h`. -/
def Linked : H → List B → Prop
  | _, [] => True
  | h, b :: bs => prev b = h ∧ Linked (hash b) bs

variable {hash prev}

/-- **The last hash determines the chain.** -/
theorem hashes_eq (bs : List B) : ∀ {bs' : List B} {h h' : H},
    (∀ b ∈ bs, ∀ b' ∈ bs', hash b = hash b' → prev b = prev b') → Linked hash prev h bs → Linked hash prev h' bs' →
    bs.length = bs'.length → bs.getLast?.map hash = bs'.getLast?.map hash →
    bs.map hash = bs'.map hash ∧ (bs ≠ [] → h = h') := by
  induction bs with
  | nil =>
    intro bs' h h' _ _ _ hlen _
    rw [List.length_eq_zero_iff.1 hlen.symm]
    exact ⟨rfl, fun hne => absurd rfl hne⟩
  | cons b bs ih =>
    intro bs' h h' hbinds hlinked hlinked' hlen hlast
    cases bs' with
    | nil => cases hlen
    | cons b' bs' =>
      obtain ⟨hprev, hrest⟩ := hlinked
      obtain ⟨hprev', hrest'⟩ := hlinked'
      have hlen' : bs.length = bs'.length := Nat.succ.inj hlen
      -- the hash of `b`: either it is the last one, or the next item names it
      have hhead : bs.map hash = bs'.map hash ∧ hash b = hash b' := by
        cases bs with
        | nil =>
          obtain rfl := List.length_eq_zero_iff.1 hlen'.symm
          exact ⟨rfl, by simpa using hlast⟩
        | cons c cs =>
          cases bs' with
          | nil => cases hlen'
          | cons c' cs' =>
            have hlast' : (c :: cs).getLast?.map hash = (c' :: cs').getLast?.map hash := by
              simpa [List.getLast?_cons_cons] using hlast
            obtain ⟨hhashes, hnames⟩ := ih (fun x hx y hy =>
              hbinds x (List.mem_cons_of_mem _ hx) y (List.mem_cons_of_mem _ hy)) hrest hrest' hlen' hlast'
            exact ⟨hhashes, hnames (List.cons_ne_nil _ _)⟩
      obtain ⟨hhashes, hhash⟩ := hhead
      refine ⟨by rw [List.map_cons, List.map_cons, hhashes, hhash], fun _ => ?_⟩
      calc h = prev b := hprev.symm
        _ = prev b' := hbinds b List.mem_cons_self b' List.mem_cons_self hhash
        _ = h' := hprev'

/-- What the hash of each item determines is the same in chains with the same hashes. -/
theorem map_eq_of_hashes {C : Type} {f : B → C} (bs : List B) : ∀ {bs' : List B},
    (∀ b ∈ bs, ∀ b' ∈ bs', hash b = hash b' → f b = f b') → bs.map hash = bs'.map hash → bs.map f = bs'.map f := by
  induction bs with
  | nil =>
    intro bs' _ h
    rw [List.map_eq_nil_iff.1 h.symm]
  | cons b bs ih =>
    intro bs' hbinds h
    cases bs' with
    | nil => cases h
    | cons b' bs' =>
      obtain ⟨hhash, hrest⟩ := List.cons.inj h
      rw [List.map_cons, List.map_cons, hbinds b List.mem_cons_self b' List.mem_cons_self hhash,
        ih (fun x hx y hy => hbinds x (List.mem_cons_of_mem _ hx) y (List.mem_cons_of_mem _ hy)) hrest]

end HashChain
