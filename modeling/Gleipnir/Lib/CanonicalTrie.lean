import Gleipnir.Lib.MerkleTrie

/-!
# Canonical tries

A trie is compressed if every node of it is above two keys. Insertion keeps a trie compressed, and the finite map determines
a compressed trie, so neither the order of insertions nor the values that were overwritten can be told from it.

* `compressed_insert`, `eq_of_maps`: compressed tries are canonical.
* `digest_inj`: without collisions the digest determines the trie.
* `find_iff`: a search that stops above the last level finds the keys that are alone above it.
-/

namespace MerkleTrie

variable {K V H : Type}

namespace Trie

/-- Every node is above two keys. -/
def Compressed : Trie K V → Prop
  | .empty => True
  | .leaf _ _ => True
  | .node l r => (∃ k k', k ≠ k' ∧ (node l r).HasKey k ∧ (node l r).HasKey k') ∧ l.Compressed ∧ r.Compressed

theorem HasKey.left {l r : Trie K V} {k : K} (h : l.HasKey k) : (node l r).HasKey k := by
  obtain ⟨v, hv⟩ := h
  exact ⟨v, .inl hv⟩

theorem HasKey.right {l r : Trie K V} {k : K} (h : r.HasKey k) : (node l r).HasKey k := by
  obtain ⟨v, hv⟩ := h
  exact ⟨v, .inr hv⟩

theorem hasKey_node {l r : Trie K V} {k : K} : (node l r).HasKey k ↔ l.HasKey k ∨ r.HasKey k := by
  constructor
  · rintro ⟨v, hv | hv⟩
    · exact .inl ⟨v, hv⟩
    · exact .inr ⟨v, hv⟩
  · rintro (h | h)
    · exact h.left
    · exact h.right

/-- Two keys are enough for a node to have one besides any given key. -/
theorem Compressed.other {l r : Trie K V} (h : (node l r).Compressed) (k : K) : ∃ k', k' ≠ k ∧ (node l r).HasKey k' := by
  obtain ⟨⟨k₁, k₂, hne, h₁, h₂⟩, -, -⟩ := h
  by_cases hk : k₁ = k
  · exact ⟨k₂, fun hk' => hne (hk.trans hk'.symm), h₂⟩
  · exact ⟨k₁, hk, h₁⟩

/-- A compressed trie without keys is empty. -/
theorem Compressed.eq_empty {t : Trie K V} (h : t.Compressed) (hnone : ∀ k, ¬ t.HasKey k) : t = .empty := by
  cases t with
  | empty => rfl
  | leaf k v => exact absurd ⟨v, rfl, rfl⟩ (hnone k)
  | node l r =>
    obtain ⟨⟨k, -, -, hk, -⟩, -, -⟩ := h
    exact absurd hk (hnone k)

end Trie

namespace Scheme

open Trie

variable (M : Scheme K V H)

theorem compressed_split {k₁ k₂ : K} {v₁ v₂ : V} {d : Nat} (h : M.Apart d k₁ k₂) :
    (M.split k₁ v₁ k₂ v₂ d).Compressed := by
  induction d with
  | zero => trivial
  | succ d ih =>
    have hne : k₁ ≠ k₂ := by
      obtain ⟨i, -, hbit⟩ := h
      exact fun heq => hbit (by rw [heq])
    have hboth : ∃ k k', k ≠ k' ∧ (M.split k₁ v₁ k₂ v₂ (d + 1)).HasKey k ∧ (M.split k₁ v₁ k₂ v₂ (d + 1)).HasKey k' :=
      ⟨k₁, k₂, hne, ⟨v₁, (M.maps_split h k₁ v₁).2 (.inl ⟨rfl, rfl⟩)⟩, ⟨v₂, (M.maps_split h k₂ v₂).2 (.inr ⟨rfl, rfl⟩)⟩⟩
    unfold split at hboth ⊢
    split
    · next hbits =>
      have hsub := ih (M.apart_of_agree h hbits)
      rw [if_pos hbits] at hboth
      split
      · next hbit =>
        rw [if_pos hbit] at hboth
        exact ⟨hboth, trivial, hsub⟩
      · next hbit =>
        rw [if_neg hbit] at hboth
        exact ⟨hboth, hsub, trivial⟩
    · next hbits =>
      rw [if_neg hbits] at hboth
      split
      · next hbit =>
        rw [if_pos hbit] at hboth
        exact ⟨hboth, trivial, trivial⟩
      · next hbit =>
        rw [if_neg hbit] at hboth
        exact ⟨hboth, trivial, trivial⟩

variable {M} {d : Nat} {t t' : Trie K V} {k : K} {v : V}

/-- No key is lost by an insertion. -/
theorem HasKey.insert [DecidableEq K] (hp : M.Placed d t) (h : ∀ k', t.HasKey k' → k' ≠ k → M.Apart d k' k) {k' : K}
    (hk' : t.HasKey k') : (M.insert k v d t).HasKey k' := by
  obtain ⟨v', hv'⟩ := hk'
  by_cases heq : k' = k
  · exact ⟨v, (maps_insert hp h k' v).2 (.inl ⟨heq, rfl⟩)⟩
  · exact ⟨v', (maps_insert hp h k' v').2 (.inr ⟨heq, hv'⟩)⟩

/-- **Insertion keeps a trie compressed.** -/
theorem compressed_insert [DecidableEq K] (hc : t.Compressed) (hp : M.Placed d t)
    (h : ∀ k', t.HasKey k' → k' ≠ k → M.Apart d k' k) : (M.insert k v d t).Compressed := by
  induction t generalizing d with
  | empty =>
    rw [Scheme.insert]
    trivial
  | leaf k₁ v₁ =>
    cases d with
    | zero =>
      unfold Scheme.insert
      split <;> trivial
    | succ d =>
      unfold Scheme.insert
      split
      · trivial
      · next hk => exact M.compressed_split (h k₁ ⟨v₁, rfl, rfl⟩ hk)
  | node l r ihl ihr =>
    cases d with
    | zero => exact hp.elim
    | succ d =>
      have hkeys : ∀ k', (node l r).HasKey k' → (M.insert k v (d + 1) (node l r)).HasKey k' := fun _ => HasKey.insert hp h
      obtain ⟨⟨k₁, k₂, hne, h₁, h₂⟩, hcl, hcr⟩ := hc
      obtain ⟨-, hl, hr, hpl, hpr⟩ := hp
      have hboth := And.intro (hkeys k₁ h₁) (hkeys k₂ h₂)
      unfold Scheme.insert at hboth ⊢
      split
      · next hbit =>
        rw [if_pos hbit] at hboth
        have hbelow := apart_below hr hbit fun k' hk' => h k' hk'.right
        exact ⟨⟨k₁, k₂, hne, hboth⟩, hcl, ihr hcr hpr hbelow⟩
      · next hbit =>
        rw [if_neg hbit] at hboth
        have hbelow := apart_below hl (Bool.eq_false_iff.2 hbit) fun k' hk' => h k' hk'.left
        exact ⟨⟨k₁, k₂, hne, hboth⟩, ihl hcl hpl hbelow, hcr⟩

/-! ## The map determines the trie -/

/-- What the left subtree maps is what the node maps of the keys whose bit is `false`. -/
theorem maps_left_iff {l r : Trie K V} (hp : M.Placed (d + 1) (.node l r)) :
    l.Maps k v ↔ (Trie.node l r).Maps k v ∧ M.bit k d = false := by
  obtain ⟨-, hl, hr, -, -⟩ := hp
  constructor
  · exact fun h => ⟨.inl h, hl k ⟨v, h⟩⟩
  · rintro ⟨h | h, hbit⟩
    · exact h
    · rw [hr k ⟨v, h⟩] at hbit
      cases hbit

theorem maps_right_iff {l r : Trie K V} (hp : M.Placed (d + 1) (.node l r)) :
    r.Maps k v ↔ (Trie.node l r).Maps k v ∧ M.bit k d = true := by
  obtain ⟨-, hl, hr, -, -⟩ := hp
  constructor
  · exact fun h => ⟨.inr h, hr k ⟨v, h⟩⟩
  · rintro ⟨h | h, hbit⟩
    · rw [hl k ⟨v, h⟩] at hbit
      cases hbit
    · exact h

/-- **Compressed tries are canonical**: two that map the same keys to the same values are equal. -/
theorem eq_of_maps (hp : M.Placed d t) (hp' : M.Placed d t') (hc : t.Compressed) (hc' : t'.Compressed)
    (h : ∀ k v, t.Maps k v ↔ t'.Maps k v) : t = t' := by
  have hkeys : ∀ k, t.HasKey k ↔ t'.HasKey k := fun k => exists_congr fun v => h k v
  induction t generalizing d t' with
  | empty =>
    refine (hc'.eq_empty fun k hk => ?_).symm
    obtain ⟨v, hv⟩ := (hkeys k).2 hk
    exact hv
  | leaf k v =>
    cases t' with
    | empty => exact ((h k v).1 ⟨rfl, rfl⟩).elim
    | leaf k' v' =>
      obtain ⟨rfl, rfl⟩ := (h k v).1 ⟨rfl, rfl⟩
      rfl
    | node l' r' =>
      -- the node has a second key
      obtain ⟨k', hne, hk'⟩ := hc'.other k
      obtain ⟨v', rfl, -⟩ := (hkeys k').2 hk'
      exact absurd rfl hne
  | node l r ihl ihr =>
    cases d with
    | zero => exact hp.elim
    | succ d =>
      cases t' with
      | empty =>
        obtain ⟨⟨k', -, -, hk', -⟩, -, -⟩ := hc
        obtain ⟨v', hv'⟩ := (hkeys k').1 hk'
        exact hv'.elim
      | leaf k' v' =>
        obtain ⟨k, hne, hk⟩ := hc.other k'
        obtain ⟨v, rfl, -⟩ := (hkeys k).1 hk
        exact absurd rfl hne
      | node l' r' =>
        have hl : ∀ k v, l.Maps k v ↔ l'.Maps k v := fun k v => by rw [maps_left_iff hp, maps_left_iff hp', h]
        have hr : ∀ k v, r.Maps k v ↔ r'.Maps k v := fun k v => by rw [maps_right_iff hp, maps_right_iff hp', h]
        obtain ⟨-, -, -, hpl, hpr⟩ := hp
        obtain ⟨-, -, -, hpl', hpr'⟩ := hp'
        rw [ihl hpl hpl' hc.2.1 hc'.2.1 hl fun k => exists_congr fun v => hl k v,
          ihr hpr hpr' hc.2.2 hc'.2.2 hr fun k => exists_congr fun v => hr k v]

/-! ## The digest determines the trie -/

/-- The nodes of the two subtrees are among those of a node. -/
theorem nodes_below {S : Set (Node K V H)} {l r : Trie K V} (hn : ∀ n ∈ M.nodes (d + 1) (.node l r), n ∈ S) :
    (∀ n ∈ M.nodes d l, n ∈ S) ∧ ∀ n ∈ M.nodes d r, n ∈ S :=
  ⟨fun n h => hn n (List.mem_cons_of_mem _ (List.mem_append_left _ h)),
    fun n h => hn n (List.mem_cons_of_mem _ (List.mem_append_right _ h))⟩

/-- **The digest is binding**: two tries of one digest are equal, if no two of the nodes that they hash collide. -/
theorem digest_inj {D : Nat} {S : Set (Node K V H)} (hS : M.CollisionFree D S) (hp : M.Placed d t) (hp' : M.Placed d t')
    (hd : Within D d t) (hd' : Within D d t') (hn : ∀ n ∈ M.nodes d t, n ∈ S) (hn' : ∀ n ∈ M.nodes d t', n ∈ S)
    (h : M.digest d t = M.digest d t') : t = t' := by
  induction t generalizing d t' with
  | empty =>
    by_contra hne
    rw [Scheme.digest] at h
    exact hS.digest_ne_zero (Ne.symm hne) hp' hn' (hd.2 rfl) h.symm
  | leaf k v =>
    cases t' with
    | empty => exact absurd h (hS.digest_ne_zero (Trie.leaf_ne_empty k v) hp hn (hd'.2 rfl))
    | leaf k' v' =>
      obtain ⟨rfl, rfl⟩ := MerkleTrie.Node.leaf.inj (hS.inj (hn _ List.mem_cons_self) (hn' _ List.mem_cons_self) h)
      rfl
    | node l' r' => cases hS.inj (hn _ List.mem_cons_self) (hn' _ List.mem_cons_self) h
  | node l r ihl ihr =>
    cases d with
    | zero => exact hp.elim
    | succ d =>
      cases t' with
      | empty => exact absurd h (hS.digest_ne_zero (Trie.node_ne_empty l r) hp hn (hd'.2 rfl))
      | leaf k' v' => cases hS.inj (hn _ List.mem_cons_self) (hn' _ List.mem_cons_self) h
      | node l' r' =>
        obtain ⟨hl, hr⟩ := MerkleTrie.Node.inner.inj (hS.inj (hn _ List.mem_cons_self) (hn' _ List.mem_cons_self) h)
        obtain ⟨-, -, -, hpl, hpr⟩ := hp
        obtain ⟨-, -, -, hpl', hpr'⟩ := hp'
        obtain ⟨hnl, hnr⟩ := nodes_below hn
        obtain ⟨hnl', hnr'⟩ := nodes_below hn'
        have hbelow : d ≤ D := Nat.le_of_succ_le_succ hd.1
        rw [ihl hpl hpl' (within_below l hbelow) (within_below l' hbelow) hnl hnl' hl,
          ihr hpr hpr' (within_below r hbelow) (within_below r' hbelow) hnr hnr' hr]

/-! ## Searching -/

variable (M) in
/-- The value of a key, if its leaf stands above the last level. -/
def find [DecidableEq K] (k : K) : Nat → Trie K V → Option V
  | 0, _ => none
  | _ + 1, .empty => none
  | _ + 1, .leaf k' v' => if k' = k then some v' else none
  | d + 1, .node l r => if M.bit k d then find k d r else find k d l

variable (M) in
/-- The two keys differ in a bit below `d` other than the lowest. -/
def ApartAbove (d : Nat) (k k' : K) : Prop := ∃ i, 1 ≤ i ∧ i < d ∧ M.bit k i ≠ M.bit k' i

/-- The keys on the other side of a node differ at its level, those on the same side below it. -/
theorem apartAbove_side {same : Trie K V} (other : Trie K V) {b : Bool} (hd : 0 < d)
    (hsame : ∀ k', same.HasKey k' → M.bit k' d = b) (hb : M.bit k d = b) (hother : ∀ k', other.HasKey k' → M.bit k' d ≠ b) :
    (∀ k', same.HasKey k' → k' ≠ k → M.ApartAbove d k' k) ↔
      ∀ k', same.HasKey k' ∨ other.HasKey k' → k' ≠ k → M.ApartAbove (d + 1) k' k := by
  constructor
  · rintro h k' (hk' | hk') hne
    · obtain ⟨i, hi, hlt, hbit⟩ := h k' hk' hne
      exact ⟨i, hi, by omega, hbit⟩
    · refine ⟨d, hd, by omega, ?_⟩
      rw [hb]
      exact hother k' hk'
  · intro h k' hk' hne
    obtain ⟨i, hi, hlt, hbit⟩ := h k' (.inl hk') hne
    have hid : i ≠ d := by
      rintro rfl
      exact hbit ((hsame k' hk').trans hb.symm)
    exact ⟨i, hi, by omega, hbit⟩

/-- **A search that stops above the last level** finds the value of a key exactly if the key is there, and differs from all
others in a bit other than the lowest. -/
theorem find_iff [DecidableEq K] (hp : M.Placed d t) (hc : t.Compressed) (hd : 0 < d) :
    M.find k d t = some v ↔ t.Maps k v ∧ ∀ k', t.HasKey k' → k' ≠ k → M.ApartAbove d k' k := by
  induction t generalizing d with
  | empty =>
    obtain ⟨d, rfl⟩ := Nat.exists_eq_add_of_le' hd
    simp [find, Trie.Maps]
  | leaf k₁ v₁ =>
    obtain ⟨d, rfl⟩ := Nat.exists_eq_add_of_le' hd
    have halone : ∀ k', (Trie.leaf k₁ v₁).HasKey k' → k' = k₁ := by
      rintro k' ⟨v', hv'⟩
      exact hv'.1.symm
    rw [find, Trie.Maps]
    constructor
    · intro h
      split at h
      · next hk =>
        refine ⟨⟨hk, Option.some.inj h⟩, fun k' hk' hne => ?_⟩
        exact absurd ((halone k' hk').trans hk) hne
      · cases h
    · rintro ⟨⟨hk, hv⟩, -⟩
      rw [if_pos hk, hv]
  | node l r ihl ihr =>
    obtain ⟨d, rfl⟩ := Nat.exists_eq_add_of_le' hd
    have hother := hc.other k
    obtain ⟨-, hl, hr, hpl, hpr⟩ := id hp
    rcases Nat.eq_zero_or_pos d with rfl | hpos
    · -- the search ends one level too early, and another key shares this node
      have hnone : M.find k 1 (Trie.node l r) = none := by
        rw [find]
        split <;> rfl
      rw [hnone]
      constructor
      · intro h
        cases h
      · rintro ⟨-, hapart⟩
        obtain ⟨k', hne, hk'⟩ := hother
        obtain ⟨i, hi, hlt, -⟩ := hapart k' hk' hne
        omega
    · have hkeys : (∀ k', (Trie.node l r).HasKey k' → k' ≠ k → M.ApartAbove (d + 1) k' k) ↔
          ∀ k', l.HasKey k' ∨ r.HasKey k' → k' ≠ k → M.ApartAbove (d + 1) k' k := by simp only [Trie.hasKey_node]
      cases hbit : M.bit k d with
      | true =>
        rw [find, if_pos hbit, ihr hpr hc.2.2 hpos, maps_right_iff hp, hkeys,
          apartAbove_side l hpos hr hbit fun k' hk' => by simp [hl k' hk']]
        simp [hbit, or_comm]
      | false =>
        rw [find, if_neg (by simp [hbit]), ihl hpl hc.2.1 hpos, maps_left_iff hp, hkeys,
          apartAbove_side r hpos hl hbit fun k' hk' => by simp [hr k' hk']]
        simp [hbit]

/-- A key with a path is there. -/
theorem hasKey_of_path [DecidableEq K] {ss : List H} (h : M.path k d t = some ss) : t.HasKey k := by
  induction t generalizing d ss with
  | empty =>
    rw [path] at h
    cases h
  | leaf k' v' =>
    rw [path] at h
    split at h
    · next hk => exact ⟨v', hk, rfl⟩
    · cases h
  | node l r ihl ihr =>
    cases d with
    | zero => cases h
    | succ d =>
      rw [path] at h
      split at h
      · obtain ⟨ss', hpath, -⟩ := Option.map_eq_some_iff.1 h
        exact (ihr hpath).right
      · obtain ⟨ss', hpath, -⟩ := Option.map_eq_some_iff.1 h
        exact (ihl hpath).left

end Scheme

end MerkleTrie
