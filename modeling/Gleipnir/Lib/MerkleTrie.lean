import Mathlib.Data.Set.Function
import Mathlib.Logic.Function.Basic

/-!
# Merkle tries

A binary trie over keys with bits: at level `d + 1` bit `d` of a key picks the subtree, and a leaf stands as high as its key
is alone. Its digest hashes every node from the digests of its subtrees; the empty subtree of each level has a digest of its
own. A proof for a key is the list of the sibling digests, the one nearest to the leaf first, and `climb` recomputes the
digest of the trie from it.

* `maps_insert`, `placed_insert`: insertion is an update of the finite map, and keeps the trie in order.
* `climb_path`: the path of a key leads to the digest.
* `maps_of_climb`: whatever leads to the digest is the path of a key that is there, unless two of the nodes hashed collide.
* `Store`: the nodes filed under their digests; `Holds` says that a trie can be read off.
-/

namespace MerkleTrie

/-- What is hashed: a key with its value, or the digests of two subtrees. -/
inductive Node (K V H : Type) where
  | leaf (k : K) (v : V)
  | inner (l r : H)

inductive Trie (K V : Type) where
  | empty
  | leaf (k : K) (v : V)
  | node (l r : Trie K V)

/-- How keys are read and nodes are hashed; the empty subtree of a level hashes those of the level below. -/
structure Scheme (K V H : Type) where
  bit : K → Nat → Bool
  hash : Node K V H → H
  zero : Nat → H
  zero_succ : ∀ i, zero (i + 1) = hash (.inner (zero i) (zero i))

variable {K V H : Type}

namespace Trie

/-- The trie maps `k` to `v`. -/
def Maps (k : K) (v : V) : Trie K V → Prop
  | .empty => False
  | .leaf k' v' => k' = k ∧ v' = v
  | .node l r => l.Maps k v ∨ r.Maps k v

def HasKey (t : Trie K V) (k : K) : Prop := ∃ v, t.Maps k v

theorem leaf_ne_empty (k : K) (v : V) : leaf k v ≠ empty := by simp

theorem node_ne_empty (l r : Trie K V) : node l r ≠ empty := by simp

end Trie

namespace Scheme

variable (M : Scheme K V H)

/-- The two keys differ in a bit below `d`. -/
def Apart (d : Nat) (k k' : K) : Prop := ∃ i < d, M.bit k i ≠ M.bit k' i

variable {d : Nat} {k k₁ k₂ : K} {v₁ v₂ v : V} {t : Trie K V}

theorem apart_of_agree {k' : K} (h : M.Apart (d + 1) k k') (hd : M.bit k d = M.bit k' d) : M.Apart d k k' := by
  obtain ⟨i, hi, hne⟩ := h
  have hid : i ≠ d := by
    rintro rfl
    exact hne hd
  exact ⟨i, by omega, hne⟩

/-- Every key stands on the side that its bit picks, and no node is there for nothing. -/
def Placed : Nat → Trie K V → Prop
  | _, .empty => True
  | _, .leaf _ _ => True
  | 0, .node _ _ => False
  | d + 1, .node l r => (l ≠ .empty ∨ r ≠ .empty) ∧ (∀ k, l.HasKey k → M.bit k d = false) ∧
      (∀ k, r.HasKey k → M.bit k d = true) ∧ Placed d l ∧ Placed d r

theorem placed_empty (d : Nat) : M.Placed d (.empty : Trie K V) := by cases d <;> simp [Placed]

theorem placed_leaf (d : Nat) (k : K) (v : V) : M.Placed d (.leaf k v) := by cases d <;> simp [Placed]

/-! ## Insertion -/

/-- Two keys below one node, down to the first level that tells them apart. -/
def split (k₁ : K) (v₁ : V) (k₂ : K) (v₂ : V) : Nat → Trie K V
  | 0 => .leaf k₂ v₂
  | d + 1 =>
    if M.bit k₁ d = M.bit k₂ d then
      if M.bit k₁ d then .node .empty (split k₁ v₁ k₂ v₂ d) else .node (split k₁ v₁ k₂ v₂ d) .empty
    else if M.bit k₁ d then .node (.leaf k₂ v₂) (.leaf k₁ v₁)
    else .node (.leaf k₁ v₁) (.leaf k₂ v₂)

/-- Map `k` to `v`. At the bottom level a key is lost that no bit tells from the one that is there. -/
def insert [DecidableEq K] (k : K) (v : V) : Nat → Trie K V → Trie K V
  | _, .empty => .leaf k v
  | 0, .leaf k' v' => if k' = k then .leaf k v else .leaf k' v'
  | d + 1, .leaf k' v' => if k' = k then .leaf k v else M.split k' v' k v (d + 1)
  | 0, .node l r => .node l r
  | d + 1, .node l r => if M.bit k d then .node l (insert k v d r) else .node (insert k v d l) r

theorem split_ne_empty (k₁ : K) (v₁ : V) (k₂ : K) (v₂ : V) (d : Nat) : M.split k₁ v₁ k₂ v₂ d ≠ .empty := by
  cases d with
  | zero => exact Trie.leaf_ne_empty k₂ v₂
  | succ d =>
    unfold split
    split
    · split <;> exact Trie.node_ne_empty _ _
    · split <;> exact Trie.node_ne_empty _ _

/-- The split holds its two keys, and only those. -/
theorem maps_split (h : M.Apart d k₁ k₂) (k : K) (v : V) :
    (M.split k₁ v₁ k₂ v₂ d).Maps k v ↔ (k₁ = k ∧ v₁ = v) ∨ (k₂ = k ∧ v₂ = v) := by
  induction d with
  | zero =>
    obtain ⟨i, hi, -⟩ := h
    omega
  | succ d ih =>
    unfold split
    split
    · next hbits =>
      rw [← ih (M.apart_of_agree h hbits)]
      split <;> simp [Trie.Maps]
    · split
      · rw [Trie.Maps, Trie.Maps, Trie.Maps, or_comm]
      · rw [Trie.Maps, Trie.Maps, Trie.Maps]

theorem placed_split (h : M.Apart d k₁ k₂) : M.Placed d (M.split k₁ v₁ k₂ v₂ d) := by
  induction d with
  | zero => trivial
  | succ d ih =>
    unfold split
    split
    · next hbits =>
      have hapart := M.apart_of_agree h hbits
      -- both keys are on the side that their common bit picks
      have hkeys : ∀ k, (M.split k₁ v₁ k₂ v₂ d).HasKey k → M.bit k d = M.bit k₁ d := by
        rintro k ⟨v, hv⟩
        rcases (M.maps_split hapart k v).1 hv with ⟨rfl, -⟩ | ⟨rfl, -⟩
        · rfl
        · exact hbits.symm
      have hnone : ∀ k, ¬ (Trie.empty : Trie K V).HasKey k := fun k ⟨v, hv⟩ => hv
      split
      · next hbit =>
        exact ⟨.inr (M.split_ne_empty _ _ _ _ _), fun k hk => absurd hk (hnone k), fun k hk => (hkeys k hk).trans hbit, M.placed_empty d,
          ih hapart⟩
      · next hbit =>
        exact ⟨.inl (M.split_ne_empty _ _ _ _ _), fun k hk => (hkeys k hk).trans (by simpa using hbit),
          fun k hk => absurd hk (hnone k), ih hapart, M.placed_empty d⟩
    · next hbits =>
      have hleaf : ∀ (k k' : K) (v' : V), (Trie.leaf k' v').HasKey k → k' = k := fun k k' v' ⟨v, hv⟩ => hv.1
      split
      · next hbit =>
        refine ⟨.inl (Trie.leaf_ne_empty _ _), fun k hk => ?_, fun k hk => ?_, M.placed_leaf .., M.placed_leaf ..⟩
        · obtain rfl := hleaf _ _ _ hk
          rw [hbit] at hbits
          simpa using Ne.symm hbits
        · obtain rfl := hleaf _ _ _ hk
          exact hbit
      · next hbit =>
        refine ⟨.inl (Trie.leaf_ne_empty _ _), fun k hk => ?_, fun k hk => ?_, M.placed_leaf .., M.placed_leaf ..⟩
        · obtain rfl := hleaf _ _ _ hk
          simpa using hbit
        · obtain rfl := hleaf _ _ _ hk
          rw [Bool.not_eq_true] at hbit
          rw [hbit] at hbits
          simpa using Ne.symm hbits

section Insert

variable [DecidableEq K] {M} {d : Nat} {t : Trie K V} {k : K} {v : V}

theorem insert_ne_empty : M.insert k v d t ≠ .empty := by
  cases t with
  | empty =>
    rw [insert]
    exact Trie.leaf_ne_empty k v
  | leaf k' v' =>
    cases d with
    | zero =>
      unfold insert
      split <;> exact Trie.leaf_ne_empty _ _
    | succ d =>
      unfold insert
      split
      · exact Trie.leaf_ne_empty k v
      · exact M.split_ne_empty _ _ _ _ _
  | node l r =>
    cases d with
    | zero =>
      rw [insert]
      exact Trie.node_ne_empty l r
    | succ d =>
      unfold insert
      split <;> exact Trie.node_ne_empty _ _

omit [DecidableEq K] in
/-- The keys of a subtree differ from a key that goes there in the bits that are left. -/
theorem apart_below {s : Trie K V} {b : Bool} (hside : ∀ k', s.HasKey k' → M.bit k' d = b) (hb : M.bit k d = b)
    (h : ∀ k', s.HasKey k' → k' ≠ k → M.Apart (d + 1) k' k) : ∀ k', s.HasKey k' → k' ≠ k → M.Apart d k' k :=
  fun k' hk' hne => M.apart_of_agree (h k' hk' hne) ((hside k' hk').trans hb.symm)

/-- **Insertion is an update**, if every other key differs from the new one in some bit. -/
theorem maps_insert (hp : M.Placed d t) (h : ∀ k', t.HasKey k' → k' ≠ k → M.Apart d k' k) (k' : K) (v' : V) :
    (M.insert k v d t).Maps k' v' ↔ (k' = k ∧ v' = v) ∨ (k' ≠ k ∧ t.Maps k' v') := by
  induction t generalizing d with
  | empty => simp [insert, Trie.Maps, eq_comm]
  | leaf k₁ v₁ =>
    by_cases hk : k₁ = k
    · have hinsert : M.insert k v d (.leaf k₁ v₁) = .leaf k v := by cases d <;> simp [insert, hk]
      rw [hinsert, Trie.Maps, Trie.Maps, hk]
      constructor
      · rintro ⟨rfl, rfl⟩
        exact .inl ⟨rfl, rfl⟩
      · rintro (⟨rfl, rfl⟩ | ⟨hne, heq, -⟩)
        · exact ⟨rfl, rfl⟩
        · exact absurd heq.symm hne
    · have hapart := h k₁ ⟨v₁, rfl, rfl⟩ hk
      cases d with
      | zero =>
        obtain ⟨i, hi, -⟩ := hapart
        omega
      | succ d =>
        rw [insert, if_neg hk, M.maps_split hapart, Trie.Maps]
        constructor
        · rintro (⟨rfl, rfl⟩ | ⟨rfl, rfl⟩)
          · exact .inr ⟨hk, rfl, rfl⟩
          · exact .inl ⟨rfl, rfl⟩
        · rintro (⟨rfl, rfl⟩ | ⟨-, rfl, rfl⟩)
          · exact .inr ⟨rfl, rfl⟩
          · exact .inl ⟨rfl, rfl⟩
  | node l r ihl ihr =>
    cases d with
    | zero => exact hp.elim
    | succ d =>
      obtain ⟨-, hl, hr, hpl, hpr⟩ := hp
      have hkey : ∀ {b : Bool} {s : Trie K V}, (∀ k', s.HasKey k' → M.bit k' d = b) → M.bit k d ≠ b → s.Maps k' v' →
          k' ≠ k := by
        rintro b s hside hb hmaps rfl
        exact hb (hside _ ⟨_, hmaps⟩)
      unfold insert
      split
      · next hbit =>
        rw [Trie.Maps, Trie.Maps, ihr hpr (apart_below hr hbit fun k' ⟨v, hv⟩ => h k' ⟨v, .inr hv⟩)]
        constructor
        · rintro (hmaps | hnew | ⟨hne, hmaps⟩)
          · exact .inr ⟨hkey hl (by simp [hbit]) hmaps, .inl hmaps⟩
          · exact .inl hnew
          · exact .inr ⟨hne, .inr hmaps⟩
        · rintro (hnew | ⟨hne, hmaps | hmaps⟩)
          · exact .inr (.inl hnew)
          · exact .inl hmaps
          · exact .inr (.inr ⟨hne, hmaps⟩)
      · next hbit =>
        rw [Bool.not_eq_true] at hbit
        rw [Trie.Maps, Trie.Maps, ihl hpl (apart_below hl hbit fun k' ⟨v, hv⟩ => h k' ⟨v, .inl hv⟩)]
        constructor
        · rintro ((hnew | ⟨hne, hmaps⟩) | hmaps)
          · exact .inl hnew
          · exact .inr ⟨hne, .inl hmaps⟩
          · exact .inr ⟨hkey hr (by simp [hbit]) hmaps, .inr hmaps⟩
        · rintro (hnew | ⟨hne, hmaps | hmaps⟩)
          · exact .inl (.inl hnew)
          · exact .inl (.inr ⟨hne, hmaps⟩)
          · exact .inr hmaps

/-- A key of the new trie is the new key or an old one. -/
theorem hasKey_insert (hp : M.Placed d t) (h : ∀ k', t.HasKey k' → k' ≠ k → M.Apart d k' k) {k' : K}
    (hk' : (M.insert k v d t).HasKey k') : k' = k ∨ t.HasKey k' := by
  obtain ⟨v', hv'⟩ := hk'
  rcases (maps_insert hp h k' v').1 hv' with ⟨rfl, -⟩ | ⟨-, hmaps⟩
  · exact .inl rfl
  · exact .inr ⟨v', hmaps⟩

theorem placed_insert (hp : M.Placed d t) (h : ∀ k', t.HasKey k' → k' ≠ k → M.Apart d k' k) :
    M.Placed d (M.insert k v d t) := by
  induction t generalizing d with
  | empty =>
    rw [insert]
    exact M.placed_leaf d k v
  | leaf k₁ v₁ =>
    cases d with
    | zero =>
      unfold insert
      split <;> exact M.placed_leaf 0 _ _
    | succ d =>
      unfold insert
      split
      · exact M.placed_leaf _ k v
      · next hk => exact M.placed_split (h k₁ ⟨v₁, rfl, rfl⟩ hk)
  | node l r ihl ihr =>
    cases d with
    | zero => exact hp.elim
    | succ d =>
      obtain ⟨-, hl, hr, hpl, hpr⟩ := hp
      unfold insert
      split
      · next hbit =>
        have hbelow := apart_below hr hbit fun k' ⟨v, hv⟩ => h k' ⟨v, .inr hv⟩
        refine ⟨.inr insert_ne_empty, hl, fun k' hk' => ?_, hpl, ihr hpr hbelow⟩
        rcases hasKey_insert hpr hbelow hk' with rfl | hk'
        · exact hbit
        · exact hr k' hk'
      · next hbit =>
        rw [Bool.not_eq_true] at hbit
        have hbelow := apart_below hl hbit fun k' ⟨v, hv⟩ => h k' ⟨v, .inl hv⟩
        refine ⟨.inl insert_ne_empty, fun k' hk' => ?_, hr, ihl hpl hbelow, hpr⟩
        rcases hasKey_insert hpl hbelow hk' with rfl | hk'
        · exact hbit
        · exact hl k' hk'

/-- Inserting what is there changes nothing. -/
theorem insert_of_maps (hp : M.Placed d t) (h : t.Maps k v) : M.insert k v d t = t := by
  induction t generalizing d with
  | empty => exact h.elim
  | leaf k₁ v₁ =>
    obtain ⟨rfl, rfl⟩ := h
    cases d <;> simp [insert]
  | node l r ihl ihr =>
    cases d with
    | zero => rfl
    | succ d =>
      obtain ⟨-, hl, hr, hpl, hpr⟩ := hp
      rw [insert]
      rcases h with h | h
      · rw [if_neg (by simp [hl k ⟨v, h⟩]), ihl hpl h]
      · rw [if_pos (hr k ⟨v, h⟩), ihr hpr h]

end Insert

/-! ## Digests -/

/-- The digest of a trie at level `d`. -/
def digest : Nat → Trie K V → H
  | d, .empty => M.zero d
  | _, .leaf k v => M.hash (.leaf k v)
  | d, .node l r => M.hash (.inner (digest (d - 1) l) (digest (d - 1) r))

/-- The nodes that the digest of a trie hashes, besides the empty ones. -/
def nodes : Nat → Trie K V → List (Node K V H)
  | _, .empty => []
  | _, .leaf k v => [.leaf k v]
  | d, .node l r => .inner (M.digest (d - 1) l) (M.digest (d - 1) r) :: (nodes (d - 1) l ++ nodes (d - 1) r)

variable {M} in
/-- A leaf of the trie is among its nodes. -/
theorem leaf_mem_nodes (h : t.Maps k v) : .leaf k v ∈ M.nodes d t := by
  induction t generalizing d with
  | empty => exact h.elim
  | leaf k' v' =>
    obtain ⟨rfl, rfl⟩ := h
    exact List.mem_cons_self
  | node l r ihl ihr =>
    rcases h with h | h
    · exact List.mem_cons_of_mem _ (List.mem_append_left _ (ihl h))
    · exact List.mem_cons_of_mem _ (List.mem_append_right _ (ihr h))

variable {M} in
theorem maps_of_mem_nodes (h : .leaf k v ∈ M.nodes d t) : t.Maps k v := by
  induction t generalizing d with
  | empty => exact absurd h List.not_mem_nil
  | leaf k' v' =>
    obtain ⟨rfl, rfl⟩ := MerkleTrie.Node.leaf.inj (List.mem_singleton.1 h)
    exact ⟨rfl, rfl⟩
  | node l r ihl ihr =>
    rcases List.mem_cons.1 h with h | h
    · cases h
    · rcases List.mem_append.1 h with h | h
      · exact .inl (ihl h)
      · exact .inr (ihr h)

/-- No two of the nodes `S` have one hash, none has that of the bottom, and the empty subtrees above it are among them. -/
structure CollisionFree (D : Nat) (S : Set (Node K V H)) : Prop where
  inj : Set.InjOn M.hash S
  nonzero : ∀ n ∈ S, M.hash n ≠ M.zero 0
  zeroes : ∀ i < D, .inner (M.zero i) (M.zero i) ∈ S

section Collisions

variable {M} {D d : Nat} {S : Set (Node K V H)} (hS : M.CollisionFree D S)
include hS

/-- A node with the hash of an empty subtree is that of the subtree. -/
theorem CollisionFree.eq_zero {n : Node K V H} (hn : n ∈ S) {i : Nat} (hi : i ≤ D) (h : M.hash n = M.zero i) :
    ∃ j, j + 1 = i ∧ n = .inner (M.zero j) (M.zero j) := by
  cases i with
  | zero => exact absurd h (hS.nonzero n hn)
  | succ j =>
    rw [M.zero_succ] at h
    exact ⟨j, rfl, hS.inj hn (hS.zeroes j (by omega)) h⟩

/-- The digest of a trie that is not empty is that of no empty subtree. -/
theorem CollisionFree.digest_ne_zero {t : Trie K V} (ht : t ≠ .empty) (hp : M.Placed d t) (hn : ∀ n ∈ M.nodes d t, n ∈ S)
    {i : Nat} (hi : i ≤ D) : M.digest d t ≠ M.zero i := by
  induction t generalizing d i with
  | empty => exact absurd rfl ht
  | leaf k v =>
    intro h
    obtain ⟨j, -, hnode⟩ := hS.eq_zero (hn _ List.mem_cons_self) hi h
    cases hnode
  | node l r ihl ihr =>
    cases d with
    | zero => exact hp.elim
    | succ d =>
      obtain ⟨hne, -, -, hpl, hpr⟩ := hp
      intro h
      obtain ⟨j, rfl, hnode⟩ := hS.eq_zero (hn _ List.mem_cons_self) hi h
      obtain ⟨hl, hr⟩ := Node.inner.inj hnode
      have hnl : ∀ n ∈ M.nodes d l, n ∈ S := fun n h => hn n (List.mem_cons_of_mem _ (List.mem_append_left _ h))
      have hnr : ∀ n ∈ M.nodes d r, n ∈ S := fun n h => hn n (List.mem_cons_of_mem _ (List.mem_append_right _ h))
      rcases hne with hne | hne
      · exact ihl hne hpl hnl (by omega) hl
      · exact ihr hne hpr hnr (by omega) hr

end Collisions

/-! ## Proofs -/

/-- One step towards the root: the digest is on the side that the bit picks. -/
def join (b : Bool) (current sibling : H) : Node K V H := if b then .inner sibling current else .inner current sibling

/-- The digest that siblings lead to at level `d`, the one nearest to the leaf first. -/
def climb (k : K) (d : Nat) : List H → H → H
  | [], current => current
  | s :: ss, current => climb k d ss (M.hash (join (M.bit k (d - (ss.length + 1))) current s))

/-- The nodes that `climb` hashes. -/
def climbed (k : K) (d : Nat) : List H → H → List (Node K V H)
  | [], _ => []
  | s :: ss, current =>
    let n := join (M.bit k (d - (ss.length + 1))) current s
    n :: climbed k d ss (M.hash n)

/-- The siblings on the way to a key. -/
def path [DecidableEq K] (k : K) : Nat → Trie K V → Option (List H)
  | _, .empty => none
  | _, .leaf k' _ => if k' = k then some [] else none
  | 0, .node _ _ => none
  | d + 1, .node l r =>
    if M.bit k d then (path k d r).map (· ++ [M.digest d l]) else (path k d l).map (· ++ [M.digest d r])

/-- A trie that is not empty may stand one level above those whose empty subtrees are known. -/
def Within (D d : Nat) (t : Trie K V) : Prop := d ≤ D + 1 ∧ (t = .empty → d ≤ D)

theorem within_below {D : Nat} (t : Trie K V) (h : d ≤ D) : Within D d t := ⟨by omega, fun _ => h⟩

section Climb

variable {M} {k : K} {v : V}

/-- The last sibling is the one below the root. -/
theorem climb_concat (d : Nat) (s : H) (ss : List H) : ∀ current,
    M.climb k (d + 1) (ss ++ [s]) current = M.hash (join (M.bit k d) (M.climb k d ss current) s) ∧
      M.climbed k (d + 1) (ss ++ [s]) current =
        M.climbed k d ss current ++ [join (M.bit k d) (M.climb k d ss current) s] := by
  induction ss with
  | nil => exact fun current => ⟨by simp [climb], by simp [climb, climbed]⟩
  | cons s' ss ih =>
    intro current
    have hlevel : d + 1 - ((ss ++ [s]).length + 1) = d - (ss.length + 1) := by simp
    rw [List.cons_append]
    simp only [climb, climbed, hlevel, List.cons_append]
    exact ⟨(ih _).1, by rw [(ih _).2]⟩

/-- The result of a climb is the hash of a node. -/
theorem climb_eq_hash (d : Nat) (ss : List H) : ∀ n : Node K V H,
    ∃ n', (n' = n ∨ n' ∈ M.climbed k d ss (M.hash n)) ∧ M.climb k d ss (M.hash n) = M.hash n' := by
  induction ss with
  | nil => exact fun n => ⟨n, .inl rfl, rfl⟩
  | cons s ss ih =>
    intro n
    obtain ⟨n', hn', hclimb⟩ := ih (join (M.bit k (d - (ss.length + 1))) (M.hash n) s)
    refine ⟨n', .inr ?_, hclimb⟩
    rcases hn' with rfl | hn'
    · exact List.mem_cons_self
    · exact List.mem_cons_of_mem _ hn'

/-- A climb hashes interior nodes only. -/
theorem inner_of_climbed {d : Nat} {ss : List H} {current : H} {n : Node K V H} (hn : n ∈ M.climbed k d ss current) :
    ∃ l r, n = .inner l r := by
  induction ss generalizing current with
  | nil => exact absurd hn List.not_mem_nil
  | cons s ss ih =>
    rcases List.mem_cons.1 hn with rfl | hn
    · unfold join
      split <;> exact ⟨_, _, rfl⟩
    · exact ih hn

/-- The child on the side of a key. -/
theorem join_inj {b : Bool} {current s l r : H} (h : (join b current s : Node K V H) = .inner l r) :
    current = if b then r else l := by
  cases b with
  | true => exact (Node.inner.inj h).2
  | false => exact (Node.inner.inj h).1

variable {D d : Nat} {S : Set (Node K V H)} (hS : M.CollisionFree D S)
include hS

/-- No proof leads from a leaf to an empty subtree. -/
theorem climb_ne_zero {d : Nat} (hd : d ≤ D) {ss : List H} (hlen : ss.length ≤ d) (hleaf : .leaf k v ∈ S)
    (hn : ∀ n ∈ M.climbed k d ss (M.hash (.leaf k v)), n ∈ S) : M.climb k d ss (M.hash (.leaf k v)) ≠ M.zero d := by
  induction d generalizing ss with
  | zero =>
    obtain rfl := List.length_eq_zero_iff.1 (Nat.le_zero.1 hlen)
    exact hS.nonzero _ hleaf
  | succ d ih =>
    intro h
    rcases List.eq_nil_or_concat ss with rfl | ⟨ss, s, rfl⟩
    · obtain ⟨j, -, hnode⟩ := hS.eq_zero hleaf hd h
      cases hnode
    · rw [List.concat_eq_append] at h hn hlen
      obtain ⟨hclimb, hclimbed⟩ := climb_concat (M := M) (k := k) d s ss (M.hash (.leaf k v))
      rw [hclimbed] at hn
      rw [hclimb] at h
      obtain ⟨j, hj, hnode⟩ := hS.eq_zero (hn _ (List.mem_append_right _ List.mem_cons_self)) hd h
      obtain rfl : j = d := by omega
      have hcurrent := join_inj hnode
      rw [ite_self] at hcurrent
      exact ih (by omega) (by simpa using hlen) (fun n hmem => hn n (List.mem_append_left _ hmem)) hcurrent

/-- **Soundness of proofs.** Siblings that lead from a leaf to the digest of a trie show that the leaf is there, if no two
of the nodes that the trie and the proof hash collide. -/
theorem maps_of_climb {t : Trie K V} (hp : M.Placed d t) (hd : Within D d t) {ss : List H} (hlen : ss.length ≤ d)
    (ht : ∀ n ∈ M.nodes d t, n ∈ S) (hleaf : .leaf k v ∈ S) (hn : ∀ n ∈ M.climbed k d ss (M.hash (.leaf k v)), n ∈ S)
    (h : M.climb k d ss (M.hash (.leaf k v)) = M.digest d t) : t.Maps k v := by
  induction t generalizing d ss with
  | empty =>
    rw [digest] at h
    exact climb_ne_zero hS (hd.2 rfl) hlen hleaf hn h
  | leaf k' v' =>
    rcases List.eq_nil_or_concat ss with rfl | ⟨ss, s, rfl⟩
    · obtain ⟨rfl, rfl⟩ := Node.leaf.inj (hS.inj hleaf (ht _ List.mem_cons_self) h)
      exact ⟨rfl, rfl⟩
    · rw [List.concat_eq_append] at h hn hlen
      cases d with
      | zero => simp at hlen
      | succ d =>
        obtain ⟨hclimb, hclimbed⟩ := climb_concat (M := M) (k := k) d s ss (M.hash (.leaf k v))
        rw [hclimbed] at hn
        rw [hclimb] at h
        have hnode := hS.inj (hn _ (List.mem_append_right _ List.mem_cons_self)) (ht _ List.mem_cons_self) h
        unfold join at hnode
        split at hnode <;> cases hnode
  | node l r ihl ihr =>
    cases d with
    | zero => exact hp.elim
    | succ d =>
      obtain ⟨-, -, -, hpl, hpr⟩ := hp
      have hbelow : d ≤ D := Nat.le_of_succ_le_succ hd.1
      have htop : .inner (M.digest d l) (M.digest d r) ∈ S := ht _ List.mem_cons_self
      rcases List.eq_nil_or_concat ss with rfl | ⟨ss, s, rfl⟩
      · cases hS.inj hleaf htop h
      · rw [List.concat_eq_append] at h hn hlen
        obtain ⟨hclimb, hclimbed⟩ := climb_concat (M := M) (k := k) d s ss (M.hash (.leaf k v))
        rw [hclimbed] at hn
        rw [hclimb] at h
        have hcurrent := join_inj (hS.inj (hn _ (List.mem_append_right _ List.mem_cons_self)) htop h)
        have hlen' : ss.length ≤ d := by simpa using hlen
        have hn' : ∀ n ∈ M.climbed k d ss (M.hash (.leaf k v)), n ∈ S := fun n hmem => hn n (List.mem_append_left _ hmem)
        cases hbit : M.bit k d with
        | true =>
          rw [hbit, if_pos rfl] at hcurrent
          exact .inr (ihr hpr (within_below r hbelow) hlen'
            (fun n h => ht n (List.mem_cons_of_mem _ (List.mem_append_right _ h))) hn' hcurrent)
        | false =>
          rw [hbit, if_neg Bool.false_ne_true] at hcurrent
          exact .inl (ihl hpl (within_below l hbelow) hlen'
            (fun n h => ht n (List.mem_cons_of_mem _ (List.mem_append_left _ h))) hn' hcurrent)

omit hS in
/-- **Completeness of proofs.** A key that is there has a path, and the path leads to the digest. -/
theorem climb_path [DecidableEq K] {t : Trie K V} (hp : M.Placed d t) (h : t.Maps k v) :
    ∃ ss, M.path k d t = some ss ∧ ss.length ≤ d ∧ M.climb k d ss (M.hash (.leaf k v)) = M.digest d t := by
  induction t generalizing d with
  | empty => exact h.elim
  | leaf k' v' =>
    obtain ⟨rfl, rfl⟩ := h
    exact ⟨[], by simp [path], Nat.zero_le _, rfl⟩
  | node l r ihl ihr =>
    cases d with
    | zero => exact hp.elim
    | succ d =>
      obtain ⟨-, hl, hr, hpl, hpr⟩ := hp
      rcases h with h | h
      · obtain ⟨ss, hpath, hlen, hclimb⟩ := ihl hpl h
        have hbit : M.bit k d = false := hl k ⟨v, h⟩
        refine ⟨ss ++ [M.digest d r], by simp [path, hbit, hpath], by simpa using hlen, ?_⟩
        rw [(climb_concat d (M.digest d r) ss _).1, hclimb, hbit]
        rfl
      · obtain ⟨ss, hpath, hlen, hclimb⟩ := ihr hpr h
        have hbit : M.bit k d = true := hr k ⟨v, h⟩
        refine ⟨ss ++ [M.digest d l], by simp [path, hbit, hpath], by simpa using hlen, ?_⟩
        rw [(climb_concat d (M.digest d l) ss _).1, hclimb, hbit]
        rfl

end Climb

/-! ## Content-addressed stores -/

/-- The nodes that have been filed, by their hashes. -/
abbrev Store (K V H : Type) : Type := H → Option (Node K V H)

/-- A trie can be read off the store from its digest. -/
def Holds (store : Store K V H) : Nat → Trie K V → Prop
  | d, .empty => store (M.zero d) = none
  | _, .leaf k v => store (M.hash (.leaf k v)) = some (.leaf k v)
  | d, .node l r => store (M.hash (.inner (M.digest (d - 1) l) (M.digest (d - 1) r))) =
      some (.inner (M.digest (d - 1) l) (M.digest (d - 1) r)) ∧ Holds store (d - 1) l ∧ Holds store (d - 1) r

/-- Nodes among `S` are filed under their hashes, and no node of an empty subtree is. -/
structure Addressed (D : Nat) (S : Set (Node K V H)) (store : Store K V H) : Prop where
  address : ∀ h n, store h = some n → h = M.hash n
  known : ∀ h n, store h = some n → n ∈ S
  proper : ∀ h n, store h = some n → ∀ i < D, n ≠ .inner (M.zero i) (M.zero i)

/-- Nothing that was filed is lost. -/
def Kept (store store' : Store K V H) : Prop := ∀ h n, store h = some n → store' h = some n

section Store

variable {M} {D d : Nat} {S : Set (Node K V H)} {store store' : Store K V H} (hS : M.CollisionFree D S)
include hS

/-- Nothing is filed under the digest of an empty subtree. -/
theorem Addressed.vacant (h : M.Addressed D S store) (hd : d ≤ D) : store (M.zero d) = none := by
  cases hstore : store (M.zero d) with
  | none => rfl
  | some n =>
    obtain ⟨j, rfl, hnode⟩ := hS.eq_zero (h.known _ n hstore) hd (h.address _ n hstore).symm
    exact absurd hnode (h.proper _ n hstore j (by omega))

/-- What a store holds, a larger one holds. -/
theorem Holds.mono {t : Trie K V} (h : M.Holds store d t) (hkept : Kept store store') (hstore' : M.Addressed D S store')
    (hd : Within D d t) : M.Holds store' d t := by
  induction t generalizing d with
  | empty => exact hstore'.vacant hS (hd.2 rfl)
  | leaf k v => exact hkept _ _ h
  | node l r ihl ihr =>
    have hbelow : d - 1 ≤ D := Nat.sub_le_of_le_add hd.1
    exact ⟨hkept _ _ h.1, ihl h.2.1 (within_below l hbelow), ihr h.2.2 (within_below r hbelow)⟩

variable [DecidableEq H]

/-- Filing a node keeps everything else. -/
theorem Addressed.put (h : M.Addressed D S store) {n : Node K V H} (hn : n ∈ S)
    (hproper : ∀ i < D, n ≠ .inner (M.zero i) (M.zero i)) :
    M.Addressed D S (Function.update store (M.hash n) (some n)) ∧ Kept store (Function.update store (M.hash n) (some n)) := by
  have hcases : ∀ h' n', Function.update store (M.hash n) (some n) h' = some n' →
      (h' = M.hash n ∧ n' = n) ∨ store h' = some n' := by
    intro h' n' hget
    by_cases heq : h' = M.hash n
    · subst heq
      rw [Function.update_self] at hget
      exact .inl ⟨rfl, (Option.some.inj hget).symm⟩
    · rw [Function.update_of_ne heq] at hget
      exact .inr hget
  refine ⟨⟨fun h' n' hget => ?_, fun h' n' hget => ?_, fun h' n' hget => ?_⟩, fun h' n' hget => ?_⟩
  · rcases hcases h' n' hget with ⟨rfl, rfl⟩ | hold
    · rfl
    · exact h.address h' n' hold
  · rcases hcases h' n' hget with ⟨rfl, rfl⟩ | hold
    · exact hn
    · exact h.known h' n' hold
  · rcases hcases h' n' hget with ⟨rfl, rfl⟩ | hold
    · exact hproper
    · exact h.proper h' n' hold
  · by_cases heq : h' = M.hash n
    · -- the node that stood there has the same hash, so it is the same
      have hsame : n' = n := hS.inj (h.known h' n' hget) hn ((h.address h' n' hget).symm.trans heq)
      rw [heq, Function.update_self, hsame]
    · rwa [Function.update_of_ne heq]

end Store

end Scheme

end MerkleTrie
