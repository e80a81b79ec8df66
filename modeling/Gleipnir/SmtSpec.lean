import Gleipnir.Lib.CanonicalTrie
import Gleipnir.Smt

/-!
# The tree of the store is a Merkle trie

The nodes of a `SparseMerkleTree` are reached by their hashes only, so what the tree means depends on the hash: a collision
would let one node stand for another. `Collisionless` says that BLAKE3 has no collision and no zero output among some strings.
If the strings hashed to build a tree are among them, then the store holds the trie of what was inserted
(`represents_insertAll`), `prove` finds the path of every key (`Represents.prove`), and `verify` accepts nothing else
(`Represents.sound`).
-/

namespace Gleipnir

open MerkleTrie (Trie Scheme)

variable (X : Prims)

/-! ## The strings that are hashed -/

/-- BLAKE3 has no collision among these strings, and sends none of them to zero. -/
structure Collisionless (S : Set Bytes) : Prop where
  inj : Set.InjOn X.blake3 S
  nonzero : ∀ s ∈ S, X.blake3 s ≠ Arr.zero 32

/-- The string hashed for a node. -/
def nodeText : MerkleTrie.Node Bytes Bytes Hash → Bytes
  | .leaf key value => "leaf".toUTF8.toList ++ be64 (UInt64.ofNat key.length) ++ key ++
      be64 (UInt64.ofNat value.length) ++ value
  | .inner left right => left.toList ++ right.toList

/-- The tree as a Merkle trie. -/
def smtScheme : Scheme Bytes Bytes Hash where
  bit := path
  hash := fun n => X.blake3 (nodeText n)
  zero := zeroes X
  zero_succ := fun _ => rfl

/-- The lengths of a leaf fit their fields, and its string has not the length of an interior node's. -/
def Readable : MerkleTrie.Node Bytes Bytes Hash → Prop
  | .leaf key value => key.length < 2 ^ 64 ∧ value.length < 2 ^ 64 ∧ key.length + value.length ≠ 44
  | .inner _ _ => True

theorem length_be64 (v : UInt64) : (be64 v).length = 8 := by rw [be64, List.length_reverse, length_le64]

/-- A length is read back from its field. -/
theorem be64_length_inj {m n : Nat} (hm : m < 2 ^ 64) (hn : n < 2 ^ 64)
    (h : be64 (UInt64.ofNat m) = be64 (UInt64.ofNat n)) : m = n := by
  have heq := congrArg UInt64.toNat (le64_inj (List.reverse_injective h))
  rwa [UInt64.toNat_ofNat_of_lt' hm, UInt64.toNat_ofNat_of_lt' hn] at heq

theorem length_leafText (key value : Bytes) : (nodeText (.leaf key value)).length = 20 + key.length + value.length := by
  have htag : "leaf".toUTF8.toList.length = 4 := by decide +kernel
  simp only [nodeText, List.length_append, length_be64, htag]
  omega

theorem length_innerText (left right : Hash) : (nodeText (.inner left right)).length = 64 := by
  simp [nodeText]

variable {k v k' : Bytes} {store : SmtStore} {t : Trie Bytes Bytes} {depth : Nat} {kvs kvs' more : List (Bytes × Bytes)}

/-- The string of a leaf determines it, if the fields of the lengths tell the lengths of the keys. -/
theorem leafText_inj {v' : Bytes} (hlen : be64 (UInt64.ofNat k.length) = be64 (UInt64.ofNat k'.length) → k.length = k'.length)
    (h : nodeText (.leaf k v) = nodeText (.leaf k' v')) : k = k' ∧ v = v' := by
  simp only [nodeText, List.append_assoc] at h
  obtain ⟨hfield, hrest⟩ := List.append_inj (List.append_cancel_left h) (by rw [length_be64, length_be64])
  obtain ⟨hk, hrest⟩ := List.append_inj hrest (hlen hfield)
  exact ⟨hk, (List.append_inj hrest (by rw [length_be64, length_be64])).2⟩

/-- The string of a node determines it. -/
theorem nodeText_inj {n n' : MerkleTrie.Node Bytes Bytes Hash} (hn : Readable n) (hn' : Readable n')
    (h : nodeText n = nodeText n') : n = n' := by
  cases n with
  | leaf key value =>
    obtain ⟨hkey, -, hne⟩ := hn
    cases n' with
    | leaf key' value' =>
      obtain ⟨rfl, rfl⟩ := leafText_inj (be64_length_inj hkey hn'.1) h
      rfl
    | inner left right =>
      have hlen := congrArg List.length h
      rw [length_leafText, length_innerText] at hlen
      omega
  | inner left right =>
    cases n' with
    | leaf key' value' =>
      have hlen := congrArg List.length h
      rw [length_leafText, length_innerText] at hlen
      obtain ⟨-, -, hne⟩ := hn'
      omega
    | inner left' right' =>
      obtain ⟨hl, hr⟩ := List.append_inj h (by simp)
      rw [List.Vector.toList_injective hl, List.Vector.toList_injective hr]

/-- The nodes whose strings are among `S`. -/
def smtNodes (S : Set Bytes) : Set (MerkleTrie.Node Bytes Bytes Hash) := {n | Readable n ∧ nodeText n ∈ S}

/-- The string of the empty subtree above those of level `i`. -/
def zeroText (i : Nat) : Bytes := nodeText (.inner (zeroes X i) (zeroes X i))

variable {X} {S : Set Bytes}

theorem Collisionless.mono {T : Set Bytes} (h : Collisionless X S) (hT : T ⊆ S) : Collisionless X T :=
  ⟨h.inj.mono hT, fun s hs => h.nonzero s (hT hs)⟩

theorem Collisionless.scheme (h : Collisionless X S) {D : Nat} (hzero : ∀ i < D, zeroText X i ∈ S) :
    (smtScheme X).CollisionFree D (smtNodes S) where
  inj := fun _ hn _ hn' heq => nodeText_inj hn.1 hn'.1 (h.inj hn.2 hn'.2 heq)
  nonzero := fun n hn => h.nonzero (nodeText n) hn.2
  zeroes := fun i hi => ⟨trivial, hzero i hi⟩

/-! ## The store -/

/-- A stored node without the hash it carries. -/
def SmtNode.plain : SmtNode → MerkleTrie.Node Bytes Bytes Hash
  | .leaf key value _ => .leaf key value
  | .inner left right _ => .inner left right

/-- The store as the library sees it. -/
def plainStore (store : SmtStore) : MerkleTrie.Scheme.Store Bytes Bytes Hash := fun h => (store h).map SmtNode.plain

theorem plainStore_update (store : SmtStore) (h : Hash) (n : SmtNode) :
    plainStore (Function.update store h (some n)) = Function.update (plainStore store) h (some n.plain) := by
  funext h'
  by_cases heq : h' = h
  · subst heq
    simp [plainStore]
  · simp [plainStore, Function.update_of_ne heq]

theorem plainStore_eq_none {h : Hash} (hs : plainStore store h = none) : store h = none :=
  Option.map_eq_none_iff.1 hs

theorem plainStore_eq_leaf {h : Hash} (hs : plainStore store h = some (.leaf k v)) : ∃ h', store h = some (.leaf k v h') := by
  obtain ⟨n, hn, hplain⟩ := Option.map_eq_some_iff.1 hs
  cases n with
  | leaf k' v' h' =>
    obtain ⟨rfl, rfl⟩ := MerkleTrie.Node.leaf.inj hplain
    exact ⟨h', hn⟩
  | inner => cases hplain

theorem plainStore_eq_inner {h l r : Hash} (hs : plainStore store h = some (.inner l r)) :
    ∃ h', store h = some (.inner l r h') := by
  obtain ⟨n, hn, hplain⟩ := Option.map_eq_some_iff.1 hs
  cases n with
  | leaf => cases hplain
  | inner l' r' h' =>
    obtain ⟨rfl, rfl⟩ := MerkleTrie.Node.inner.inj hplain
    exact ⟨h', hn⟩

variable (X)

/-- The result of an operation on a store at level `d`: a larger store in order, and the digest of a trie it holds. -/
structure Writes (D : Nat) (N : Set (MerkleTrie.Node Bytes Bytes Hash)) (store : SmtStore) (d : Nat) (t : Trie Bytes Bytes)
    (out : Hash × SmtStore) : Prop where
  digest : out.1 = (smtScheme X).digest d t
  addressed : (smtScheme X).Addressed D N (plainStore out.2)
  kept : Scheme.Kept (plainStore store) (plainStore out.2)
  holds : (smtScheme X).Holds (plainStore out.2) d t

variable {X} {D d : Nat} {N : Set (MerkleTrie.Node Bytes Bytes Hash)} {store : SmtStore}
  (hN : (smtScheme X).CollisionFree D N)
include hN

theorem writes_putLeaf (haddr : (smtScheme X).Addressed D N (plainStore store)) (hn : .leaf k v ∈ N) :
    Writes X D N store d (.leaf k v) (putLeaf X store k v) := by
  have hput := haddr.put hN hn (fun i _ => by simp)
  have hplain : plainStore (putLeaf X store k v).2 =
      Function.update (plainStore store) ((smtScheme X).hash (.leaf k v)) (some (.leaf k v)) := plainStore_update ..
  rw [← hplain] at hput
  refine ⟨by rw [Scheme.digest]; rfl, hput.1, hput.2, ?_⟩
  rw [hplain, Scheme.Holds, Function.update_self]

/-- An interior node over two subtrees that the store holds, one of them not empty. -/
theorem writes_putInner (haddr : (smtScheme X).Addressed D N (plainStore store)) {l r : Trie Bytes Bytes}
    (hl : (smtScheme X).Holds (plainStore store) d l) (hr : (smtScheme X).Holds (plainStore store) d r)
    (hp : (smtScheme X).Placed (d + 1) (.node l r)) (hd : d ≤ D)
    (hn : ∀ n ∈ (smtScheme X).nodes (d + 1) (.node l r), n ∈ N) :
    Writes X D N store (d + 1) (.node l r)
      (putInner X store ((smtScheme X).digest d l) ((smtScheme X).digest d r)) := by
  obtain ⟨hne, -, -, hpl, hpr⟩ := hp
  have hnl : ∀ n ∈ (smtScheme X).nodes d l, n ∈ N := fun n h => hn n (List.mem_cons_of_mem _ (List.mem_append_left _ h))
  have hnr : ∀ n ∈ (smtScheme X).nodes d r, n ∈ N := fun n h => hn n (List.mem_cons_of_mem _ (List.mem_append_right _ h))
  have hproper : ∀ i < D, (.inner ((smtScheme X).digest d l) ((smtScheme X).digest d r) : MerkleTrie.Node Bytes Bytes Hash) ≠
      .inner ((smtScheme X).zero i) ((smtScheme X).zero i) := by
    intro i hi heq
    obtain ⟨h₁, h₂⟩ := MerkleTrie.Node.inner.inj heq
    rcases hne with hne | hne
    · exact hN.digest_ne_zero hne hpl hnl (by omega) h₁
    · exact hN.digest_ne_zero hne hpr hnr (by omega) h₂
  have hput := haddr.put hN (hn _ List.mem_cons_self) hproper
  have hplain : plainStore (putInner X store ((smtScheme X).digest d l) ((smtScheme X).digest d r)).2 =
      Function.update (plainStore store) ((smtScheme X).hash (.inner ((smtScheme X).digest d l) ((smtScheme X).digest d r)))
        (some (.inner ((smtScheme X).digest d l) ((smtScheme X).digest d r))) := plainStore_update ..
  rw [Nat.add_sub_cancel, ← hplain] at hput
  refine ⟨by rw [Scheme.digest]; rfl, hput.1, hput.2, ?_, ?_, ?_⟩
  · rw [hplain, Nat.add_sub_cancel, Function.update_self]
  · exact hl.mono hN hput.2 hput.1 (Scheme.within_below l hd)
  · exact hr.mono hN hput.2 hput.1 (Scheme.within_below r hd)

omit hN in
/-- One operation after another. -/
theorem Writes.trans {store' : SmtStore} {t' : Trie Bytes Bytes} {d' : Nat} {h : Hash} {out : Hash × SmtStore}
    (hfirst : Writes X D N store d t (h, store')) (hsecond : Writes X D N store' d' t' out) : Writes X D N store d' t' out :=
  ⟨hsecond.digest, hsecond.addressed, fun h' n hn => hsecond.kept h' n (hfirst.kept h' n hn), hsecond.holds⟩

/-- `splitAndInsert` writes the split of two leaves that the store holds. -/
theorem writes_splitAndInsert {k₁ v₁ k₂ v₂ : Bytes} (haddr : (smtScheme X).Addressed D N (plainStore store))
    (h₁ : (smtScheme X).Holds (plainStore store) d (.leaf k₁ v₁)) (h₂ : (smtScheme X).Holds (plainStore store) d (.leaf k₂ v₂))
    (hapart : (smtScheme X).Apart d k₁ k₂) (hd : d ≤ D + 1)
    (hn : ∀ n ∈ (smtScheme X).nodes d ((smtScheme X).split k₁ v₁ k₂ v₂ d), n ∈ N) :
    Writes X D N store d ((smtScheme X).split k₁ v₁ k₂ v₂ d)
      (splitAndInsert X k₁ (leafHash X k₁ v₁) k₂ (leafHash X k₂ v₂) d store) := by
  induction d with
  | zero =>
    obtain ⟨i, hi, -⟩ := hapart
    omega
  | succ d ih =>
    have hp : (smtScheme X).Placed (d + 1) ((smtScheme X).split k₁ v₁ k₂ v₂ (d + 1)) := (smtScheme X).placed_split hapart
    have hbelow : d ≤ D := Nat.le_of_succ_le_succ hd
    have hleaf : ∀ k v, (smtScheme X).digest d (.leaf k v) = leafHash X k v := fun k v => by
      rw [Scheme.digest]
      rfl
    have hempty : (smtScheme X).digest d .empty = zeroes X d := by
      rw [Scheme.digest]
      rfl
    unfold splitAndInsert
    unfold Scheme.split at hp hn ⊢
    split at hp
    · next hbits =>
      have hbits' : path k₁ d = path k₂ d := hbits
      rw [if_pos hbits] at hn ⊢
      simp only [if_pos hbits']
      have hsub := ih h₁ h₂ ((smtScheme X).apart_of_agree hapart hbits) (by omega) (fun n hmem => by
        split at hn
        · exact hn n (List.mem_cons_of_mem _ (List.mem_append_right _ hmem))
        · exact hn n (List.mem_cons_of_mem _ (List.mem_append_left _ hmem)))
      have hvacant := hsub.addressed.vacant hN hbelow
      split at hp
      · next hbit =>
        have hbit' : path k₁ d = true := hbit
        rw [if_pos hbit] at hn ⊢
        rw [if_pos hbit', hsub.digest, ← hempty]
        exact hsub.trans (writes_putInner hN hsub.addressed hvacant hsub.holds hp hbelow hn)
      · next hbit =>
        have hbit' : ¬ path k₁ d = true := hbit
        rw [if_neg hbit] at hn ⊢
        rw [if_neg hbit', hsub.digest, ← hempty]
        exact hsub.trans (writes_putInner hN hsub.addressed hsub.holds hvacant hp hbelow hn)
    · next hbits =>
      have hbits' : ¬ path k₁ d = path k₂ d := hbits
      rw [if_neg hbits] at hn ⊢
      simp only [if_neg hbits']
      rw [← hleaf k₁ v₁, ← hleaf k₂ v₂]
      split at hp
      · next hbit =>
        have hbit' : path k₁ d = true := hbit
        rw [if_pos hbit] at hn ⊢
        rw [if_pos hbit']
        exact writes_putInner hN haddr h₂ h₁ hp hbelow hn
      · next hbit =>
        have hbit' : ¬ path k₁ d = true := hbit
        rw [if_neg hbit] at hn ⊢
        rw [if_neg hbit']
        exact writes_putInner hN haddr h₁ h₂ hp hbelow hn

/-- **`insertAt` writes the trie with the key inserted.** The node it starts from is the digest of the trie, or any hash
under which nothing is stored if the trie is empty. -/
theorem writes_insertAt {current : Hash} (haddr : (smtScheme X).Addressed D N (plainStore store))
    (hp : (smtScheme X).Placed d t) (hd : d ≤ D + 1) (hcurrent : (t = .empty ∧ store current = none) ∨
      (current = (smtScheme X).digest d t ∧ (smtScheme X).Holds (plainStore store) d t))
    (hapart : ∀ k', t.HasKey k' → k' ≠ k → (smtScheme X).Apart d k' k)
    (hn : ∀ n ∈ (smtScheme X).nodes d ((smtScheme X).insert k v d t), n ∈ N) :
    Writes X D N store d ((smtScheme X).insert k v d t) (insertAt X k v d store current) := by
  induction t generalizing d store current with
  | empty =>
    have hnone : store current = none := by
      rcases hcurrent with ⟨-, hnone⟩ | ⟨rfl, hholds⟩
      · exact hnone
      · rw [Scheme.digest]
        exact plainStore_eq_none hholds
    rw [insertAt, hnone, Scheme.insert]
    rw [Scheme.insert] at hn
    exact writes_putLeaf hN haddr (hn _ (by rw [Scheme.nodes]; exact List.mem_cons_self))
  | leaf k₁ v₁ =>
    obtain ⟨rfl, hholds⟩ := hcurrent.resolve_left (fun h => Trie.leaf_ne_empty _ _ h.1)
    rw [Scheme.Holds] at hholds
    obtain ⟨h', hstore⟩ := plainStore_eq_leaf hholds
    rw [Scheme.digest, insertAt, hstore]
    by_cases hk : k₁ = k
    · have hinsert : (smtScheme X).insert k v d (.leaf k₁ v₁) = .leaf k v := by
        cases d <;> simp [Scheme.insert, hk]
      rw [hinsert] at hn ⊢
      simp only [if_pos hk]
      exact writes_putLeaf hN haddr (hn _ (by rw [Scheme.nodes]; exact List.mem_cons_self))
    · have hdiffer := hapart k₁ ⟨v₁, rfl, rfl⟩ hk
      cases d with
      | zero =>
        obtain ⟨i, hi, -⟩ := hdiffer
        omega
      | succ d =>
        rw [Scheme.insert, if_neg hk] at hn ⊢
        simp only [if_neg hk]
        have hmaps : ((smtScheme X).split k₁ v₁ k v (d + 1)).Maps k v :=
          ((smtScheme X).maps_split hdiffer k v).2 (.inr ⟨rfl, rfl⟩)
        have hput := writes_putLeaf (d := d + 1) hN haddr (hn _ (Scheme.leaf_mem_nodes hmaps))
        have hleaf : (putLeaf X store k v).1 = leafHash X k v := rfl
        rw [hleaf]
        exact hput.trans (writes_splitAndInsert hN hput.addressed (hput.kept _ _ hholds) hput.holds hdiffer hd hn)
  | node l r ihl ihr =>
    cases d with
    | zero => exact hp.elim
    | succ d =>
      obtain ⟨rfl, hholds⟩ := hcurrent.resolve_left (fun h => Trie.node_ne_empty _ _ h.1)
      have hbelow : d ≤ D := Nat.le_of_succ_le_succ hd
      have hpnew := Scheme.placed_insert (v := v) hp hapart
      obtain ⟨-, hl, hr, hpl, hpr⟩ := hp
      obtain ⟨htop, hholdsl, hholdsr⟩ := hholds
      obtain ⟨h', hstore⟩ := plainStore_eq_inner htop
      rw [Scheme.digest, insertAt, hstore]
      unfold Scheme.insert at hpnew hn ⊢
      simp only [Nat.add_sub_cancel] at hholdsl hholdsr ⊢
      split at hpnew
      · next hbit =>
        have hbit' : path k d = true := hbit
        rw [if_pos hbit] at hn ⊢
        rw [if_pos hbit']
        have hkeys : ∀ k', r.HasKey k' → k' ≠ k → (smtScheme X).Apart (d + 1) k' k := by
          rintro k' ⟨v, hv⟩
          exact hapart k' ⟨v, .inr hv⟩
        have hsub := ihr haddr hpr (by omega) (.inr ⟨rfl, hholdsr⟩) (Scheme.apart_below hr hbit hkeys)
          (fun n hmem => hn n (List.mem_cons_of_mem _ (List.mem_append_right _ hmem)))
        have hholdsl' := hholdsl.mono hN hsub.kept hsub.addressed (Scheme.within_below l hbelow)
        have hinner := writes_putInner hN hsub.addressed hholdsl' hsub.holds hpnew hbelow hn
        rw [← hsub.digest] at hinner
        exact hsub.trans hinner
      · next hbit =>
        have hbit' : ¬ path k d = true := hbit
        rw [if_neg hbit] at hn ⊢
        rw [if_neg hbit']
        have hkeys : ∀ k', l.HasKey k' → k' ≠ k → (smtScheme X).Apart (d + 1) k' k := by
          rintro k' ⟨v, hv⟩
          exact hapart k' ⟨v, .inl hv⟩
        have hsub := ihl haddr hpl (by omega) (.inr ⟨rfl, hholdsl⟩) (Scheme.apart_below hl (Bool.eq_false_iff.2 hbit) hkeys)
          (fun n hmem => hn n (List.mem_cons_of_mem _ (List.mem_append_left _ hmem)))
        have hholdsr' := hholdsr.mono hN hsub.kept hsub.addressed (Scheme.within_below r hbelow)
        have hinner := writes_putInner hN hsub.addressed hsub.holds hholdsr' hpnew hbelow hn
        rw [← hsub.digest] at hinner
        exact hsub.trans hinner

/-! ## Proofs -/

omit hN in
/-- The loop of `Prove` collects the siblings on the way to the key. -/
theorem proveAt_eq (hholds : (smtScheme X).Holds (plainStore store) d t) (hp : (smtScheme X).Placed d t) (key : Bytes)
    (proof : List Hash) :
    proveAt store key d ((smtScheme X).digest d t) proof = ((smtScheme X).path key d t).map (· ++ proof) := by
  induction t generalizing d proof with
  | empty =>
    rw [Scheme.digest, proveAt, plainStore_eq_none hholds, Scheme.path]
    rfl
  | leaf k v =>
    rw [Scheme.Holds] at hholds
    obtain ⟨h', hstore⟩ := plainStore_eq_leaf hholds
    rw [Scheme.digest, proveAt, hstore, Scheme.path]
    by_cases hk : k = key
    · simp [hk]
    · simp [hk]
  | node l r ihl ihr =>
    cases d with
    | zero => exact hp.elim
    | succ d =>
      obtain ⟨-, -, -, hpl, hpr⟩ := hp
      obtain ⟨htop, hl, hr⟩ := hholds
      obtain ⟨h', hstore⟩ := plainStore_eq_inner htop
      rw [Nat.add_sub_cancel] at hl hr
      rw [Scheme.digest, proveAt, hstore, Scheme.path]
      simp only [Nat.add_sub_cancel]
      by_cases hbit : path key d = true
      · have hbit' : (smtScheme X).bit key d = true := hbit
        rw [if_pos hbit, if_pos hbit', ihr hr hpr, Option.map_map]
        congr 1
        funext ss
        simp
      · have hbit' : ¬ (smtScheme X).bit key d = true := hbit
        rw [if_neg hbit, if_neg hbit', ihl hl hpl, Option.map_map]
        congr 1
        funext ss
        simp

omit hN in
/-- The loop of `Get` searches. -/
theorem getAt_eq (hholds : (smtScheme X).Holds (plainStore store) d t) (hp : (smtScheme X).Placed d t) (key : Bytes) :
    getAt store key d ((smtScheme X).digest d t) = (smtScheme X).find key d t := by
  induction t generalizing d with
  | empty =>
    cases d with
    | zero => rfl
    | succ d => rw [Scheme.digest, getAt, plainStore_eq_none hholds, Scheme.find]
  | leaf k v =>
    cases d with
    | zero => rfl
    | succ d =>
      rw [Scheme.Holds] at hholds
      obtain ⟨h', hstore⟩ := plainStore_eq_leaf hholds
      rw [Scheme.digest, getAt, hstore, Scheme.find]
  | node l r ihl ihr =>
    cases d with
    | zero => exact hp.elim
    | succ d =>
      obtain ⟨-, -, -, hpl, hpr⟩ := hp
      obtain ⟨htop, hl, hr⟩ := hholds
      obtain ⟨h', hstore⟩ := plainStore_eq_inner htop
      rw [Nat.add_sub_cancel] at hl hr
      rw [Scheme.digest, getAt, hstore, Scheme.find]
      simp only [Nat.add_sub_cancel]
      rw [ihl hl hpl, ihr hr hpr]
      rfl

omit hN in
/-- The loop of `Verify` climbs. -/
theorem recompute_eq (depth : Nat) (key : Bytes) (proof : List Hash) (current : Hash) :
    recompute X depth key proof current = (smtScheme X).climb key depth proof current := by
  induction proof generalizing current with
  | nil => rfl
  | cons s ss ih =>
    have hstep : (if path key (depth - (ss.length + 1)) then parentHash X s current else parentHash X current s) =
        (smtScheme X).hash (Scheme.join (path key (depth - (ss.length + 1))) current s) := by
      unfold Scheme.join
      split <;> rfl
    rw [recompute, ih, hstep]
    rfl

/-! ## Trees -/

variable (X)

/-- Insert keys with their values, one after the other. -/
def SparseMerkleTree.insertAll (t : SparseMerkleTree) (kvs : List (Bytes × Bytes)) : SparseMerkleTree :=
  kvs.foldl (fun t kv => t.insert X kv.1 kv.2) t

/-- The trie of what was inserted. -/
def trieOf (depth : Nat) (kvs : List (Bytes × Bytes)) : Trie Bytes Bytes :=
  kvs.foldl (fun T kv => (smtScheme X).insert kv.1 kv.2 depth T) .empty

/-- The strings hashed to build a tree: those of the empty subtrees, and those of the nodes after each insertion. -/
def treeTexts (depth : Nat) (kvs : List (Bytes × Bytes)) : Set Bytes :=
  {s | (∃ i, i + 1 < depth ∧ s = zeroText X i) ∨
    ∃ kvs', kvs' <+: kvs ∧ ∃ n ∈ (smtScheme X).nodes depth (trieOf X depth kvs'), s = nodeText n}

/-- The strings hashed to verify a proof. -/
def proofTexts (depth : Nat) (key value : Bytes) (proof : List Hash) : Set Bytes :=
  {s | s = nodeText (.leaf key value) ∨
    ∃ n ∈ (smtScheme X).climbed key depth proof (leafHash X key value), s = nodeText n}

/-- The nodes hashed to build a tree. -/
def treeNodes (depth : Nat) (kvs : List (Bytes × Bytes)) : Set (MerkleTrie.Node Bytes Bytes Hash) :=
  {n | (∃ i, i + 1 < depth ∧ n = .inner (zeroes X i) (zeroes X i)) ∨
    ∃ kvs', kvs' <+: kvs ∧ n ∈ (smtScheme X).nodes depth (trieOf X depth kvs')}

/-- The nodes hashed to verify a proof. -/
def proofNodes (depth : Nat) (key value : Bytes) (proof : List Hash) : Set (MerkleTrie.Node Bytes Bytes Hash) :=
  {n | n = .leaf key value ∨ n ∈ (smtScheme X).climbed key depth proof (leafHash X key value)}

/-- The tree stands for the trie, with all nodes among `N`. The root of an empty tree is zero, whatever its depth. -/
structure StandsFor (N : Set (MerkleTrie.Node Bytes Bytes Hash)) (t : SparseMerkleTree) (T : Trie Bytes Bytes) : Prop where
  addressed : (smtScheme X).Addressed (t.depth - 1) N (plainStore t.store)
  placed : (smtScheme X).Placed t.depth T
  nodes : ∀ n ∈ (smtScheme X).nodes t.depth T, n ∈ N
  root : (T = .empty ∧ t.root = Arr.zero 32) ∨
    (T ≠ .empty ∧ t.root = (smtScheme X).digest t.depth T ∧ (smtScheme X).Holds (plainStore t.store) t.depth T)

/-- The tree stands for the trie. The root of an empty tree is zero, whatever its depth. -/
structure Represents (S : Set Bytes) (t : SparseMerkleTree) (T : Trie Bytes Bytes) : Prop where
  addressed : (smtScheme X).Addressed (t.depth - 1) (smtNodes S) (plainStore t.store)
  placed : (smtScheme X).Placed t.depth T
  nodes : ∀ n ∈ (smtScheme X).nodes t.depth T, n ∈ smtNodes S
  root : (T = .empty ∧ t.root = Arr.zero 32) ∨
    (T ≠ .empty ∧ t.root = (smtScheme X).digest t.depth T ∧ (smtScheme X).Holds (plainStore t.store) t.depth T)

/-- The strings of the empty subtrees are among `S`. -/
def HasZeroes (S : Set Bytes) (depth : Nat) : Prop := ∀ i, i + 1 < depth → zeroText X i ∈ S

omit hN
variable {X} {t : SparseMerkleTree} {T : Trie Bytes Bytes}

theorem Represents.standsFor (h : Represents X S t T) : StandsFor X (smtNodes S) t T := ⟨h.addressed, h.placed, h.nodes, h.root⟩

theorem StandsFor.represents (h : StandsFor X (smtNodes S) t T) : Represents X S t T := ⟨h.addressed, h.placed, h.nodes, h.root⟩

theorem Collisionless.smt (h : Collisionless X S) (hz : HasZeroes X S depth) :
    (smtScheme X).CollisionFree (depth - 1) (smtNodes S) := h.scheme fun i hi => hz i (by omega)

theorem standsFor_new (depth : Nat) : StandsFor X N (.new depth) .empty where
  addressed :=
    have hnone : ∀ h n, plainStore (SparseMerkleTree.new depth).store h ≠ some n := fun _ n h => Option.some_ne_none n h.symm
    ⟨fun h n hs => absurd hs (hnone h n), fun h n hs => absurd hs (hnone h n), fun h n hs => absurd hs (hnone h n)⟩
  placed := (smtScheme X).placed_empty depth
  nodes := fun n h => by
    rw [Scheme.nodes] at h
    exact absurd h List.not_mem_nil
  root := .inl ⟨rfl, rfl⟩

theorem represents_new (depth : Nat) : Represents X S (.new depth) .empty := (standsFor_new depth).represents

namespace StandsFor

section Reading

variable (h : StandsFor X N t T) (hfree : (smtScheme X).CollisionFree (t.depth - 1) N)
include h hfree

/-- Nothing is stored under the root of an empty tree. -/
theorem vacant (hempty : T = .empty) : t.store t.root = none := by
  rcases h.root with ⟨-, hroot⟩ | ⟨hne, -⟩
  · -- the zero hash is that of the empty subtree of the lowest level
    rw [hroot]
    exact plainStore_eq_none (h.addressed.vacant hfree (Nat.zero_le _))
  · exact absurd hempty hne

/-- **Insertion** into the tree is insertion into the trie. -/
theorem insert {k v : Bytes} (hapart : ∀ k', T.HasKey k' → k' ≠ k → (smtScheme X).Apart t.depth k' k)
    (hn : ∀ n ∈ (smtScheme X).nodes t.depth ((smtScheme X).insert k v t.depth T), n ∈ N) :
    StandsFor X N (t.insert X k v) ((smtScheme X).insert k v t.depth T) := by
  have hcurrent : (T = .empty ∧ t.store t.root = none) ∨
      (t.root = (smtScheme X).digest t.depth T ∧ (smtScheme X).Holds (plainStore t.store) t.depth T) := by
    rcases h.root with ⟨hempty, -⟩ | ⟨-, hroot, hholds⟩
    · exact .inl ⟨hempty, h.vacant hfree hempty⟩
    · exact .inr ⟨hroot, hholds⟩
  have hwrites := writes_insertAt hfree h.addressed h.placed (by omega) hcurrent hapart hn
  exact ⟨hwrites.addressed, Scheme.placed_insert h.placed hapart, hn,
    .inr ⟨Scheme.insert_ne_empty, hwrites.digest, hwrites.holds⟩⟩

/-- `Prove` finds the path of a key in the trie. -/
theorem prove_eq (k : Bytes) : t.prove k = (smtScheme X).path k t.depth T := by
  rcases h.root with ⟨hempty, -⟩ | ⟨-, hroot, hholds⟩
  · rw [SparseMerkleTree.prove, proveAt, h.vacant hfree hempty, hempty, Scheme.path]
  · rw [SparseMerkleTree.prove, hroot, proveAt_eq hholds h.placed]
    simp

/-- `Get` searches the trie, but not on its last level. -/
theorem get_eq (k : Bytes) : t.get k = (smtScheme X).find k t.depth T := by
  rcases h.root with ⟨hempty, -⟩ | ⟨-, hroot, hholds⟩
  · rw [SparseMerkleTree.get, hempty]
    cases hd : t.depth with
    | zero => rfl
    | succ d => rw [getAt, h.vacant hfree hempty, Scheme.find]
  · rw [SparseMerkleTree.get, hroot, getAt_eq hholds h.placed]

end Reading

/-- **Completeness**: a key that is there has a proof, and the proof is accepted. -/
theorem prove (h : StandsFor X N t T) {k v : Bytes} (hmaps : T.Maps k v) :
    ∃ proof, t.prove k = some proof ∧ proof.length ≤ t.depth ∧ t.verify X k v t.root proof = true := by
  rcases h.root with ⟨rfl, -⟩ | ⟨-, hroot, hholds⟩
  · exact hmaps.elim
  · obtain ⟨proof, hpath, hlen, hclimb⟩ := Scheme.climb_path h.placed hmaps
    refine ⟨proof, ?_, hlen, ?_⟩
    · rw [SparseMerkleTree.prove, hroot, proveAt_eq hholds h.placed, hpath]
      simp
    · rw [SparseMerkleTree.verify, if_neg (by omega), recompute_eq, hroot]
      exact beq_iff_eq.2 hclimb

/-- **Soundness**: a proof that is accepted shows that the key is there with its value. -/
theorem sound (h : StandsFor X N t T) (hN : (smtScheme X).CollisionFree (t.depth - 1) N) {k v : Bytes} {proof : List Hash}
    (hproof : proofNodes X t.depth k v proof ⊆ N) (hverify : t.verify X k v t.root proof = true) : T.Maps k v := by
  unfold SparseMerkleTree.verify at hverify
  split at hverify
  · cases hverify
  · next hlen =>
    have hclimb := eq_of_beq hverify
    rw [recompute_eq] at hclimb
    have hleaf : .leaf k v ∈ N := hproof (.inl rfl)
    have hclimbed : ∀ n ∈ (smtScheme X).climbed k t.depth proof ((smtScheme X).hash (.leaf k v)), n ∈ N :=
      fun n hn => hproof (.inr hn)
    rcases h.root with ⟨-, hroot⟩ | ⟨hne, hroot, -⟩
    · obtain ⟨n, hn, hhash⟩ := Scheme.climb_eq_hash (M := smtScheme X) (k := k) t.depth proof (.leaf k v)
      have hmem : n ∈ N := by
        rcases hn with rfl | hn
        · exact hleaf
        · exact hclimbed n hn
      exact absurd (hhash.symm.trans (hclimb.trans hroot)) (hN.nonzero n hmem)
    · exact Scheme.maps_of_climb hN h.placed ⟨by omega, fun hempty => absurd hempty hne⟩ (by omega) h.nodes hleaf hclimbed
        (hclimb.trans hroot)

end StandsFor

/-- **Insertion** into the tree is insertion into the trie. -/
theorem Represents.insert (h : Represents X S t T) (hS : Collisionless X S) (hz : HasZeroes X S t.depth)
    (hapart : ∀ k', T.HasKey k' → k' ≠ k → (smtScheme X).Apart t.depth k' k)
    (hn : ∀ n ∈ (smtScheme X).nodes t.depth ((smtScheme X).insert k v t.depth T), n ∈ smtNodes S) :
    Represents X S (t.insert X k v) ((smtScheme X).insert k v t.depth T) :=
  (h.standsFor.insert (hS.smt hz) hapart hn).represents

/-- **Completeness**: a key that is there has a proof, and the proof is accepted. -/
theorem Represents.prove (h : Represents X S t T) (hmaps : T.Maps k v) :
    ∃ proof, t.prove k = some proof ∧ proof.length ≤ t.depth ∧ t.verify X k v t.root proof = true :=
  h.standsFor.prove hmaps

/-- **Soundness**: a proof that is accepted shows that the key is there with its value. -/
theorem Represents.sound (h : Represents X S t T) (hS : Collisionless X S) (hz : HasZeroes X S t.depth) {proof : List Hash}
    (hleaf : Readable (.leaf k v)) (hproof : proofTexts X t.depth k v proof ⊆ S) (hverify : t.verify X k v t.root proof = true) :
    T.Maps k v := by
  refine h.standsFor.sound (hS.smt hz) ?_ hverify
  rintro n (rfl | hn)
  · exact ⟨hleaf, hproof (.inl rfl)⟩
  · obtain ⟨l, r, rfl⟩ := Scheme.inner_of_climbed hn
    exact ⟨trivial, hproof (.inr ⟨_, hn, rfl⟩)⟩

/-! ## Keys that the bits tell apart -/

/-- The value of the last insertion of a key. -/
def lastValue (kvs : List (Bytes × Bytes)) (k : Bytes) : Option Bytes := kvs.reverse.lookup k

/-- Different keys differ in a bit that the tree reads. -/
def Spread (depth : Nat) (kvs : List (Bytes × Bytes)) : Prop :=
  ∀ kv ∈ kvs, ∀ kv' ∈ kvs, kv.1 ≠ kv'.1 → ∃ i < depth, path kv.1 i ≠ path kv'.1 i

theorem lastValue_concat (kvs : List (Bytes × Bytes)) (kv : Bytes × Bytes) (k : Bytes) :
    lastValue (kvs ++ [kv]) k = if k = kv.1 then some kv.2 else lastValue kvs k := by
  rw [lastValue, List.reverse_concat, List.lookup_cons]
  by_cases hk : k = kv.1
  · simp [hk]
  · have hbeq : (k == kv.1) = false := by simpa using hk
    simp [hk, hbeq, lastValue]

theorem mem_of_lastValue (h : lastValue kvs k = some v) : (k, v) ∈ kvs := by
  induction kvs using List.reverseRecOn with
  | nil => cases h
  | append_singleton kvs kv ih =>
    rw [lastValue_concat] at h
    split at h
    · next hk =>
      cases h
      rw [hk]
      exact List.mem_append_right _ List.mem_cons_self
    · exact List.mem_append_left _ (ih h)

theorem exists_lastValue : (∃ v, lastValue kvs k = some v) ↔ k ∈ kvs.map Prod.fst := by
  induction kvs using List.reverseRecOn with
  | nil => simp [lastValue]
  | append_singleton kvs kv ih =>
    rw [lastValue_concat, List.map_append, List.mem_append, ← ih]
    by_cases hk : k = kv.1 <;> simp [hk]

theorem trieOf_concat (depth : Nat) (kvs : List (Bytes × Bytes)) (kv : Bytes × Bytes) :
    trieOf X depth (kvs ++ [kv]) = (smtScheme X).insert kv.1 kv.2 depth (trieOf X depth kvs) := by
  rw [trieOf, List.foldl_concat]
  rfl

/-- A trie that is canonical for what was inserted. -/
structure CanonicalFor (X : Prims) (depth : Nat) (kvs : List (Bytes × Bytes)) (T : Trie Bytes Bytes) : Prop where
  placed : (smtScheme X).Placed depth T
  compressed : T.Compressed
  maps : ∀ k v, T.Maps k v ↔ lastValue kvs k = some v

theorem CanonicalFor.hasKey (h : CanonicalFor X depth kvs T) : T.HasKey k ↔ k ∈ kvs.map Prod.fst := by
  rw [← exists_lastValue]
  exact exists_congr fun v => h.maps k v

theorem Spread.mono (h : Spread depth kvs') (hsub : kvs ⊆ kvs') :
    Spread depth kvs := fun kv hkv kv' hkv' => h kv (hsub hkv) kv' (hsub hkv')

/-- The keys of the trie are apart from one that is inserted with them. -/
theorem CanonicalFor.apart {kv : Bytes × Bytes} (h : CanonicalFor X depth kvs T) (hs : Spread depth (kvs ++ [kv])) :
    ∀ k', T.HasKey k' → k' ≠ kv.1 → (smtScheme X).Apart depth k' kv.1 := by
  intro k' hk' hne
  obtain ⟨kv', hkv', rfl⟩ := List.mem_map.1 (h.hasKey.1 hk')
  exact hs kv' (List.mem_append_left _ hkv') kv (List.mem_append_right _ List.mem_cons_self) hne

/-- **The trie of insertions** is canonical, if the bits tell the keys apart. -/
theorem canonicalFor_trieOf (hs : Spread depth kvs) : CanonicalFor X depth kvs (trieOf X depth kvs) := by
  induction kvs using List.reverseRecOn with
  | nil =>
    refine ⟨(smtScheme X).placed_empty depth, trivial, fun k v => ⟨fun h => h.elim, fun h => ?_⟩⟩
    cases h
  | append_singleton kvs kv ih =>
    have hT := ih (hs.mono (List.subset_append_left _ _))
    have hapart := hT.apart hs
    rw [trieOf_concat]
    refine ⟨Scheme.placed_insert hT.placed hapart, Scheme.compressed_insert hT.compressed hT.placed hapart, fun k v => ?_⟩
    rw [Scheme.maps_insert hT.placed hapart, hT.maps, lastValue_concat]
    by_cases hk : k = kv.1
    · simp [hk, eq_comm]
    · simp [hk]

theorem depth_insertAll (t : SparseMerkleTree) (kvs : List (Bytes × Bytes)) : (t.insertAll X kvs).depth = t.depth := by
  induction kvs generalizing t with
  | nil => rfl
  | cons kv kvs ih => exact ih (t.insert X kv.1 kv.2)

/-- **Further insertions** into a tree that stands for what was inserted. -/
theorem StandsFor.insertAll : ∀ {t : SparseMerkleTree} {kvs : List (Bytes × Bytes)},
    StandsFor X N t (trieOf X t.depth kvs) → (smtScheme X).CollisionFree (t.depth - 1) N → Spread t.depth (kvs ++ more) →
    treeNodes X t.depth (kvs ++ more) ⊆ N → StandsFor X N (t.insertAll X more) (trieOf X t.depth (kvs ++ more)) := by
  induction more with
  | nil =>
    intro t kvs h _ _ _
    rwa [List.append_nil]
  | cons kv more ih =>
    intro t kvs h hN hs hnodes
    have hsplit : kvs ++ kv :: more = kvs ++ [kv] ++ more := by simp
    rw [hsplit] at hs hnodes ⊢
    have hs' : Spread t.depth (kvs ++ [kv]) := hs.mono (List.subset_append_left _ _)
    have hn : ∀ n ∈ (smtScheme X).nodes t.depth (trieOf X t.depth (kvs ++ [kv])), n ∈ N :=
      fun n hn => hnodes (.inr ⟨_, List.prefix_append _ _, hn⟩)
    have hapart := (canonicalFor_trieOf (X := X) (hs'.mono (List.subset_append_left _ _))).apart hs'
    rw [trieOf_concat] at hn
    have hstep := h.insert hN hapart hn
    rw [← trieOf_concat] at hstep
    exact ih (t := t.insert X kv.1 kv.2) hstep hN hs hnodes

/-- **The tree of any insertions** stands for the trie of what was inserted. -/
theorem standsFor_insertAll (hs : Spread depth kvs) (hN : (smtScheme X).CollisionFree (depth - 1) N)
    (hnodes : treeNodes X depth kvs ⊆ N) :
    StandsFor X N ((SparseMerkleTree.new depth).insertAll X kvs) (trieOf X depth kvs) := by
  have hnew : StandsFor X N (SparseMerkleTree.new depth) (trieOf X depth []) := standsFor_new depth
  rw [← List.nil_append kvs] at hs hnodes
  exact hnew.insertAll hN hs hnodes

/-! ## Keys of the length of the tree -/

/-- Keys of one length differ in a bit. -/
theorem apart_of_length (hlen : k'.length = k.length) (hne : k' ≠ k) : ∃ i < 8 * k.length, path k' i ≠ path k i := by
  obtain ⟨i, hi, hbyte⟩ : ∃ i, ∃ hi : i < k.length, k'.get ⟨i, by omega⟩ ≠ k.get ⟨i, hi⟩ := by
    by_contra hall
    push Not at hall
    exact hne (List.ext_get hlen fun i h₁ h₂ => hall i h₂)
  obtain ⟨j, hj⟩ : ∃ j, (k'.get ⟨i, by omega⟩).toNat.testBit j ≠ (k.get ⟨i, hi⟩).toNat.testBit j := by
    by_contra hall
    push Not at hall
    exact hbyte (UInt8.toNat_inj.1 (Nat.eq_of_testBit_eq hall))
  have hj8 : j < 8 := by
    by_contra hge
    have hhigh : ∀ b : UInt8, b.toNat.testBit j = false := fun b =>
      Nat.testBit_lt_two_pow (lt_of_lt_of_le b.toNat_lt (Nat.pow_le_pow_right (by omega) (by omega)))
    exact hj ((hhigh _).trans (hhigh _).symm)
  have hread : ∀ b : Bytes, (hb : i < b.length) → path b (8 * i + j) = (b.get ⟨i, hb⟩).toNat.testBit j := by
    intro b hb
    have hdiv : (8 * i + j) / 8 = i := by omega
    have hmod : (8 * i + j) % 8 = j := by omega
    simp [path, hdiv, hmod, List.getElem?_eq_getElem hb]
  refine ⟨8 * i + j, by omega, ?_⟩
  rw [hread k' (by omega), hread k hi]
  exact hj

/-- The keys have the length of the tree. -/
def Sized (depth : Nat) (kvs : List (Bytes × Bytes)) : Prop := ∀ kv ∈ kvs, 8 * kv.1.length = depth

theorem Sized.spread (h : Sized depth kvs) : Spread depth kvs := by
  intro kv hkv kv' hkv' hne
  have hlen := h kv hkv
  have hlen' := h kv' hkv'
  rw [← hlen']
  exact apart_of_length (by omega) hne

/-- The keys fill the depth of the tree, and the leaves are readable. -/
def Fills (depth : Nat) (kvs : List (Bytes × Bytes)) : Prop :=
  ∀ kv ∈ kvs, 8 * kv.1.length = depth ∧ Readable (.leaf kv.1 kv.2)

theorem Fills.sized (h : Fills depth kvs) : Sized depth kvs :=
  fun kv hkv => (h kv hkv).1

/-- What a trie built by insertions is. -/
structure TrieOf (X : Prims) (depth : Nat) (kvs : List (Bytes × Bytes)) (T : Trie Bytes Bytes) : Prop where
  placed : (smtScheme X).Placed depth T
  inserted : ∀ k v, T.Maps k v → (k, v) ∈ kvs
  present : ∀ k v, (k, v) ∈ kvs → T.HasKey k

theorem TrieOf.apart (h : TrieOf X depth kvs T) (hfills : Fills depth kvs) (hk : 8 * k.length = depth) :
    ∀ k', T.HasKey k' → k' ≠ k → (smtScheme X).Apart depth k' k := by
  rintro k' ⟨v', hmaps⟩ hne
  have hlen := (hfills _ (h.inserted k' v' hmaps)).1
  rw [← hk]
  exact apart_of_length (by simp only at hlen; omega) hne

theorem trieOf_spec (hfills : Fills depth kvs) : TrieOf X depth kvs (trieOf X depth kvs) := by
  have hT := canonicalFor_trieOf (X := X) hfills.sized.spread
  refine ⟨hT.placed, fun k v hmaps => mem_of_lastValue ((hT.maps k v).1 hmaps), fun k v hmem => ?_⟩
  exact hT.hasKey.2 (List.mem_map.2 ⟨_, hmem, rfl⟩)

/-- The nodes hashed to build a tree are readable. -/
theorem nodes_of_treeTexts (hfills : Fills depth kvs) (hS : treeTexts X depth kvs ⊆ S) :
    treeNodes X depth kvs ⊆ smtNodes S := by
  rintro n (⟨i, hi, rfl⟩ | ⟨kvs', hkvs', hn⟩)
  · exact ⟨trivial, hS (.inl ⟨i, hi, rfl⟩)⟩
  · refine ⟨?_, hS (.inr ⟨kvs', hkvs', n, hn, rfl⟩)⟩
    cases n with
    | inner => trivial
    | leaf k v =>
      have hfills' : Fills depth kvs' := fun kv h => hfills kv (hkvs'.subset h)
      exact (hfills' _ ((trieOf_spec hfills').inserted k v (Scheme.maps_of_mem_nodes hn))).2

theorem treeTexts_mono (h : kvs <+: kvs') : treeTexts X depth kvs ⊆ treeTexts X depth kvs' := by
  rintro s (hzero | ⟨kvs₀, hkvs₀, hn⟩)
  · exact .inl hzero
  · exact .inr ⟨kvs₀, hkvs₀.trans h, hn⟩

theorem hasZeroes_of_treeTexts (hS : treeTexts X depth kvs ⊆ S) : HasZeroes X S depth := fun i hi => hS (.inl ⟨i, hi, rfl⟩)

/-- **Further insertions** into a tree that stands for what was inserted. -/
theorem Represents.insertAll (hS : Collisionless X S) {t : SparseMerkleTree} (h : Represents X S t (trieOf X t.depth kvs))
    (hfills : Fills t.depth (kvs ++ more)) (htexts : treeTexts X t.depth (kvs ++ more) ⊆ S) :
    Represents X S (t.insertAll X more) (trieOf X t.depth (kvs ++ more)) :=
  (h.standsFor.insertAll (hS.smt (hasZeroes_of_treeTexts htexts)) hfills.sized.spread
    (nodes_of_treeTexts hfills htexts)).represents

/-- The tree of any insertions holds the trie of what was inserted. -/
theorem represents_insertAll (hfills : Fills depth kvs) (hS : Collisionless X S) (htexts : treeTexts X depth kvs ⊆ S) :
    Represents X S ((SparseMerkleTree.new depth).insertAll X kvs) (trieOf X depth kvs) :=
  (standsFor_insertAll hfills.sized.spread (hS.smt (hasZeroes_of_treeTexts htexts))
    (nodes_of_treeTexts hfills htexts)).represents

/-- Inserting again what is there changes neither the trie nor the root. -/
theorem Represents.insertAgain (hS : Collisionless X S) : ∀ {t : SparseMerkleTree},
    Represents X S t T → HasZeroes X S t.depth →
    (∀ kv ∈ more, T.Maps kv.1 kv.2 ∧ ∀ k', T.HasKey k' → k' ≠ kv.1 → (smtScheme X).Apart t.depth k' kv.1) →
    Represents X S (t.insertAll X more) T := by
  induction more with
  | nil => exact fun h _ _ => h
  | cons kv more ih =>
    intro t h hz hmore
    obtain ⟨hmaps, hapart⟩ := hmore kv List.mem_cons_self
    have hsame : (smtScheme X).insert kv.1 kv.2 t.depth T = T := Scheme.insert_of_maps h.placed hmaps
    have hstep := h.insert (k := kv.1) (v := kv.2) hS hz hapart (by rw [hsame]; exact h.nodes)
    rw [hsame] at hstep
    exact ih hstep hz fun kv' hkv' => hmore kv' (List.mem_cons_of_mem _ hkv')

/-- The trie determines the root. -/
theorem Represents.root_eq {t t' : SparseMerkleTree} {S' : Set Bytes} (h : Represents X S t T) (h' : Represents X S' t' T)
    (hdepth : t.depth = t'.depth) : t.root = t'.root := by
  rcases h.root with ⟨hempty, hroot⟩ | ⟨hne, hroot, -⟩ <;> rcases h'.root with ⟨hempty', hroot'⟩ | ⟨hne', hroot', -⟩
  · rw [hroot, hroot']
  · exact absurd hempty hne'
  · exact absurd hempty' hne
  · rw [hroot, hroot', hdepth]

/-- Without collisions the root determines the trie. -/
theorem StandsFor.root_eq_iff {t t' : SparseMerkleTree} {T' : Trie Bytes Bytes} (h : StandsFor X N t T)
    (h' : StandsFor X N t' T') (hfree : (smtScheme X).CollisionFree (t.depth - 1) N) (hdepth : t'.depth = t.depth) :
    t.root = t'.root ↔ T = T' := by
  have hplaced := h'.placed
  have hnodes := h'.nodes
  have hroot' := h'.root
  rw [hdepth] at hplaced hnodes hroot'
  rcases h.root with ⟨rfl, hroot⟩ | ⟨hne, hroot, -⟩ <;> rcases hroot' with ⟨rfl, hroot'⟩ | ⟨hne', hroot', -⟩
  · simp [hroot, hroot']
  · refine ⟨fun heq => ?_, fun heq => absurd heq.symm hne'⟩
    exact absurd (hroot'.symm.trans (heq.symm.trans hroot)) (hfree.digest_ne_zero hne' hplaced hnodes (Nat.zero_le _))
  · refine ⟨fun heq => ?_, fun heq => absurd heq hne⟩
    exact absurd (hroot.symm.trans (heq.trans hroot')) (hfree.digest_ne_zero hne h.placed h.nodes (Nat.zero_le _))
  · rw [hroot, hroot']
    constructor
    · exact Scheme.digest_inj hfree h.placed hplaced ⟨by omega, fun hempty => absurd hempty hne⟩
        ⟨by omega, fun hempty => absurd hempty hne'⟩ h.nodes hnodes
    · rintro rfl
      rfl

/-- Verifying the empty path hashes the leaf only. -/
theorem proofTexts_nil (depth : Nat) (k v : Bytes) : proofTexts X depth k v [] ⊆ treeTexts X depth [(k, v)] := by
  rintro s (rfl | ⟨n, hn, -⟩)
  · refine .inr ⟨[(k, v)], List.prefix_rfl, .leaf k v, ?_, rfl⟩
    rw [trieOf, List.foldl_cons, List.foldl_nil, Scheme.insert]
    exact List.mem_cons_self
  · exact absurd hn List.not_mem_nil

/-! ## Proofs whatever the hash is -/

variable (X) in
/-- Every node is stored under its own hash, and every leaf satisfies `L`. -/
def SelfAddressed (L : Bytes → Bytes → Prop) (store : SmtStore) : Prop :=
  ∀ h n, plainStore store h = some n → h = (smtScheme X).hash n ∧ ∀ k v, n = .leaf k v → L k v

section SelfAddressed

variable {L : Bytes → Bytes → Prop} {store : SmtStore}

theorem SelfAddressed.put (h : SelfAddressed X L store) {n : SmtNode} (hn : ∀ k v, n.plain = .leaf k v → L k v) :
    SelfAddressed X L (Function.update store ((smtScheme X).hash n.plain) (some n)) := by
  intro h' n' hget
  rw [plainStore_update] at hget
  by_cases heq : h' = (smtScheme X).hash n.plain
  · rw [heq, Function.update_self] at hget
    obtain rfl := Option.some.inj hget
    exact ⟨heq, hn⟩
  · rw [Function.update_of_ne heq] at hget
    exact h h' n' hget

theorem SelfAddressed.putInner (h : SelfAddressed X L store) (l r : Hash) :
    SelfAddressed X L (Gleipnir.putInner X store l r).2 :=
  h.put (n := .inner l r (parentHash X l r)) fun _ _ heq => by cases heq

variable {k v key : Bytes} {t : SparseMerkleTree} {current h' : Hash} {acc proof : List Hash}

theorem SelfAddressed.putLeaf (h : SelfAddressed X L store) (hkv : L k v) :
    SelfAddressed X L (Gleipnir.putLeaf X store k v).2 :=
  h.put (n := .leaf k v (leafHash X k v)) fun _ _ heq => by
    cases heq
    exact hkv

theorem SelfAddressed.splitAndInsert (h : SelfAddressed X L store) (k₁ : Bytes) (h₁ : Hash) (k₂ : Bytes) (h₂ : Hash) (d : Nat) :
    SelfAddressed X L (Gleipnir.splitAndInsert X k₁ h₁ k₂ h₂ d store).2 := by
  induction d with
  | zero => exact h
  | succ d ih =>
    unfold Gleipnir.splitAndInsert
    dsimp only
    split
    · split <;> exact ih.putInner _ _
    · split <;> exact h.putInner _ _

/-- An insertion keeps every node under its hash. -/
theorem SelfAddressed.insertAt (h : SelfAddressed X L store) (hkv : L k v) (d : Nat) (current : Hash) :
    SelfAddressed X L (Gleipnir.insertAt X k v d store current).2 := by
  induction d generalizing store current with
  | zero =>
    unfold Gleipnir.insertAt
    split
    · exact h.putLeaf hkv
    · split
      · exact h.putLeaf hkv
      · exact h
    · exact h
  | succ d ih =>
    unfold Gleipnir.insertAt
    split
    · exact h.putLeaf hkv
    · split
      · exact h.putLeaf hkv
      · exact (h.putLeaf hkv).splitAndInsert _ _ _ _ (d + 1)
    · dsimp only
      split
      · exact (ih h _).putInner _ _
      · exact (ih h _).putInner _ _

theorem SelfAddressed.insertAll {kvs : List (Bytes × Bytes)} (h : SelfAddressed X L t.store) (hkvs : ∀ kv ∈ kvs, L kv.1 kv.2) :
    SelfAddressed X L (t.insertAll X kvs).store := by
  induction kvs generalizing t with
  | nil => exact h
  | cons kv kvs ih =>
    exact ih (t := t.insert X kv.1 kv.2) (h.insertAt (hkvs kv List.mem_cons_self) t.depth t.root)
      fun kv' hkv' => hkvs kv' (List.mem_cons_of_mem _ hkv')

theorem proveAt_leaf (hnode : store current = some (.leaf k v h')) (key : Bytes) (d : Nat) (acc : List Hash) :
    proveAt store key d current acc = if k = key then some acc else none := by
  unfold proveAt
  simp only [hnode]

/-- Two keys that agree in all bits that are read have no two proofs: the walks end at one leaf. -/
theorem eq_of_proveAt {d : Nat} {k' : Bytes} {acc' proof' : List Hash} (hagree : ∀ i < d, path k i = path k' i)
    (h : proveAt store k d current acc = some proof) (h' : proveAt store k' d current acc' = some proof') : k = k' := by
  induction d generalizing current acc acc' with
  | zero =>
    cases hnode : store current with
    | none => simp [proveAt, hnode] at h
    | some n =>
      cases n with
      | inner => simp [proveAt, hnode] at h
      | leaf k₀ v₀ h₀ =>
        rw [proveAt_leaf hnode, Option.ite_none_right_eq_some] at h h'
        exact h.1.symm.trans h'.1
  | succ d ih =>
    cases hnode : store current with
    | none => simp [proveAt, hnode] at h
    | some n =>
      cases n with
      | inner l r h₀ =>
        unfold proveAt at h h'
        simp only [hnode] at h h'
        rw [← hagree d (Nat.lt_succ_self d)] at h'
        have hbelow : ∀ i < d, path k i = path k' i := fun i hi => hagree i (Nat.lt_succ_of_lt hi)
        split at h
        · next hbit =>
          rw [if_pos hbit] at h'
          exact ih hbelow h h'
        · next hbit =>
          rw [if_neg hbit] at h'
          exact ih hbelow h h'
      | leaf k₀ v₀ h₀ =>
        rw [proveAt_leaf hnode, Option.ite_none_right_eq_some] at h h'
        exact h.1.symm.trans h'.1

/-- Where the loop of `Prove` ends. -/
theorem SelfAddressed.leaf_of_proveAt (h : SelfAddressed X L store) {d : Nat} (hnode : store current = some (.leaf k v h'))
    (hprove : proveAt store key d current acc = some proof) : proof = acc ∧ L key v ∧ current = leafHash X key v := by
  obtain ⟨haddress, hleaf⟩ := h current (.leaf k v) (by simp [plainStore, hnode, SmtNode.plain])
  rw [proveAt_leaf hnode, Option.ite_none_right_eq_some, Option.some.injEq] at hprove
  obtain ⟨rfl, rfl⟩ := hprove
  exact ⟨rfl, hleaf k v rfl, haddress⟩

/-- The siblings that the loop of `Prove` collects lead from the leaf it ends at back to the node it started from. -/
theorem recompute_proveAt (h : SelfAddressed X L store) {depth d : Nat} (hd : acc.length + d = depth)
    (hprove : proveAt store key d current acc = some proof) :
    proof.length ≤ depth ∧ ∃ v, L key v ∧
      recompute X depth key proof (leafHash X key v) = recompute X depth key acc current := by
  induction d generalizing current acc with
  | zero =>
    cases hnode : store current with
    | none => simp [proveAt, hnode] at hprove
    | some n =>
      cases n with
      | inner => simp [proveAt, hnode] at hprove
      | leaf k v h' =>
        obtain ⟨rfl, hv, rfl⟩ := h.leaf_of_proveAt hnode hprove
        exact ⟨by omega, v, hv, rfl⟩
  | succ d ih =>
    cases hnode : store current with
    | none => simp [proveAt, hnode] at hprove
    | some n =>
      cases n with
      | inner l r h' =>
        obtain ⟨haddress, -⟩ := h current (.inner l r) (by simp [plainStore, hnode, SmtNode.plain])
        unfold proveAt at hprove
        simp only [hnode] at hprove
        -- the level of the sibling that is put before `acc`
        have hlevel : depth - (acc.length + 1) = d := by omega
        split at hprove
        · next hbit =>
          obtain ⟨hlen, v, hv, hroot⟩ := ih (by simp only [List.length_cons]; omega) hprove
          refine ⟨hlen, v, hv, ?_⟩
          rw [hroot, recompute, hlevel, if_pos hbit, haddress]
          rfl
        · next hbit =>
          obtain ⟨hlen, v, hv, hroot⟩ := ih (by simp only [List.length_cons]; omega) hprove
          refine ⟨hlen, v, hv, ?_⟩
          rw [hroot, recompute, hlevel, if_neg hbit, haddress]
          rfl
      | leaf k v h' =>
        obtain ⟨rfl, hv, rfl⟩ := h.leaf_of_proveAt hnode hprove
        exact ⟨by omega, v, hv, rfl⟩

/-- **A proof goes with one root.** If every key of the tree is its own value, then a proof that `Prove` has given verifies
against the root of the tree then and against no other. -/
theorem verify_prove_iff (h : SelfAddressed X (fun k v => v = k) t.store) (hprove : t.prove key = some proof) (root : Hash) :
    t.verify X key key root proof = true ↔ t.root = root := by
  obtain ⟨hlen, v, rfl, hroot⟩ := recompute_proveAt h (Nat.zero_add t.depth) hprove
  rw [SparseMerkleTree.verify, if_neg (by omega), hroot, beq_iff_eq]
  rfl

end SelfAddressed

/-! ## Hashes as their own values -/

/-- The leaves of entries: each hash is its own value. -/
def leavesOfEntries (entries : List ProvenanceEntry) : List (Bytes × Bytes) :=
  entries.map fun pe => (pe.hash.toList, pe.hash.toList)

theorem insertHashes_eq (t : SparseMerkleTree) (entries : List ProvenanceEntry) :
    t.insertHashes X entries = t.insertAll X (leavesOfEntries entries) := by
  rw [SparseMerkleTree.insertHashes, SparseMerkleTree.insertAll, leavesOfEntries, List.foldl_map]

theorem fills_leavesOfEntries (entries : List ProvenanceEntry) : Fills 256 (leavesOfEntries entries) := by
  intro kv hkv
  obtain ⟨pe, -, rfl⟩ := List.mem_map.1 hkv
  simp [Readable]

/-- The trie of entries maps exactly their hashes, to themselves. -/
theorem maps_leavesOfEntries {entries : List ProvenanceEntry} :
    (trieOf X 256 (leavesOfEntries entries)).Maps k v ↔ v = k ∧ ∃ pe ∈ entries, pe.hash.toList = k := by
  have hspec := trieOf_spec (X := X) (fills_leavesOfEntries entries)
  have hself : ∀ {k v}, (k, v) ∈ leavesOfEntries entries → v = k ∧ ∃ pe ∈ entries, pe.hash.toList = k := by
    intro k v hkv
    obtain ⟨pe, hpe, heq⟩ := List.mem_map.1 hkv
    obtain ⟨rfl, rfl⟩ := Prod.mk.inj heq
    exact ⟨rfl, pe, hpe, rfl⟩
  constructor
  · exact fun h => hself (hspec.inserted k v h)
  · rintro ⟨rfl, pe, hpe, rfl⟩
    obtain ⟨v', hv'⟩ := hspec.present _ pe.hash.toList (List.mem_map.2 ⟨pe, hpe, rfl⟩)
    rwa [(hself (hspec.inserted _ v' hv')).1] at hv'

end Gleipnir
