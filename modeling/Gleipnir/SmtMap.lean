import Gleipnir.Sample
import Mathlib.Data.List.AList

/-!
# The sparse Merkle tree as a map

What `Get`, `Prove`, `Verify` and `Root` of `smt/smt.go` say about the insertions a tree was built by. The nodes of a tree are
found by their hashes, so the results assume that BLAKE3 tells the nodes apart that were hashed (`HashesApart`).

* `get_iff`: `Get` misses exactly the keys that another key differs from in the lowest bit only.
* `prove_verify`: `Prove` finds every key, and its proof verifies with the last value of the key and no other.
* `same_root_iff`: the root is that of the final map, whatever the order of the insertions.
* `verified_in_map`: nothing verifies against the root that is not in the final map.
* `all_proved_iff`: keys of any lengths stay provable exactly if the bits that the tree reads tell them apart.
-/

namespace Gleipnir

open MerkleTrie (Scheme Trie)

variable (X : Prims)

/-! ## Operations -/

/-- The operations that change a tree. The map of a `BulkInsert` lists its entries in the order of the `range`. -/
inductive SmtOp where
  | insert (key value : Bytes)
  | bulkInsert (entries : AList fun _ : Bytes => Bytes)

namespace SmtOp

/-- The insertions of an operation, in their order. -/
def writes : SmtOp → List (Bytes × Bytes)
  | .insert key value => [(key, value)]
  | .bulkInsert entries => entries.entries.map fun e => (e.1, e.2)

/-- The tree after an operation. -/
def run (t : SparseMerkleTree) : SmtOp → SparseMerkleTree
  | .insert key value => t.insert X key value
  | .bulkInsert entries => t.bulkInsert X (entries.entries.map fun e => (e.1, e.2))

/-- What an operation makes of a map from keys to values. -/
def update (m : Bytes → Option Bytes) : SmtOp → Bytes → Option Bytes
  | .insert key value => Function.update m key (some value)
  | .bulkInsert entries => fun k => (entries.lookup k).or (m k)

end SmtOp

/-- The tree that operations build. -/
def buildTree (depth : Nat) (ops : List SmtOp) : SparseMerkleTree := ops.foldl (SmtOp.run X) (.new depth)

/-- The map that operations build. -/
def finalMap (ops : List SmtOp) : Bytes → Option Bytes := ops.foldl SmtOp.update fun _ => none

/-- The insertions of operations. -/
def allWrites (ops : List SmtOp) : List (Bytes × Bytes) := ops.flatMap SmtOp.writes

variable {X}

theorem foldl_run (ops : List SmtOp) (t : SparseMerkleTree) : ops.foldl (SmtOp.run X) t = t.insertAll X (allWrites ops) := by
  induction ops generalizing t with
  | nil => rfl
  | cons op ops ih =>
    rw [List.foldl_cons, ih, allWrites, allWrites, List.flatMap_cons, SparseMerkleTree.insertAll, SparseMerkleTree.insertAll,
      List.foldl_append]
    cases op <;> rfl

/-- A tree is built by the insertions of its operations. -/
theorem buildTree_eq (depth : Nat) (ops : List SmtOp) :
    buildTree X depth ops = (SparseMerkleTree.new depth).insertAll X (allWrites ops) := foldl_run ops _

theorem lastValue_append (kvs more : List (Bytes × Bytes)) (k : Bytes) :
    lastValue (kvs ++ more) k = (lastValue more k).or (lastValue kvs k) := by
  induction more using List.reverseRecOn with
  | nil => rw [List.append_nil]; rfl
  | append_singleton more kv ih =>
    rw [← List.append_assoc, lastValue_concat, lastValue_concat, ih]
    split <;> rfl

/-- The order of the `range` over a map does not matter. -/
theorem lastValue_entries (entries : AList fun _ : Bytes => Bytes) (k : Bytes) :
    lastValue (entries.entries.map fun e => (e.1, e.2)) k = entries.lookup k := by
  have hlookup : ∀ v, lastValue (entries.entries.map fun e => (e.1, e.2)) k = some v → entries.lookup k = some v := by
    intro v hv
    obtain ⟨e, he, heq⟩ := List.mem_map.1 (mem_of_lastValue hv)
    obtain ⟨rfl, rfl⟩ := Prod.mk.inj heq
    exact AList.mem_lookup_iff.2 he
  cases hlast : lastValue (entries.entries.map fun e => (e.1, e.2)) k with
  | some v => exact (hlookup v hlast).symm
  | none =>
    by_contra hne
    obtain ⟨v, hv⟩ := Option.ne_none_iff_exists'.1 (Ne.symm hne)
    have hmem : k ∈ (entries.entries.map fun e => (e.1, e.2)).map Prod.fst :=
      List.mem_map.2 ⟨(k, v), List.mem_map.2 ⟨⟨k, v⟩, AList.mem_lookup_iff.1 hv, rfl⟩, rfl⟩
    obtain ⟨v', hv'⟩ := exists_lastValue.2 hmem
    rw [hlast] at hv'
    cases hv'

/-- The map holds the last value of every key. -/
theorem finalMap_eq (ops : List SmtOp) : finalMap ops = lastValue (allWrites ops) := by
  induction ops using List.reverseRecOn with
  | nil => rfl
  | append_singleton ops op ih =>
    funext k
    have hwrites : allWrites (ops ++ [op]) = allWrites ops ++ op.writes := by simp [allWrites]
    rw [finalMap, List.foldl_concat, hwrites, lastValue_append, ← ih]
    cases op with
    | insert key value =>
      change Function.update (finalMap ops) key (some value) k = _
      by_cases hk : k = key
      · subst hk
        simp [SmtOp.writes, lastValue]
      · rw [Function.update_of_ne hk]
        simp [SmtOp.writes, lastValue, hk]
    | bulkInsert entries =>
      rw [SmtOp.writes, lastValue_entries]
      rfl

/-! ## Hashes that tell the nodes apart -/

variable (X) in
/-- BLAKE3 has no collision and no zero output among the strings of these nodes, and no leaf has the string of an interior
node. -/
structure HashesApart (N : Set (MerkleTrie.Node Bytes Bytes Hash)) : Prop where
  collisionless : Collisionless X (nodeText '' N)
  leaves : ∀ k v l r, .leaf k v ∈ N → .inner l r ∈ N → nodeText (.leaf k v) ≠ nodeText (.inner l r)

/-- The fields of the lengths tell the lengths of the keys. -/
def LengthsTold (N : Set (MerkleTrie.Node Bytes Bytes Hash)) : Prop :=
  ∀ k v k' v', .leaf k v ∈ N → .leaf k' v' ∈ N →
    be64 (UInt64.ofNat k.length) = be64 (UInt64.ofNat k'.length) → k.length = k'.length

section Apart

variable {N : Set (MerkleTrie.Node Bytes Bytes Hash)} {depth : Nat} {kvs : List (Bytes × Bytes)}

theorem HashesApart.mono {N' : Set (MerkleTrie.Node Bytes Bytes Hash)} (h : HashesApart X N') (hsub : N ⊆ N') : HashesApart X N :=
  ⟨h.collisionless.mono (Set.image_mono hsub), fun k v l r hk hl => h.leaves k v l r (hsub hk) (hsub hl)⟩

/-- The hash is injective on such nodes. -/
theorem HashesApart.collisionFree (h : HashesApart X N) (hlen : LengthsTold N) (hnodes : treeNodes X depth kvs ⊆ N) :
    (smtScheme X).CollisionFree (depth - 1) N where
  inj := by
    intro n hn n' hn' heq
    have htext : nodeText n = nodeText n' := h.collisionless.inj ⟨n, hn, rfl⟩ ⟨n', hn', rfl⟩ heq
    cases n with
    | leaf k v =>
      cases n' with
      | leaf k' v' =>
        obtain ⟨rfl, rfl⟩ := leafText_inj (hlen k v k' v' hn hn') htext
        rfl
      | inner l' r' => exact absurd htext (h.leaves k v l' r' hn hn')
    | inner l r =>
      cases n' with
      | leaf k' v' => exact absurd htext.symm (h.leaves k' v' l r hn' hn)
      | inner l' r' =>
        obtain ⟨hl, hr⟩ := List.append_inj htext (by simp)
        rw [List.Vector.toList_injective hl, List.Vector.toList_injective hr]
  nonzero := fun n hn => h.collisionless.nonzero (nodeText n) ⟨n, hn, rfl⟩
  zeroes := fun i hi => hnodes (.inl ⟨i, by omega, rfl⟩)

variable {k v key value : Bytes} {proof : List Hash}

/-- The leaves of a tree are the pairs that were inserted. -/
theorem mem_of_leaf_mem_treeNodes (hs : Spread depth kvs) (h : .leaf k v ∈ treeNodes X depth kvs) : (k, v) ∈ kvs := by
  rcases h with ⟨i, -, hnode⟩ | ⟨kvs', hprefix, hn⟩
  · cases hnode
  · have hT := canonicalFor_trieOf (X := X) (hs.mono hprefix.subset)
    exact hprefix.subset (mem_of_lastValue ((hT.maps k v).1 (Scheme.maps_of_mem_nodes hn)))

/-- The only leaf of a proof is the one it starts from. -/
theorem leaf_mem_proofNodes (h : .leaf k v ∈ proofNodes X depth key value proof) : k = key ∧ v = value := by
  rcases h with heq | hn
  · exact MerkleTrie.Node.leaf.inj heq
  · obtain ⟨l, r, heq⟩ := Scheme.inner_of_climbed hn
    cases heq

theorem lengthsTold_of_eq {m : Nat} (h : ∀ k v, .leaf k v ∈ N → k.length = m) : LengthsTold N :=
  fun k v k' v' hk hk' _ => (h k v hk).trans (h k' v' hk').symm

/-- The strings of the nodes hashed to build a tree. -/
theorem image_treeNodes : nodeText '' treeNodes X depth kvs = treeTexts X depth kvs := by
  ext s
  constructor
  · rintro ⟨n, ⟨i, hi, rfl⟩ | ⟨kvs', hprefix, hn⟩, rfl⟩
    · exact .inl ⟨i, hi, rfl⟩
    · exact .inr ⟨kvs', hprefix, n, hn, rfl⟩
  · rintro (⟨i, hi, rfl⟩ | ⟨kvs', hprefix, n, hn, rfl⟩)
    · exact ⟨_, .inl ⟨i, hi, rfl⟩, rfl⟩
    · exact ⟨n, .inr ⟨kvs', hprefix, hn⟩, rfl⟩

/-- The strings of the nodes hashed to verify a proof. -/
theorem image_proofNodes : nodeText '' proofNodes X depth key value proof = proofTexts X depth key value proof := by
  ext s
  constructor
  · rintro ⟨n, rfl | hn, rfl⟩
    · exact .inl rfl
    · exact .inr ⟨n, hn, rfl⟩
  · rintro (rfl | ⟨n, hn, rfl⟩)
    · exact ⟨_, .inl rfl, rfl⟩
    · exact ⟨n, .inr hn, rfl⟩

/-- Leaves with keys of 32 bytes have no string of an interior node, unless their values have 12 bytes. -/
theorem hashesApart_of_lengths (hX : Collisionless X (nodeText '' N))
    (h : ∀ k v, .leaf k v ∈ N → k.length = 32 ∧ v.length ≠ 12) : HashesApart X N := by
  refine ⟨hX, fun k v l r hk _ heq => ?_⟩
  obtain ⟨hkey, hvalue⟩ := h k v hk
  have hlen := congrArg List.length heq
  rw [length_leafText, length_innerText] at hlen
  omega

theorem collisionFree_of_lengths (hX : Collisionless X (nodeText '' N))
    (h : ∀ k v, .leaf k v ∈ N → k.length = 32 ∧ v.length ≠ 12) (hnodes : treeNodes X depth kvs ⊆ N) :
    (smtScheme X).CollisionFree (depth - 1) N :=
  (hashesApart_of_lengths hX h).collisionFree (lengthsTold_of_eq fun k v hkv => (h k v hkv).1) hnodes

/-- A key that was inserted has a proof of its last value. -/
theorem exists_proof (hs : Spread depth kvs) (hfree : (smtScheme X).CollisionFree (depth - 1) N)
    (hnodes : treeNodes X depth kvs ⊆ N) (hk : k ∈ kvs.map Prod.fst) :
    ∃ proof v, ((SparseMerkleTree.new depth).insertAll X kvs).prove k = some proof ∧ proof.length ≤ depth ∧
      lastValue kvs k = some v ∧ ((SparseMerkleTree.new depth).insertAll X kvs).verify X k v
        ((SparseMerkleTree.new depth).insertAll X kvs).root proof = true := by
  obtain ⟨v, hv⟩ := exists_lastValue.2 hk
  have hmaps := ((canonicalFor_trieOf (X := X) hs).maps k v).2 hv
  obtain ⟨proof, hproof, hlen, hverify⟩ := (standsFor_insertAll hs hfree hnodes).prove hmaps
  rw [depth_insertAll] at hlen
  exact ⟨proof, v, hproof, hlen, hv, hverify⟩

/-- What verifies against the root is the last value of its key. -/
theorem lastValue_of_verify (hs : Spread depth kvs) (hfree : (smtScheme X).CollisionFree (depth - 1) N)
    (hnodes : treeNodes X depth kvs ⊆ N) (hproof : proofNodes X depth k v proof ⊆ N)
    (hverify : ((SparseMerkleTree.new depth).insertAll X kvs).verify X k v
      ((SparseMerkleTree.new depth).insertAll X kvs).root proof = true) : lastValue kvs k = some v := by
  have hdepth : ((SparseMerkleTree.new depth).insertAll X kvs).depth = depth := depth_insertAll _ _
  refine ((canonicalFor_trieOf (X := X) hs).maps k v).1 ((standsFor_insertAll hs hfree hnodes).sound ?_ ?_ hverify)
  · rwa [hdepth]
  · rwa [hdepth]

end Apart

/-! ## Keys of the length of the tree -/

section Sized

variable {depth : Nat} {kvs : List (Bytes × Bytes)}

theorem lengthsTold_sized (hs : Sized depth kvs) : LengthsTold (treeNodes X depth kvs) :=
  lengthsTold_of_eq (m := depth / 8) fun k v h => by
    have hlen := hs _ (mem_of_leaf_mem_treeNodes hs.spread h)
    simp only at hlen
    omega

namespace Sample

/-- The nodes hashed to build a tree, listed. -/
def nodeList (X : Prims) (depth : Nat) (kvs : List (Bytes × Bytes)) : List (MerkleTrie.Node Bytes Bytes Hash) :=
  (List.range (depth - 1)).map (fun i => .inner (zeroes X i) (zeroes X i)) ++
    kvs.inits.flatMap fun kvs' => (smtScheme X).nodes depth (trieOf X depth kvs')

theorem mem_nodeList {n : MerkleTrie.Node Bytes Bytes Hash} {depth : Nat} {kvs : List (Bytes × Bytes)}
    (h : n ∈ treeNodes X depth kvs) : n ∈ nodeList X depth kvs := by
  rcases h with ⟨i, hi, rfl⟩ | ⟨kvs', hprefix, hn⟩
  · exact List.mem_append_left _ (List.mem_map.2 ⟨i, List.mem_range.2 (by omega), rfl⟩)
  · exact List.mem_append_right _ (List.mem_flatMap.2 ⟨kvs', (List.mem_inits _ _).2 hprefix, hn⟩)

/-- Listed nodes with different hashes, and leaves of other lengths than an interior node. -/
theorem hashesApart_of_list {N : Set (MerkleTrie.Node Bytes Bytes Hash)} {ns : List (MerkleTrie.Node Bytes Bytes Hash)}
    (hsub : ∀ n ∈ N, n ∈ ns) (h : tellsApart X (ns.map nodeText) = true)
    (hleaf : ∀ k v, .leaf k v ∈ N → k.length + v.length ≠ 44) : HashesApart X N := by
  refine ⟨(collisionless_of_tellsApart h).mono ?_, fun k v l r hk _ heq => ?_⟩
  · rintro s ⟨n, hn, rfl⟩
    exact List.mem_map.2 ⟨n, hsub n hn, rfl⟩
  · have hlen := congrArg List.length heq
    rw [length_leafText, length_innerText] at hlen
    exact hleaf k v hk (by omega)

/-- Three keys of one byte; the first two differ in their lowest bit only. -/
def bytePairs : List (Bytes × Bytes) := [([0], [7]), ([1], [8]), ([2], [9])]

/-- The tree of depth 8 with these keys. -/
def byteTree : SparseMerkleTree := (SparseMerkleTree.new 8).insertAll prims bytePairs

theorem bytePairs_sized : Sized 8 bytePairs := by
  unfold Sized
  decide

/-- What `Get` answers for the first and the third key, the proof of the first, and whether the hashes of the tree and of the
proof are different. -/
def byteTreeReads : Option Bytes × Option Bytes × Option (List Hash) × Bool :=
  let proof := byteTree.prove [0]
  (byteTree.get [0], byteTree.get [2], proof, tellsApart prims ((nodeList prims 8 bytePairs ++ .leaf [0] [7] ::
    (smtScheme prims).climbed [0] 8 (proof.getD []) (leafHash prims [0] [7])).map nodeText))

def byteTreeHas : Computed byteTreeReads fun x => x.1 = none ∧ x.2.1 = some [9] ∧ x.2.2.1.isSome = true ∧ x.2.2.2 = true :=
  computed _ (by decide +kernel)

theorem byteTree_reads : byteTree.get [0] = none ∧ byteTree.get [2] = some [9] ∧ ∃ proof, byteTree.prove [0] = some proof ∧
    HashesApart prims (treeNodes prims 8 bytePairs ∪ proofNodes prims 8 [0] [7] proof) := by
  obtain ⟨x, hx, hfirst, hthird, hsome, hapart⟩ := byteTreeHas
  unfold byteTreeReads at hx
  subst hx
  dsimp only at hfirst hthird hsome hapart
  obtain ⟨proof, hproof⟩ := Option.isSome_iff_exists.1 hsome
  rw [hproof, Option.getD_some] at hapart
  refine ⟨hfirst, hthird, proof, hproof, hashesApart_of_list ?_ hapart ?_⟩
  · rintro n (hn | rfl | hn)
    · exact List.mem_append_left _ (mem_nodeList hn)
    · exact List.mem_append_right _ List.mem_cons_self
    · exact List.mem_append_right _ (List.mem_cons_of_mem _ hn)
  · rintro k v (hleaf | hleaf)
    · have hmem := mem_of_leaf_mem_treeNodes bytePairs_sized.spread hleaf
      have hlens : ∀ kv ∈ bytePairs, kv.1.length + kv.2.length ≠ 44 := by decide
      exact hlens _ hmem
    · obtain ⟨rfl, rfl⟩ := leaf_mem_proofNodes hleaf
      decide

end Sample

/-- **Lookup.** On a tree built by insertions of keys that fill its depth, `Get` answers with the last value of a key, or that it
was never inserted, exactly if no other key differs from it in the lowest bit only. -/
theorem get_iff (hd : 0 < depth) (hs : Sized depth kvs) (hX : HashesApart X (treeNodes X depth kvs)) (k : Bytes) :
    ((SparseMerkleTree.new depth).insertAll X kvs).get k = lastValue kvs k ↔
      (k ∈ kvs.map Prod.fst → ∀ kv ∈ kvs, kv.1 ≠ k → ∃ i, 1 ≤ i ∧ i < depth ∧ path kv.1 i ≠ path k i) := by
  have hfree := hX.collisionFree (lengthsTold_sized hs) subset_rfl
  have ht := standsFor_insertAll hs.spread hfree subset_rfl
  have hT := canonicalFor_trieOf (X := X) hs.spread
  have hdepth : ((SparseMerkleTree.new depth).insertAll X kvs).depth = depth := depth_insertAll _ _
  have hfind : ∀ v, (smtScheme X).find k depth (trieOf X depth kvs) = some v ↔ lastValue kvs k = some v ∧
      ∀ kv ∈ kvs, kv.1 ≠ k → ∃ i, 1 ≤ i ∧ i < depth ∧ path kv.1 i ≠ path k i := by
    intro v
    rw [Scheme.find_iff hT.placed hT.compressed hd, hT.maps]
    refine and_congr_right fun _ => ⟨fun h kv hkv hne => ?_, fun h k' hk' hne => ?_⟩
    · exact h kv.1 (hT.hasKey.2 (List.mem_map.2 ⟨kv, hkv, rfl⟩)) hne
    · obtain ⟨kv, hkv, rfl⟩ := List.mem_map.1 (hT.hasKey.1 hk')
      exact h kv hkv hne
  rw [ht.get_eq (by rw [hdepth]; exact hfree), hdepth]
  constructor
  · intro h hk
    obtain ⟨v, hv⟩ := exists_lastValue.2 hk
    exact ((hfind v).1 (h.trans hv)).2
  · intro h
    cases hlast : lastValue kvs k with
    | some v => exact (hfind v).2 ⟨hlast, h (exists_lastValue.1 ⟨v, hlast⟩)⟩
    | none =>
      by_contra hne
      obtain ⟨v, hv⟩ := Option.ne_none_iff_exists'.1 hne
      rw [((hfind v).1 hv).1] at hlast
      cases hlast

namespace Sample

theorem hashesApart_byteTree : HashesApart prims (treeNodes prims 8 bytePairs) := by
  obtain ⟨-, -, proof, -, hapart⟩ := byteTree_reads
  exact hapart.mono Set.subset_union_left

/-- The third key is found. -/
theorem third_key_found : byteTree.get [2] = some [9] := by
  have hbit : ∀ kv ∈ bytePairs, kv.1 ≠ [2] → path kv.1 1 ≠ path [2] 1 := by decide
  exact (get_iff (by decide) bytePairs_sized hashesApart_byteTree [2]).2 fun _ kv hkv hne =>
    ⟨1, Nat.le_refl 1, by decide, hbit kv hkv hne⟩

/-- The first key was inserted with the value `7`, and `Get` does not find it. -/
theorem first_key_missed : ∃ depth kvs k v, 0 < depth ∧ 8 ∣ depth ∧ Sized depth kvs ∧ HashesApart prims (treeNodes prims depth kvs) ∧
    lastValue kvs k = some v ∧ ((SparseMerkleTree.new depth).insertAll prims kvs).get k = none :=
  ⟨8, bytePairs, [0], [7], by decide, by decide, bytePairs_sized, hashesApart_byteTree, rfl, byteTree_reads.1⟩

end Sample

/-- **Proofs.** On such a tree `Prove` succeeds for exactly the keys that were inserted. Its proof is no longer than the depth,
and `Verify` accepts it with the last value of the key and with no other. -/
theorem prove_verify (hs : Sized depth kvs) (hX : HashesApart X (treeNodes X depth kvs)) :
    (∀ k, (∃ proof, ((SparseMerkleTree.new depth).insertAll X kvs).prove k = some proof) ↔ k ∈ kvs.map Prod.fst) ∧
    ∀ k proof, ((SparseMerkleTree.new depth).insertAll X kvs).prove k = some proof → proof.length ≤ depth ∧
      ∀ v, HashesApart X (treeNodes X depth kvs ∪ proofNodes X depth k v proof) →
        (((SparseMerkleTree.new depth).insertAll X kvs).verify X k v ((SparseMerkleTree.new depth).insertAll X kvs).root proof
          = true ↔ lastValue kvs k = some v) := by
  have hfree := hX.collisionFree (lengthsTold_sized hs) subset_rfl
  have hfound : ∀ k, (∃ proof, ((SparseMerkleTree.new depth).insertAll X kvs).prove k = some proof) ↔ k ∈ kvs.map Prod.fst := by
    intro k
    constructor
    · rintro ⟨proof, hproof⟩
      rw [(standsFor_insertAll hs.spread hfree subset_rfl).prove_eq (by rwa [depth_insertAll])] at hproof
      exact (canonicalFor_trieOf (X := X) hs.spread).hasKey.1 (Scheme.hasKey_of_path hproof)
    · intro hk
      obtain ⟨proof, -, hproof, -⟩ := exists_proof hs.spread hfree subset_rfl hk
      exact ⟨proof, hproof⟩
  refine ⟨hfound, fun k proof hproof => ?_⟩
  have hk := (hfound k).1 ⟨proof, hproof⟩
  obtain ⟨proof', v₀, hproof', hlen, hv₀, hverify⟩ := exists_proof hs.spread hfree subset_rfl hk
  obtain rfl := Option.some.inj (hproof.symm.trans hproof')
  refine ⟨hlen, fun v hX' => ⟨fun hv => ?_, fun hv => ?_⟩⟩
  · -- what the verifier hashes is known besides the nodes of the tree
    have hkeys : ∀ k' v', .leaf k' v' ∈ treeNodes X depth kvs ∪ proofNodes X depth k v proof → k'.length = depth / 8 := by
      obtain ⟨kv, hkv, rfl⟩ := List.mem_map.1 hk
      rintro k' v' (hleaf | hleaf)
      · have hsize := hs _ (mem_of_leaf_mem_treeNodes hs.spread hleaf)
        simp only at hsize
        omega
      · have hsize := hs kv hkv
        rw [(leaf_mem_proofNodes hleaf).1]
        omega
    have hfree' := hX'.collisionFree (lengthsTold_of_eq hkeys) (Set.subset_union_left (s := treeNodes X depth kvs))
    exact lastValue_of_verify hs.spread hfree' Set.subset_union_left Set.subset_union_right hv
  · obtain rfl := Option.some.inj (hv₀.symm.trans hv)
    exact hverify

/-- The first key is proved, with its value. -/
theorem Sample.first_key_proved : ∃ proof, Sample.byteTree.prove [0] = some proof ∧ proof.length ≤ 8 ∧
    Sample.byteTree.verify Sample.prims [0] [7] Sample.byteTree.root proof = true := by
  obtain ⟨-, -, proof, hproof, hapart⟩ := Sample.byteTree_reads
  obtain ⟨hlen, hverify⟩ := (prove_verify Sample.bytePairs_sized Sample.hashesApart_byteTree).2 [0] proof hproof
  exact ⟨proof, hproof, hlen, (hverify [7] hapart).2 rfl⟩

end Sized

/-! ## Keys and values of 32 bytes -/

/-- The operations write keys and values of 32 bytes. -/
def Words (ops : List SmtOp) : Prop := ∀ kv ∈ allWrites ops, kv.1.length = 32 ∧ kv.2.length = 32

theorem Words.sized {ops : List SmtOp} (h : Words ops) : Sized 256 (allWrites ops) := fun kv hkv => by
  have := (h kv hkv).1
  omega

theorem Words.leaf {ops : List SmtOp} (h : Words ops) {k v : Bytes} (hleaf : .leaf k v ∈ treeNodes X 256 (allWrites ops)) :
    k.length = 32 ∧ v.length ≠ 12 := by
  have hlen := h _ (mem_of_leaf_mem_treeNodes h.sized.spread hleaf)
  simp only at hlen
  exact ⟨hlen.1, by omega⟩

/-- **Roots.** Two trees of depth 256 built by any insertions of 32 bytes have one root exactly if they have one final map. -/
theorem same_root_iff {ops ops' : List SmtOp} (h : Words ops) (h' : Words ops')
    (hX : Collisionless X (treeTexts X 256 (allWrites ops) ∪ treeTexts X 256 (allWrites ops'))) :
    (buildTree X 256 ops).root = (buildTree X 256 ops').root ↔ finalMap ops = finalMap ops' := by
  rw [← image_treeNodes, ← image_treeNodes, ← Set.image_union] at hX
  have hleaf : ∀ k v, .leaf k v ∈ treeNodes X 256 (allWrites ops) ∪ treeNodes X 256 (allWrites ops') →
      k.length = 32 ∧ v.length ≠ 12 := by
    rintro k v (hleaf | hleaf)
    · exact h.leaf hleaf
    · exact h'.leaf hleaf
  have hfree := collisionFree_of_lengths hX hleaf (Set.subset_union_left (s := treeNodes X 256 (allWrites ops)))
  have ht := standsFor_insertAll h.sized.spread hfree Set.subset_union_left
  have ht' := standsFor_insertAll h'.sized.spread hfree Set.subset_union_right
  have hT := canonicalFor_trieOf (X := X) h.sized.spread
  have hT' := canonicalFor_trieOf (X := X) h'.sized.spread
  have hdepth : ((SparseMerkleTree.new 256).insertAll X (allWrites ops)).depth = 256 := depth_insertAll _ _
  have hdepth' : ((SparseMerkleTree.new 256).insertAll X (allWrites ops')).depth = 256 := depth_insertAll _ _
  rw [buildTree_eq, buildTree_eq, finalMap_eq, finalMap_eq,
    ht.root_eq_iff ht' (by rw [hdepth]; exact hfree) (hdepth'.trans hdepth.symm)]
  constructor
  · intro heq
    funext k
    refine Option.ext fun v => ?_
    rw [← hT.maps, ← hT'.maps, heq]
  · intro heq
    exact Scheme.eq_of_maps hT.placed hT'.placed hT.compressed hT'.compressed fun k v => by rw [hT.maps, hT'.maps, heq]

namespace Sample

def leftWord : Bytes := leftEntry.hash.toList

def rightWord : Bytes := rightEntry.hash.toList

/-- Two keys, the first with the value of the second. -/
def insertWords : List SmtOp := [.insert leftWord rightWord, .insert rightWord rightWord]

/-- The first key gets a value of its own. -/
def overwriteWord : List SmtOp := insertWords ++ [.insert leftWord leftWord]

/-- The same keys and values in the other order. -/
def bulkInsertWords : List SmtOp := [.bulkInsert (AList.singleton rightWord rightWord), .insert leftWord leftWord]

theorem words_insertWords : Words insertWords := by
  unfold Words
  decide +kernel

theorem words_overwriteWord : Words overwriteWord := by
  unfold Words
  decide +kernel

theorem words_bulkInsertWords : Words bulkInsertWords := by
  unfold Words
  decide +kernel

/-- What is hashed for these trees, and to climb from the first key past the second. -/
def wordTexts : List Bytes :=
  grownTexts (allWrites overwriteWord) ++ (grownTexts (allWrites bulkInsertWords) ++
    climbedTexts leftWord leftWord [leafHash tagging rightWord rightWord])

def wordTextsTagged : Computed wordTexts fun texts => tagged texts = true := computed _ (by decide +kernel)

theorem collisionless_wordTexts : Collisionless tagging (textsWith wordTexts) := by
  obtain ⟨texts, rfl, htagged⟩ := wordTextsTagged
  exact collisionless_tagged htagged

theorem treeTexts_overwriteWord : treeTexts tagging 256 (allWrites overwriteWord) ⊆ textsWith wordTexts :=
  treeTexts_subset fun _ hs => List.mem_append_left _ hs

theorem treeTexts_bulkInsertWords : treeTexts tagging 256 (allWrites bulkInsertWords) ⊆ textsWith wordTexts :=
  treeTexts_subset fun _ hs => List.mem_append_right _ (List.mem_append_left _ hs)

/-- Neither the order of two keys nor a value that is overwritten shows in the root; the last value does. -/
theorem word_root : (buildTree tagging 256 overwriteWord).root = (buildTree tagging 256 bulkInsertWords).root ∧
    (buildTree tagging 256 overwriteWord).root ≠ (buildTree tagging 256 insertWords).root := by
  have hbefore : treeTexts tagging 256 (allWrites insertWords) ⊆ textsWith wordTexts :=
    (treeTexts_mono ⟨[(leftWord, leftWord)], rfl⟩).trans treeTexts_overwriteWord
  refine ⟨(same_root_iff words_overwriteWord words_bulkInsertWords ?_).2 ?_, fun heq => ?_⟩
  · exact collisionless_wordTexts.mono (Set.union_subset treeTexts_overwriteWord treeTexts_bulkInsertWords)
  · rw [finalMap_eq, finalMap_eq]
    funext k
    by_cases hleft : k = leftWord
    · subst hleft
      rfl
    · by_cases hright : k = rightWord
      · subst hright
        decide +kernel
      · simp [overwriteWord, insertWords, bulkInsertWords, allWrites, SmtOp.writes, lastValue, List.lookup_cons,
          beq_false_of_ne hleft, beq_false_of_ne hright]
  · have hmaps := (same_root_iff words_overwriteWord words_insertWords
      (collisionless_wordTexts.mono (Set.union_subset treeTexts_overwriteWord hbefore))).1 heq
    have hat := congrFun hmaps leftWord
    rw [finalMap_eq, finalMap_eq] at hat
    revert hat
    decide +kernel

end Sample

/-- **Soundness.** Whatever siblings are given, `Verify` accepts a key of 32 bytes with a value against the root of a tree only
if the final map of the tree has it. The one length that is left out is that of a value whose leaf would have the length of an
interior node. -/
theorem verified_in_map {ops : List SmtOp} (h : Words ops) {k v : Bytes} (hk : k.length = 32) (hv : v.length ≠ 12)
    (proof : List Hash) (hX : Collisionless X (treeTexts X 256 (allWrites ops) ∪ proofTexts X 256 k v proof))
    (hverify : (buildTree X 256 ops).verify X k v (buildTree X 256 ops).root proof = true) : finalMap ops k = some v := by
  rw [← image_treeNodes, ← image_proofNodes, ← Set.image_union] at hX
  have hleaf : ∀ k' v', .leaf k' v' ∈ treeNodes X 256 (allWrites ops) ∪ proofNodes X 256 k v proof →
      k'.length = 32 ∧ v'.length ≠ 12 := by
    rintro k' v' (hleaf | hleaf)
    · exact h.leaf hleaf
    · obtain ⟨rfl, rfl⟩ := leaf_mem_proofNodes hleaf
      exact ⟨hk, hv⟩
  have hfree := collisionFree_of_lengths hX hleaf (Set.subset_union_left (s := treeNodes X 256 (allWrites ops)))
  rw [buildTree_eq] at hverify
  rw [finalMap_eq]
  exact lastValue_of_verify h.sized.spread hfree Set.subset_union_left Set.subset_union_right hverify

/-- The second leaf is the sibling that shows the value of the first key. -/
theorem Sample.word_in_map :
    (buildTree tagging 256 overwriteWord).verify tagging leftWord leftWord (buildTree tagging 256 overwriteWord).root
      [leafHash tagging rightWord rightWord] = true ∧ finalMap overwriteWord leftWord = some leftWord := by
  have hverify : (buildTree tagging 256 overwriteWord).verify tagging leftWord leftWord
      (buildTree tagging 256 overwriteWord).root [leafHash tagging rightWord rightWord] = true := by
    decide +kernel
  refine ⟨hverify, verified_in_map words_overwriteWord (by decide) (by decide) _ ?_ hverify⟩
  refine collisionless_wordTexts.mono (Set.union_subset treeTexts_overwriteWord (proofTexts_subset fun _ hs => ?_))
  exact List.mem_append_right _ (List.mem_append_right _ hs)

/-! ## Keys of any lengths -/

/-- **No key is lost** by insertions into a tree of any depth, that is, all of them have proofs afterwards, exactly if any two
of them differ in a bit below the depth. -/
theorem all_proved_iff {depth : Nat} {ops : List SmtOp} (hlen : ∀ kv ∈ allWrites ops, kv.1.length < 2 ^ 64)
    (hX : HashesApart X (treeNodes X depth (allWrites ops))) :
    (∀ kv ∈ allWrites ops, ∃ proof, (buildTree X depth ops).prove kv.1 = some proof) ↔ Spread depth (allWrites ops) := by
  have hdepth : ((SparseMerkleTree.new depth).insertAll X (allWrites ops)).depth = depth := depth_insertAll _ _
  rw [buildTree_eq]
  constructor
  · intro h kv hkv kv' hkv' hne
    obtain ⟨proof, hproof⟩ := h kv hkv
    obtain ⟨proof', hproof'⟩ := h kv' hkv'
    by_contra hagree
    push Not at hagree
    rw [SparseMerkleTree.prove, hdepth] at hproof hproof'
    exact hne (eq_of_proveAt hagree hproof hproof')
  · intro hs kv hkv
    have htold : LengthsTold (treeNodes X depth (allWrites ops)) := fun k v k' v' hk hk' =>
      be64_length_inj (hlen _ (mem_of_leaf_mem_treeNodes hs hk)) (hlen _ (mem_of_leaf_mem_treeNodes hs hk'))
    have hfree := hX.collisionFree htold subset_rfl
    obtain ⟨proof, -, hproof, -⟩ := exists_proof hs hfree subset_rfl (List.mem_map.2 ⟨kv, hkv, rfl⟩)
    exact ⟨proof, hproof⟩

namespace Sample

/-- The insertions of the three keys of one byte. -/
def byteOps : List SmtOp := [.insert [0] [7], .insert [1] [8], .insert [2] [9]]

/-- Their bits tell them apart, so all have proofs. -/
theorem byte_keys_proved : (allWrites byteOps).length = 3 ∧
    ∀ kv ∈ allWrites byteOps, ∃ proof, (buildTree prims 8 byteOps).prove kv.1 = some proof :=
  ⟨rfl, (all_proved_iff (by decide) hashesApart_byteTree).2 bytePairs_sized.spread⟩

/-- The empty key and the zero byte have the same bits, so one of them is lost. -/
theorem zero_key_lost : ∃ ops : List SmtOp, ((allWrites ops).map Prod.fst).Nodup ∧ (allWrites ops).length = 2 ∧
    ∃ kv ∈ allWrites ops, (buildTree prims 256 ops).prove kv.1 = none := by
  refine ⟨[.insert [] [7], .insert [0] [8]], by decide, rfl, ?_⟩
  by_contra hall
  push Not at hall
  obtain ⟨proof, hproof⟩ := Option.ne_none_iff_exists'.1 (hall ([], [7]) (by decide))
  obtain ⟨proof', hproof'⟩ := Option.ne_none_iff_exists'.1 (hall ([0], [8]) (by decide))
  have hagree : ∀ i, path [] i = path [0] i := by
    intro i
    rcases Nat.eq_zero_or_pos (i / 8) with hi | hi
    · simp [path, hi]
    · simp [path, List.getElem?_eq_none, Nat.one_le_iff_ne_zero.2 (Nat.pos_iff_ne_zero.1 hi)]
  have hsame := eq_of_proveAt (fun i _ => hagree i) hproof hproof'
  cases hsame

end Sample

end Gleipnir
