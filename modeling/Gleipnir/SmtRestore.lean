import Gleipnir.Lib.CopyMap
import Gleipnir.Sample
import Gleipnir.SmtRecords

/-!
# Restored trees

`Clone`, and `smt/smt_serialization.go`. A copy of a tree has other records: an empty slice comes back nil, and the keys of the
store go through hexadecimal names. `Tree.Same` relates two trees that stand for the same one and have the same table. Every
operation takes related trees to related ones (`Same.insertAll`) and reads the same from them, so a restored tree cannot be told
from the original (`restored_behaves`).
-/

namespace Gleipnir.Smt

open CopyMap

variable (X : Prims)

/-! ## Copies -/

/-- `append([]byte(nil), s...)`. -/
def Slice.clone (s : Slice) : Slice := if s.bytes = [] then none else some s.bytes

def Node.clone (n : Node) : Node := { n with key := n.key.clone, value := n.value.clone }

/-- `SparseMerkleTree.Clone`. -/
def Tree.clone (t : Tree) : Tree := { t with store := copyMap id Node.clone t.store }

/-- `serializableTree`; a `serializableNode` has the fields of a node. -/
structure SerializableTree where
  root : Hash
  depth : Int
  zeroes : List Hash
  store : AList fun _ : String => Node

/-- `encoding/json` on such trees. -/
structure Json where
  marshal : SerializableTree → Bytes
  unmarshal : Bytes → Option SerializableTree

/-- What can go wrong in `UnmarshalJSON`. -/
inductive RestoreError where
  | json
  | decodeStoreKey (text : String)
  deriving DecidableEq

/-- What `MarshalJSON` hands to `json.Marshal`. -/
def Tree.serializable (t : Tree) : SerializableTree :=
  ⟨t.root, t.depth, t.zeroes, copyMap (fun k : Hash => hexEncode k.toList) id t.store⟩

/-- `MarshalJSON`. -/
def Tree.marshalJSON (J : Json) (t : Tree) : Bytes := J.marshal t.serializable

/-- The key of the store under a name. -/
def decodeStoreKey (text : String) : Except RestoreError Hash :=
  match hexDecode text with
  | none => throw (.decodeStoreKey text)
  | some bs => return Arr.copy 32 bs

/-- `UnmarshalJSON`; it sets every field of the tree it is called on. -/
def unmarshalJSON (J : Json) (data : Bytes) : Except RestoreError Tree :=
  match J.unmarshal data with
  | none => throw .json
  | some st => do
    let store ← st.store.entries.foldlM (fun store s => (decodeStoreKey s.1).map fun k => store.insert k s.2) ∅
    return ⟨st.root, st.depth, store, st.zeroes⟩

/-! ## What comes back -/

/-- The fields of a node, with its slices as what they hold. -/
def Node.content (n : Node) : Hash × Hash × Hash × Bool × Bytes × Bytes :=
  (n.left, n.right, n.hash, n.leaf, n.key.bytes, n.value.bytes)

/-- `encoding/json` gives back a tree, but for nil slices. -/
def Json.RoundTrips (J : Json) (st : SerializableTree) : Prop :=
  ∃ st', J.unmarshal (J.marshal st) = some st' ∧ st'.root = st.root ∧ st'.depth = st.depth ∧ st'.zeroes = st.zeroes ∧
    ∀ k, (st'.store.lookup k).map Node.content = (st.store.lookup k).map Node.content

/-- What the operations see of a tree. -/
def Tree.seen (t : Tree) : Hash × Int × List Hash × SmtStore := (t.root, t.depth, t.zeroes, Store.abs t.store)

/-- The two cannot be told apart. -/
def Tree.Same (t t' : Tree) : Prop := t.seen = t'.seen

theorem Tree.Same.of_store {t t' : Tree} (hroot : t.root = t'.root) (hdepth : t.depth = t'.depth)
    (hzeroes : t.zeroes = t'.zeroes) (hstore : Store.abs t.store = Store.abs t'.store) : t.Same t' := by
  rw [Tree.Same, Tree.seen, hroot, hdepth, hzeroes, hstore]
  rfl

theorem Slice.bytes_clone (s : Slice) : s.clone.bytes = s.bytes := by
  unfold Slice.clone
  split
  · next h => rw [h]; rfl
  · rfl

theorem Node.content_clone (n : Node) : n.clone.content = n.content := by
  simp only [Node.content, Node.clone, Slice.bytes_clone]

/-- What a node stands for is in its content. -/
theorem Node.abs_of_content {n n' : Node} (h : n.content = n'.content) : n.abs = n'.abs := by
  simp only [Node.content, Prod.mk.injEq] at h
  obtain ⟨hl, hr, hh, hleaf, hk, hv⟩ := h
  rw [Node.abs, Node.abs, hl, hr, hh, hleaf, hk, hv]

theorem Store.abs_of_content {s s' : Store}
    (h : ∀ k, (s.lookup k).map Node.content = (s'.lookup k).map Node.content) : Store.abs s = Store.abs s' := by
  funext k
  have hk := h k
  unfold Store.abs
  cases hs : s.lookup k with
  | none =>
    rw [hs, Option.map_none, eq_comm, Option.map_eq_none_iff] at hk
    rw [hk]
  | some n =>
    rw [hs, Option.map_some, eq_comm] at hk
    obtain ⟨n', hn', hcontent⟩ := Option.map_eq_some_iff.1 hk
    rw [hn', Option.map_some, Option.map_some, Node.abs_of_content hcontent]

/-- Cloning the nodes of a store keeps what they hold. -/
theorem content_copyMap_clone {κ : Type} [DecidableEq κ] (store : AList fun _ : κ => Node) (k : κ) :
    ((copyMap id Node.clone store).lookup k).map Node.content = (store.lookup k).map Node.content := by
  have hlookup : (copyMap id Node.clone store).lookup k = (store.lookup k).map Node.clone :=
    lookup_copyMap_of_injective Function.injective_id k
  rw [hlookup, Option.map_map]
  congr 1
  funext n
  exact n.content_clone

/-- **A clone** stands for the same tree. -/
theorem clone_same (t : Tree) : t.clone.Same t :=
  .of_store rfl rfl rfl (Store.abs_of_content (content_copyMap_clone t.store))

theorem storeName_injective : Function.Injective fun k : Hash => hexEncode k.toList :=
  fun _ _ h => List.Vector.toList_injective (hexEncode_inj h)

theorem decodeStoreKey_hexEncode (k : Hash) : decodeStoreKey (hexEncode k.toList) = .ok k := by
  rw [decodeStoreKey, hexDecode_hexEncode]
  exact congrArg _ (Arr.copy_toList k)

/-- The key under a name, where it has one. -/
def keyOf (text : String) : Hash := Arr.copy 32 ((hexDecode text).getD [])

theorem keyOf_hexEncode (k : Hash) : keyOf (hexEncode k.toList) = k := by
  rw [keyOf, hexDecode_hexEncode]
  exact Arr.copy_toList k

theorem lookup_serializable (t : Tree) (k : Hash) :
    t.serializable.store.lookup (hexEncode k.toList) = t.store.lookup k :=
  (lookup_copyMap_of_injective storeName_injective k).trans Option.map_id'

section Named

variable {named : AList fun _ : String => Node} (hnames : ∀ text ∈ named, ∃ k : Hash, text = hexEncode k.toList)
include hnames

theorem injOn_keyOf : Set.InjOn keyOf {text | text ∈ named} := by
  intro a ha b hb heq
  obtain ⟨k, rfl⟩ := hnames a ha
  obtain ⟨k', rfl⟩ := hnames b hb
  rw [keyOf_hexEncode, keyOf_hexEncode] at heq
  rw [heq]

theorem decodeStoreKey_eq : ∀ text ∈ named, decodeStoreKey text = .ok (keyOf text) := by
  intro text htext
  obtain ⟨k, rfl⟩ := hnames text htext
  rw [decodeStoreKey_hexEncode, keyOf_hexEncode]

/-- A store read from names has under a key what the name of the key has. -/
theorem lookup_decoded (k : Hash) : (copyMap keyOf id named).lookup k = named.lookup (hexEncode k.toList) := by
  by_cases hk : hexEncode k.toList ∈ named
  · have hcopy := lookup_copyMap (g := id) (injOn_keyOf hnames) hk
    rwa [keyOf_hexEncode, Option.map_id, id] at hcopy
  · rw [AList.lookup_eq_none.2 hk]
    refine lookup_copyMap_eq_none fun text htext heq => hk ?_
    obtain ⟨k', rfl⟩ := hnames text htext
    rw [keyOf_hexEncode] at heq
    exact heq ▸ htext

end Named

/-- **A decoded tree** stands for the same tree. -/
theorem unmarshal_same {J : Json} {t : Tree} (h : J.RoundTrips t.serializable) :
    ∃ r, unmarshalJSON J (t.marshalJSON J) = .ok r ∧ r.Same t := by
  obtain ⟨st, hst, hroot, hdepth, hzeroes, hstore⟩ := h
  have hnames : ∀ text ∈ st.store, ∃ k : Hash, text = hexEncode k.toList := by
    intro text htext
    by_contra hno
    have hnone : t.serializable.store.lookup text = none :=
      lookup_copyMap_eq_none fun k _ heq => hno ⟨k, heq.symm⟩
    have hmap := hstore text
    rw [hnone, Option.map_none, Option.map_eq_none_iff] at hmap
    exact AList.lookup_eq_none.1 hmap htext
  have hloop := foldlM_eq_copyMap (g := id) (decodeStoreKey_eq hnames)
  simp only [id] at hloop
  refine ⟨⟨st.root, st.depth, copyMap keyOf id st.store, st.zeroes⟩, ?_, .of_store hroot hdepth hzeroes ?_⟩
  · rw [unmarshalJSON, Tree.marshalJSON, hst]
    simp only [hloop]
    rfl
  · refine Store.abs_of_content fun k => ?_
    dsimp only
    rw [lookup_decoded hnames, hstore, lookup_serializable]

/-! ## Operations on related trees -/

variable {X} {s s' : Store}

theorem Node.of_abs_leaf {n : Node} {k v : Bytes} {h : Hash} (habs : n.abs = .leaf k v h) :
    n.leaf = true ∧ n.key.bytes = k ∧ n.value.bytes = v ∧ n.hash = h := by
  unfold Node.abs at habs
  split at habs
  · next hleaf =>
    obtain ⟨hk, hv, hh⟩ := SmtNode.leaf.inj habs
    exact ⟨hleaf, hk, hv, hh⟩
  · cases habs

theorem Node.of_abs_inner {n : Node} {l r h : Hash} (habs : n.abs = .inner l r h) :
    n.leaf = false ∧ n.left = l ∧ n.right = r := by
  unfold Node.abs at habs
  split at habs
  · cases habs
  · next hleaf =>
    obtain ⟨hl, hr, -⟩ := SmtNode.inner.inj habs
    exact ⟨by simpa using hleaf, hl, hr⟩

/-- What one store has under a hash, the other has too. -/
theorem lookup_same (hs : Store.abs s = Store.abs s') (h : Hash) :
    (s.lookup h).map Node.abs = (s'.lookup h).map Node.abs := congrFun hs h

theorem putLeaf_same (hs : Store.abs s = Store.abs s') (key value : Slice) :
    absOut (putLeaf X s key value) = absOut (putLeaf X s' key value) := by rw [putLeaf_abs, putLeaf_abs, hs]

theorem putInner_same (hs : Store.abs s = Store.abs s') (l r : Hash) :
    absOut (putInner X s l r) = absOut (putInner X s' l r) := by rw [putInner_abs, putInner_abs, hs]

theorem absOut_inj {a b : Hash × Store} (h : absOut a = absOut b) : a.1 = b.1 ∧ Store.abs a.2 = Store.abs b.2 :=
  Prod.mk.inj h

theorem splitAndInsert_same (zs : List Hash) {key1 key1' : Slice} (hkey : key1.bytes = key1'.bytes) (h1 : Hash) (key2 : Slice)
    (h2 : Hash) (hs : Store.abs s = Store.abs s') (d : Nat) :
    (splitAndInsert X zs key1 h1 key2 h2 d s).map absOut = (splitAndInsert X zs key1' h1 key2 h2 d s').map absOut := by
  induction d with
  | zero => exact congrArg (fun store => Except.ok (h2, store)) hs
  | succ d ih =>
    unfold splitAndInsert
    rw [hkey]
    dsimp only
    split
    · refine Guard.map_bind_congr ih fun a b hab => ?_
      obtain ⟨hchild, hstore⟩ := absOut_inj hab
      cases zs[d]? with
      | none => rfl
      | some zero =>
        dsimp only
        rw [hchild]
        split
        · exact congrArg Except.ok (putInner_same hstore _ _)
        · exact congrArg Except.ok (putInner_same hstore _ _)
    · split
      · exact congrArg Except.ok (putInner_same hs _ _)
      · exact congrArg Except.ok (putInner_same hs _ _)

/-- **An insertion** into stores that stand for the same nodes: it ends in the same way, at the same hash, and they still do. -/
theorem insertAt_same (zs : List Hash) (key value : Slice) (hs : Store.abs s = Store.abs s') (fuel d : Nat) (current : Hash) :
    (insertAt X zs key value fuel d s current).map absOut = (insertAt X zs key value fuel d s' current).map absOut := by
  induction fuel generalizing d current with
  | zero => rfl
  | succ fuel ih =>
    have hnode := lookup_same hs current
    unfold insertAt
    cases hn : s.lookup current with
    | none =>
      rw [hn, Option.map_none, eq_comm, Option.map_eq_none_iff] at hnode
      rw [hnode]
      exact congrArg Except.ok (putLeaf_same hs key value)
    | some n =>
      rw [hn, Option.map_some, eq_comm] at hnode
      obtain ⟨n', hn', habs⟩ := Option.map_eq_some_iff.1 hnode
      rw [hn']
      dsimp only
      cases hleaf : n.leaf with
      | true =>
        rw [Node.abs_leaf hleaf] at habs
        obtain ⟨hleaf', hkey, hvalue, hhash⟩ := Node.of_abs_leaf habs
        rw [hleaf', hkey, hvalue, hhash, if_pos rfl, if_pos rfl]
        split
        · exact congrArg Except.ok (putLeaf_same hs key value)
        · split
          · exact congrArg (fun store => Except.ok (n.hash, store)) hs
          · obtain ⟨hlh, hstore⟩ := absOut_inj (putLeaf_same (X := X) hs key value)
            rw [hlh]
            exact splitAndInsert_same zs hkey.symm _ _ _ hstore d
      | false =>
        rw [Node.abs_inner hleaf] at habs
        obtain ⟨hleaf', hleft, hright⟩ := Node.of_abs_inner habs
        simp only [hleaf', hleft, hright, Bool.false_eq_true, if_false]
        split
        · refine Guard.map_bind_congr (ih (d - 1) n.right) fun a b hab => ?_
          obtain ⟨hchild, hstore⟩ := absOut_inj hab
          rw [hchild]
          exact congrArg Except.ok (putInner_same hstore _ _)
        · refine Guard.map_bind_congr (ih (d - 1) n.left) fun a b hab => ?_
          obtain ⟨hchild, hstore⟩ := absOut_inj hab
          rw [hchild]
          exact congrArg Except.ok (putInner_same hstore _ _)

section Trees

variable {t t' : Tree}

theorem Tree.Same.inj (h : t.Same t') :
    t.root = t'.root ∧ t.depth = t'.depth ∧ t.zeroes = t'.zeroes ∧ Store.abs t.store = Store.abs t'.store := by
  simpa only [Tree.Same, Tree.seen, Prod.mk.injEq] using h

theorem Tree.Same.abs (h : t.Same t') : t.abs = t'.abs := by
  obtain ⟨hroot, hdepth, -, hstore⟩ := h.inj
  rw [Tree.abs, hroot, hdepth, hstore]
  rfl

theorem Tree.Same.insert (h : t.Same t') (fuel : Nat) (key value : Slice) :
    (t.insert X fuel key value).map Tree.seen = (t'.insert X fuel key value).map Tree.seen := by
  obtain ⟨hroot, hdepth, hzeroes, hstore⟩ := h.inj
  unfold Tree.insert
  rw [hroot, hdepth, hzeroes]
  refine Guard.map_bind_congr (insertAt_same _ key value hstore fuel _ _) fun a b hab => ?_
  obtain ⟨hhash, hstore'⟩ := absOut_inj hab
  exact congrArg Except.ok (Tree.Same.of_store hhash rfl rfl hstore')

/-- **Common insertions** end in the same way, with trees that cannot be told apart. -/
theorem Tree.Same.insertAll (h : t.Same t') (fuel : Nat) (kvs : List (Slice × Slice)) :
    (t.insertAll X fuel kvs).map Tree.seen = (t'.insertAll X fuel kvs).map Tree.seen := by
  induction kvs generalizing t t' with
  | nil => exact congrArg Except.ok h
  | cons kv kvs ih =>
    unfold Tree.insertAll
    rw [List.foldlM_cons, List.foldlM_cons]
    exact Guard.map_bind_congr (h.insert fuel kv.1 kv.2) fun a b hab => ih hab

variable (X) in
/-- The one tree behaves like the other: what a caller obtains from it, now and after further insertions. -/
structure Behaves (t t' : Tree) : Prop where
  root : t.root = t'.root
  get : ∀ key, (t.get key).map Slice.bytes = (t'.get key).map Slice.bytes
  prove : ∀ key, t.prove key = t'.prove key
  insertAll : ∀ fuel kvs, (t.insertAll X fuel kvs).map Tree.root = (t'.insertAll X fuel kvs).map Tree.root

theorem Tree.Same.behaves (h : t.Same t') : Behaves X t t' where
  root := h.inj.1
  get := fun key => by rw [get_abs, get_abs, h.abs]
  prove := fun key => by rw [prove_abs, prove_abs, h.abs]
  insertAll := fun fuel kvs => by
    have hseen : ∀ x : Except Fault Tree, x.map Tree.root = (x.map Tree.seen).map Prod.fst := by
      intro x
      cases x with
      | error err => rfl
      | ok t => rfl
    rw [hseen, hseen, h.insertAll]

/-- **Restored trees behave like the original**: the tree decoded from the encoding of a tree, and its clone. -/
theorem restored_behaves {J : Json} (t : Tree) (hjson : J.RoundTrips t.serializable) :
    (∃ r, unmarshalJSON J (t.marshalJSON J) = .ok r ∧ Behaves X r t) ∧ Behaves X t.clone t := by
  obtain ⟨r, hr, hsame⟩ := unmarshal_same hjson
  exact ⟨⟨r, hr, hsame.behaves⟩, (clone_same t).behaves⟩

end Trees

end Gleipnir.Smt

namespace Gleipnir.Sample

open Smt CopyMap

/-- An encoding from which one tree comes back, its empty slices as nil. -/
def nilling (st : SerializableTree) : Json where
  marshal := fun _ => []
  unmarshal := fun _ => some { st with store := copyMap id Node.clone st.store }

theorem nilling_roundTrips (st : SerializableTree) : (nilling st).RoundTrips st :=
  ⟨_, rfl, rfl, rfl, rfl, content_copyMap_clone st.store⟩

/-- Two insertions into a tree of depth eight, the second with an empty value. -/
def kept : Except Fault Tree := do
  let t ← Tree.new prims 8
  t.insertAll prims 9 [(some [0], some [7]), (some [128], some [])]

/-- The tree has the second value, and its clone has nil in its place. -/
def keptReads : Computed (kept.map fun t => (t.get (some [128]), t.clone.get (some [128]))) fun x =>
    x.toOption = some (some (some []), some none) := computed _ (by decide +kernel)

theorem kept_restored : ∃ t, kept = .ok t ∧ t.get (some [128]) = some (some []) ∧ t.clone.get (some [128]) = some none ∧
    (∃ r, unmarshalJSON (nilling t.serializable) (t.marshalJSON (nilling t.serializable)) = .ok r ∧ Behaves prims r t) ∧
    Behaves prims t.clone t := by
  obtain ⟨x, hx, hreads⟩ := keptReads
  cases hkept : kept with
  | error err =>
    rw [hkept] at hx
    rw [hx] at hreads
    cases hreads
  | ok t =>
    rw [hkept] at hx
    rw [hx] at hreads
    obtain ⟨hget, hclone⟩ := Prod.mk.inj (Option.some.inj hreads)
    exact ⟨t, rfl, hget, hclone, restored_behaves t (nilling_roundTrips _)⟩

end Gleipnir.Sample
