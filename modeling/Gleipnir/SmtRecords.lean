import Gleipnir.Lib.Guard
import Gleipnir.SmtSpec

/-!
# The tree as it lies in memory

`smt/smt.go` once more, with the records of the source: a node has all its fields, a byte slice may be nil, the store is a
finite map and the table of empty subtrees is read from the tree. A recursion that has run out of `fuel`, or an index past the
table, is a `Fault`. What the operations compute depends on the `abs` of the records alone, which is a tree of `Smt`:
`get_abs`, `prove_abs`, and for insertions `runs_build`.
-/

namespace Gleipnir.Smt

open MerkleTrie (Trie Scheme)

variable (X : Prims)

/-! ## Records -/

/-- A byte slice; `none` is nil. -/
abbrev Slice : Type := Option Bytes

/-- What `len`, `range`, `bytes.Equal` and a hash see of a slice. -/
def Slice.bytes (s : Slice) : Bytes := s.getD []

/-- `smt.node`. -/
structure Node where
  left : Hash
  right : Hash
  hash : Hash
  leaf : Bool
  key : Slice
  value : Slice
  deriving DecidableEq

/-- `SparseMerkleTree.store`. -/
abbrev Store : Type := AList fun _ : Hash => Node

/-- `smt.SparseMerkleTree`. -/
structure Tree where
  root : Hash
  depth : Int
  store : Store
  zeroes : List Hash

/-- How a call can end without a result. -/
inductive Fault where
  | indexOutOfRange
  | outOfFuel
  deriving DecidableEq

/-- The table that `New` allocates, with `depth + 1` places, and fills but for the last place. -/
def zeroTable (depth : Int) : List Hash :=
  (List.range depth.toNat).map (zeroes X) ++ List.replicate ((depth + 1).toNat - depth.toNat) (Arr.zero 32)

/-- `smt.New`; a table of negative length cannot be made. -/
def Tree.new (depth : Int) : Except Fault Tree :=
  if depth + 1 < 0 then throw .indexOutOfRange else return ⟨Arr.zero 32, depth, ∅, zeroTable X depth⟩

/-! ## Operations

As in `Smt`, the level `d` is the `depth + 1` of the source, and a negative depth is the level `0`. -/

/-- Stores a leaf and returns its hash. -/
def putLeaf (store : Store) (key value : Slice) : Hash × Store :=
  let lh := leafHash X key.bytes value.bytes
  (lh, store.insert lh ⟨Arr.zero 32, Arr.zero 32, lh, true, key, value⟩)

/-- Stores an interior node and returns its hash. -/
def putInner (store : Store) (left right : Hash) : Hash × Store :=
  let h := parentHash X left right
  (h, store.insert h ⟨left, right, h, false, none, none⟩)

/-- `splitAndInsert`. -/
def splitAndInsert (zs : List Hash) (key1 : Slice) (h1 : Hash) (key2 : Slice) (h2 : Hash) :
    Nat → Store → Except Fault (Hash × Store)
  | 0, store => return (h2, store)
  | d + 1, store =>
    let b1 := path key1.bytes d
    if b1 = path key2.bytes d then do
      let (child, store) ← splitAndInsert zs key1 h1 key2 h2 d store
      match zs[d]? with
      | none => throw .indexOutOfRange
      | some zero => return if b1 then putInner X store zero child else putInner X store child zero
    else return if b1 then putInner X store h2 h1 else putInner X store h1 h2

/-- `insertAt`. Below the last level the search goes on to the left, for as long as there are interior nodes. -/
def insertAt (zs : List Hash) (key value : Slice) : Nat → Nat → Store → Hash → Except Fault (Hash × Store)
  | 0, _, _, _ => throw .outOfFuel
  | fuel + 1, d, store, current =>
    match store.lookup current with
    | none => return putLeaf X store key value
    | some n =>
      if n.leaf then
        if n.key.bytes = key.bytes then return putLeaf X store key value
        else if d = 0 then return (n.hash, store)
        else
          let (newLH, store) := putLeaf X store key value
          splitAndInsert X zs n.key (leafHash X n.key.bytes n.value.bytes) key newLH d store
      else if d ≠ 0 ∧ path key.bytes (d - 1) then do
        let (newRight, store) ← insertAt zs key value fuel (d - 1) store n.right
        return putInner X store n.left newRight
      else do
        let (newLeft, store) ← insertAt zs key value fuel (d - 1) store n.left
        return putInner X store newLeft n.right

/-- `SparseMerkleTree.Insert`. -/
def Tree.insert (fuel : Nat) (t : Tree) (key value : Slice) : Except Fault Tree := do
  let (root, store) ← insertAt X t.zeroes key value fuel t.depth.toNat t.store t.root
  return { t with root, store }

/-- Insertions one after the other. -/
def Tree.insertAll (fuel : Nat) (t : Tree) (kvs : List (Slice × Slice)) : Except Fault Tree :=
  kvs.foldlM (fun t kv => t.insert X fuel kv.1 kv.2) t

/-- The loop of `SparseMerkleTree.Get` from a node. -/
def getAt (store : Store) (key : Slice) : Nat → Hash → Option Slice
  | 0, _ => none
  | d + 1, current =>
    match store.lookup current with
    | none => none
    | some n =>
      if n.leaf then if n.key.bytes = key.bytes then some n.value else none
      else if path key.bytes d then getAt store key d n.right
      else getAt store key d n.left

/-- `SparseMerkleTree.Get`; `none` is `ErrNotFound`. -/
def Tree.get (t : Tree) (key : Slice) : Option Slice := getAt t.store key t.depth.toNat t.root

/-- The loop of `SparseMerkleTree.Prove` from a node, and the look at the node it ends with. -/
def proveAt (store : Store) (key : Slice) : Nat → Hash → List Hash → Option (List Hash)
  | 0, current, proof =>
    match store.lookup current with
    | none => none
    | some n => if !n.leaf ∨ n.key.bytes ≠ key.bytes then none else some proof
  | d + 1, current, proof =>
    match store.lookup current with
    | none => none
    | some n =>
      if n.leaf then if n.key.bytes ≠ key.bytes then none else some proof
      else if path key.bytes d then proveAt store key d n.right (n.left :: proof)
      else proveAt store key d n.left (n.right :: proof)

/-- `SparseMerkleTree.Prove`; `none` is `ErrNotFound`. -/
def Tree.prove (t : Tree) (key : Slice) : Option (List Hash) := proveAt t.store key t.depth.toNat t.root []

/-! ## What the records stand for -/

/-- The fields that are read of a node. -/
def Node.abs (n : Node) : SmtNode :=
  if n.leaf then .leaf n.key.bytes n.value.bytes n.hash else .inner n.left n.right n.hash

def Store.abs (store : Store) : SmtStore := fun h => (store.lookup h).map Node.abs

def Tree.abs (t : Tree) : SparseMerkleTree := ⟨t.root, t.depth.toNat, Store.abs t.store⟩

variable {X} {store : Store} {h : Hash}

theorem Node.abs_leaf {n : Node} (hn : n.leaf = true) : n.abs = .leaf n.key.bytes n.value.bytes n.hash := if_pos hn

theorem Node.abs_inner {n : Node} (hn : n.leaf = false) : n.abs = .inner n.left n.right n.hash := if_neg (by simp [hn])

theorem Store.abs_none (hs : store.lookup h = none) : Store.abs store h = none := by rw [Store.abs, hs, Option.map_none]

theorem Store.abs_leaf {n : Node} (hs : store.lookup h = some n) (hn : n.leaf = true) :
    Store.abs store h = some (.leaf n.key.bytes n.value.bytes n.hash) := by
  rw [Store.abs, hs, Option.map_some, Node.abs_leaf hn]

theorem Store.abs_inner {n : Node} (hs : store.lookup h = some n) (hn : n.leaf = false) :
    Store.abs store h = some (.inner n.left n.right n.hash) := by
  rw [Store.abs, hs, Option.map_some, Node.abs_inner hn]

theorem Store.abs_insert (store : Store) (h : Hash) (n : Node) :
    Store.abs (store.insert h n) = Function.update (Store.abs store) h (some n.abs) := by
  funext h'
  by_cases heq : h' = h
  · subst heq
    rw [Function.update_self, Store.abs, AList.lookup_insert, Option.map_some]
  · rw [Function.update_of_ne heq, Store.abs, AList.lookup_insert_ne heq, Store.abs]

/-- A hash and the store it points into. -/
def absOut (out : Hash × Store) : Hash × SmtStore := (out.1, Store.abs out.2)

theorem putLeaf_abs (store : Store) (key value : Slice) :
    absOut (putLeaf X store key value) = Gleipnir.putLeaf X (Store.abs store) key.bytes value.bytes := by
  rw [absOut, putLeaf, Store.abs_insert]
  rfl

theorem putInner_abs (store : Store) (left right : Hash) :
    absOut (putInner X store left right) = Gleipnir.putInner X (Store.abs store) left right := by
  rw [absOut, putInner, Store.abs_insert]
  rfl

/-! ## Reading -/

theorem getAt_abs (key : Slice) (d : Nat) (current : Hash) :
    (getAt store key d current).map Slice.bytes = Gleipnir.getAt (Store.abs store) key.bytes d current := by
  induction d generalizing current with
  | zero => rfl
  | succ d ih =>
    unfold getAt Gleipnir.getAt
    cases hs : store.lookup current with
    | none => simp [Store.abs_none hs]
    | some n =>
      cases hn : n.leaf with
      | true =>
        simp only [Store.abs_leaf hs hn, if_true, hn]
        split <;> rfl
      | false =>
        simp only [Store.abs_inner hs hn, hn, Bool.false_eq_true, if_false]
        split
        · exact ih n.right
        · exact ih n.left

/-- `Get` gives the value of the tree that the records stand for. -/
theorem get_abs (t : Tree) (key : Slice) : (t.get key).map Slice.bytes = t.abs.get key.bytes := getAt_abs key _ _

theorem proveAt_abs (key : Slice) (d : Nat) (current : Hash) (proof : List Hash) :
    proveAt store key d current proof = Gleipnir.proveAt (Store.abs store) key.bytes d current proof := by
  induction d generalizing current proof with
  | zero =>
    unfold proveAt Gleipnir.proveAt
    cases hs : store.lookup current with
    | none => simp [Store.abs_none hs]
    | some n =>
      cases hn : n.leaf with
      | true => simp [Store.abs_leaf hs hn, hn]
      | false => simp [Store.abs_inner hs hn, hn]
  | succ d ih =>
    unfold proveAt Gleipnir.proveAt
    cases hs : store.lookup current with
    | none => simp [Store.abs_none hs]
    | some n =>
      cases hn : n.leaf with
      | true => simp [Store.abs_leaf hs hn, hn]
      | false =>
        simp only [Store.abs_inner hs hn, hn, Bool.false_eq_true, if_false]
        split
        · exact ih n.right _
        · exact ih n.left _

theorem prove_abs (t : Tree) (key : Slice) : t.prove key = t.abs.prove key.bytes := proveAt_abs key _ _ _

/-! ## Insertion -/

/-- The table holds the hashes of the empty subtrees below a level. -/
def HasTable (X : Prims) (zs : List Hash) (d : Nat) : Prop := ∀ i < d, zs[i]? = some (zeroes X i)

theorem hasTable_zeroTable (X : Prims) (depth : Int) : HasTable X (zeroTable X depth) depth.toNat := by
  intro i hi
  rw [zeroTable, List.getElem?_append_left (by simpa using hi), List.getElem?_map, List.getElem?_range hi, Option.map_some]

/-- No interior node is met below the last level. -/
def Shallow (store : SmtStore) : Nat → Hash → Prop
  | 0, current => ∀ l r h, store current ≠ some (.inner l r h)
  | d + 1, current => ∀ l r h, store current = some (.inner l r h) → Shallow store d l ∧ Shallow store d r

section Table

variable {zs : List Hash}

theorem splitAndInsert_abs {d : Nat} (hz : HasTable X zs d) (key1 : Slice) (h1 : Hash) (key2 : Slice) (h2 : Hash) :
    (splitAndInsert X zs key1 h1 key2 h2 d store).map absOut =
      .ok (Gleipnir.splitAndInsert X key1.bytes h1 key2.bytes h2 d (Store.abs store)) := by
  induction d with
  | zero => rfl
  | succ d ih =>
    obtain ⟨out, hout, hchild⟩ := Guard.map_eq_ok.1 (ih fun i hi => hz i (by omega))
    unfold splitAndInsert Gleipnir.splitAndInsert
    rw [hout, hz d (by omega), ← hchild]
    dsimp only [absOut]
    split
    · split
      · exact congrArg _ (putInner_abs out.2 _ _)
      · exact congrArg _ (putInner_abs out.2 _ _)
    · split
      · exact congrArg _ (putInner_abs store _ _)
      · exact congrArg _ (putInner_abs store _ _)

/-- With fuel for all its levels an insertion is that of the abstract tree. -/
theorem insertAt_abs {fuel d : Nat} {current : Hash} (key value : Slice) (hfuel : d < fuel) (hz : HasTable X zs d)
    (hshallow : Shallow (Store.abs store) d current) :
    (insertAt X zs key value fuel d store current).map absOut =
      .ok (Gleipnir.insertAt X key.bytes value.bytes d (Store.abs store) current) := by
  induction fuel generalizing d current with
  | zero => omega
  | succ fuel ih =>
    unfold insertAt Gleipnir.insertAt
    cases hs : store.lookup current with
    | none =>
      simp only [Store.abs_none hs]
      exact congrArg _ (putLeaf_abs store key value)
    | some n =>
      cases hn : n.leaf with
      | true =>
        simp only [Store.abs_leaf hs hn, hn, if_true]
        split
        · exact congrArg _ (putLeaf_abs store key value)
        · cases d with
          | zero => rfl
          | succ d =>
            rw [if_neg (Nat.succ_ne_zero d)]
            have hput := putLeaf_abs (X := X) store key value
            simp only [← hput]
            exact splitAndInsert_abs hz _ _ _ _
      | false =>
        have habs := Store.abs_inner hs hn
        simp only [habs, hn, Bool.false_eq_true, if_false]
        cases d with
        | zero => exact absurd habs (hshallow _ _ _)
        | succ d =>
          have hbelow := hshallow _ _ _ habs
          have hz' : HasTable X zs d := fun i hi => hz i (by omega)
          simp only [Nat.add_sub_cancel]
          by_cases hp : path key.bytes d
          · obtain ⟨out, hout, hright⟩ := Guard.map_eq_ok.1 (ih (by omega) hz' hbelow.2)
            rw [if_pos ⟨Nat.succ_ne_zero d, hp⟩, if_pos hp, hout, ← hright]
            exact congrArg _ (putInner_abs out.2 _ _)
          · obtain ⟨out, hout, hleft⟩ := Guard.map_eq_ok.1 (ih (by omega) hz' hbelow.1)
            rw [if_neg fun h => hp h.2, if_neg hp, hout, ← hleft]
            exact congrArg _ (putInner_abs out.2 _ _)

end Table

/-- The digest of a trie leads to no interior node below the last level. -/
theorem shallow_digest {store : SmtStore} {d : Nat} {T : Trie Bytes Bytes} (hplaced : (smtScheme X).Placed d T)
    (hholds : (smtScheme X).Holds (plainStore store) d T) : Shallow store d ((smtScheme X).digest d T) := by
  cases T with
  | empty =>
    have hnone : store ((smtScheme X).digest d .empty) = none := plainStore_eq_none hholds
    cases d with
    | zero => simp [Shallow, hnone]
    | succ d => simp [Shallow, hnone]
  | leaf k v =>
    obtain ⟨h', hleaf⟩ : ∃ h', store ((smtScheme X).digest d (.leaf k v)) = some (.leaf k v h') := plainStore_eq_leaf hholds
    cases d with
    | zero => simp [Shallow, hleaf]
    | succ d => simp [Shallow, hleaf]
  | node a b =>
    cases d with
    | zero => exact hplaced.elim
    | succ d =>
      obtain ⟨h', hinner⟩ : ∃ h', store ((smtScheme X).digest (d + 1) (.node a b)) =
        some (.inner ((smtScheme X).digest d a) ((smtScheme X).digest d b) h') := plainStore_eq_inner hholds.1
      obtain ⟨-, -, -, hpa, hpb⟩ := hplaced
      intro l r h hs
      rw [hinner] at hs
      cases hs
      exact ⟨shallow_digest hpa hholds.2.1, shallow_digest hpb hholds.2.2⟩

section Runs

variable {N : Set (MerkleTrie.Node Bytes Bytes Hash)} {t : Tree} {T : Trie Bytes Bytes} {fuel : Nat}

/-- **An insertion into a tree that stands for a trie** returns, with the tree of the abstract insertion. -/
theorem runs_insert (h : StandsFor X N t.abs T) (hfree : (smtScheme X).CollisionFree (t.abs.depth - 1) N)
    (hz : HasTable X t.zeroes t.depth.toNat) (hfuel : t.depth.toNat < fuel) (key value : Slice) :
    ∃ t', t.insert X fuel key value = .ok t' ∧ t'.abs = t.abs.insert X key.bytes value.bytes ∧ t'.depth = t.depth ∧
      t'.zeroes = t.zeroes := by
  have hshallow : Shallow (Store.abs t.store) t.depth.toNat t.root := by
    rcases h.root with ⟨hempty, -⟩ | ⟨-, hroot, hholds⟩
    · have hnone : Store.abs t.store t.root = none := h.vacant hfree hempty
      cases hd : t.depth.toNat with
      | zero => simp [Shallow, hnone]
      | succ d => simp [Shallow, hnone]
    · have hroot : t.root = (smtScheme X).digest t.depth.toNat T := hroot
      rw [hroot]
      exact shallow_digest h.placed hholds
  obtain ⟨out, hout, habs⟩ := Guard.map_eq_ok.1 (insertAt_abs key value hfuel hz hshallow)
  refine ⟨{ t with root := out.1, store := out.2 }, ?_, ?_, rfl, rfl⟩
  · rw [Tree.insert, hout]
    rfl
  · unfold SparseMerkleTree.insert
    dsimp only [Tree.abs]
    rw [← habs]
    rfl

/-- What is inserted, as the abstract tree sees it. -/
def plainPairs (kvs : List (Slice × Slice)) : List (Bytes × Bytes) := kvs.map fun kv => (kv.1.bytes, kv.2.bytes)

/-- **Insertions one after the other** return, with the tree of the abstract insertions. -/
theorem runs_insertAll {more : List (Slice × Slice)} (hfuel : t.depth.toNat < fuel) {kvs : List (Bytes × Bytes)}
    (h : StandsFor X N t.abs (trieOf X t.abs.depth kvs)) (hfree : (smtScheme X).CollisionFree (t.abs.depth - 1) N)
    (hz : HasTable X t.zeroes t.depth.toNat) (hs : Spread t.abs.depth (kvs ++ plainPairs more))
    (hnodes : treeNodes X t.abs.depth (kvs ++ plainPairs more) ⊆ N) :
    ∃ t', t.insertAll X fuel more = .ok t' ∧ t'.abs = t.abs.insertAll X (plainPairs more) := by
  induction more generalizing t kvs with
  | nil => exact ⟨t, rfl, rfl⟩
  | cons kv more ih =>
    obtain ⟨t₁, hinsert, habs, hdepth, hzeroes⟩ := runs_insert h hfree hz hfuel kv.1 kv.2
    have hlevel : t₁.abs.depth = t.abs.depth := congrArg Int.toNat hdepth
    have hsplit : kvs ++ plainPairs (kv :: more) = kvs ++ [(kv.1.bytes, kv.2.bytes)] ++ plainPairs more := by
      simp [plainPairs]
    rw [hsplit] at hs hnodes
    have hstep : StandsFor X N t₁.abs (trieOf X t.abs.depth (kvs ++ [(kv.1.bytes, kv.2.bytes)])) := by
      rw [habs]
      refine h.insertAll hfree (hs.mono (List.subset_append_left _ _)) fun n hn => hnodes ?_
      rcases hn with hzero | ⟨kvs', hp, hn⟩
      · exact .inl hzero
      · exact .inr ⟨kvs', hp.trans (List.prefix_append _ _), hn⟩
    rw [← hlevel] at hstep hfree hs hnodes
    obtain ⟨t', hrun, habs'⟩ := ih (hdepth ▸ hfuel) hstep hfree (hzeroes ▸ hdepth ▸ hz) hs hnodes
    refine ⟨t', ?_, ?_⟩
    · rw [Tree.insertAll, List.foldlM_cons, hinsert]
      exact hrun
    · rw [habs', habs]
      rfl

/-- **A tree built by insertions**, in the records, is the abstract tree of the insertions. -/
theorem runs_build {depth : Int} (hdepth : 0 ≤ depth + 1) {kvs : List (Slice × Slice)} (hfuel : depth.toNat < fuel)
    (hfree : (smtScheme X).CollisionFree (depth.toNat - 1) N) (hs : Spread depth.toNat (plainPairs kvs))
    (hnodes : treeNodes X depth.toNat (plainPairs kvs) ⊆ N) :
    ∃ t', (Tree.new X depth >>= fun t => t.insertAll X fuel kvs) = .ok t' ∧
      t'.abs = (SparseMerkleTree.new depth.toNat).insertAll X (plainPairs kvs) := by
  let t₀ : Tree := ⟨Arr.zero 32, depth, ∅, zeroTable X depth⟩
  have hnew : Tree.new X depth = .ok t₀ := if_neg (not_lt.2 hdepth)
  have habs : t₀.abs = .new depth.toNat := rfl
  have hstands : StandsFor X N t₀.abs (trieOf X t₀.abs.depth []) := standsFor_new depth.toNat
  rw [hnew, ← habs]
  exact runs_insertAll hfuel hstands hfree (hasTable_zeroTable X depth) hs hnodes

end Runs

end Gleipnir.Smt
