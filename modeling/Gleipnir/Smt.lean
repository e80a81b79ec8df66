import Gleipnir.Identity
import Mathlib.Logic.Function.Basic

/-!
# The sparse Merkle tree

`smt/smt.go`. A tree is a root and a content-addressed store of nodes; `insert` is the only operation that changes it.
Depths are shifted by one: the argument `d` below is the `depth + 1` of the source, so that the source's test
`depth < 0` is the case `0`, and the recursions are structural.
-/

namespace Gleipnir

variable (X : Prims)

/-- `smt.node`. -/
inductive SmtNode where
  | leaf (key value : Bytes) (hash : Hash)
  | inner (left right hash : Hash)
  deriving DecidableEq

/-- `SparseMerkleTree.store`. -/
abbrev SmtStore : Type := Hash → Option SmtNode

/-- `smt.SparseMerkleTree`; its table `zeroes` is the function `zeroes`. -/
structure SparseMerkleTree where
  root : Hash
  depth : Nat
  store : SmtStore

def parentHash (left right : Hash) : Hash := X.blake3 (left.toList ++ right.toList)

/-- `leafHash`: both fields are preceded by their length. -/
def leafHash (key value : Bytes) : Hash :=
  X.blake3 ("leaf".toUTF8.toList ++ be64 (UInt64.ofNat key.length) ++ key ++
    be64 (UInt64.ofNat value.length) ++ value)

/-- The table `New` fills in. -/
def zeroes : Nat → Hash
  | 0 => Arr.zero 32
  | i + 1 => parentHash X (zeroes i) (zeroes i)

/-- `smt.New`. -/
def SparseMerkleTree.new (depth : Nat) : SparseMerkleTree := ⟨Arr.zero 32, depth, fun _ => none⟩

/-- `path(key, depth)` for `depth = d ≥ 0`: the bit of the key that picks the child; a short key reads as zero. -/
def path (key : Bytes) (d : Nat) : Bool :=
  match key[d / 8]? with
  | none => false
  | some b => b.toNat.testBit (d % 8)

/-- Stores a leaf and returns its hash. -/
def putLeaf (store : SmtStore) (key value : Bytes) : Hash × SmtStore :=
  let lh := leafHash X key value
  (lh, Function.update store lh (some (.leaf key value lh)))

/-- Stores an interior node and returns its hash. -/
def putInner (store : SmtStore) (left right : Hash) : Hash × SmtStore :=
  let h := parentHash X left right
  (h, Function.update store h (some (.inner left right h)))

/-- `splitAndInsert`: two different keys below one node, down to the first level that tells them apart. -/
def splitAndInsert (key1 : Bytes) (h1 : Hash) (key2 : Bytes) (h2 : Hash) : Nat → SmtStore → Hash × SmtStore
  | 0, store => (h2, store)
  | d + 1, store =>
    let b1 := path key1 d
    if b1 = path key2 d then
      let (child, store) := splitAndInsert key1 h1 key2 h2 d store
      let zero := zeroes X d
      if b1 then putInner X store zero child else putInner X store child zero
    else if b1 then putInner X store h2 h1
    else putInner X store h1 h2

/-- `insertAt`. -/
def insertAt (key value : Bytes) : Nat → SmtStore → Hash → Hash × SmtStore
  | d, store, current =>
    match store current with
    | none => putLeaf X store key value
    | some (.leaf k v h) =>
      if k = key then putLeaf X store key value
      else match d with
        | 0 => (h, store)
        | d + 1 =>
          let (newLH, store) := putLeaf X store key value
          splitAndInsert X k (leafHash X k v) key newLH (d + 1) store
    | some (.inner left right _) =>
      match d with
      -- the children of an interior node are one level further down, so none stands below the last level
      | 0 => (current, store)
      | d + 1 =>
        if path key d then
          let (newRight, store) := insertAt key value d store right
          putInner X store left newRight
        else
          let (newLeft, store) := insertAt key value d store left
          putInner X store newLeft right

/-- `SparseMerkleTree.Insert`. -/
def SparseMerkleTree.insert (t : SparseMerkleTree) (key value : Bytes) : SparseMerkleTree :=
  let (root, store) := insertAt X key value t.depth t.store t.root
  { t with root, store }

/-- The loop of `SparseMerkleTree.Get` from a node. It ends with the last level: the node that it has reached there is not
looked up. -/
def getAt (store : SmtStore) (key : Bytes) : Nat → Hash → Option Bytes
  | 0, _ => none
  | d + 1, current =>
    match store current with
    | none => none
    | some (.leaf k v _) => if k = key then some v else none
    | some (.inner left right _) => if path key d then getAt store key d right else getAt store key d left

/-- `SparseMerkleTree.Get`. -/
def SparseMerkleTree.get (t : SparseMerkleTree) (key : Bytes) : Option Bytes := getAt t.store key t.depth t.root

/-- The loop of `SparseMerkleTree.Prove` from a node, siblings nearest to the leaf first. -/
def proveAt (store : SmtStore) (key : Bytes) : Nat → Hash → List Hash → Option (List Hash)
  | d, current, proof =>
    match store current with
    | none => none
    | some (.leaf k _ _) => if k = key then some proof else none
    | some (.inner left right _) =>
      match d with
      | 0 => none
      | d + 1 => if path key d then proveAt store key d right (left :: proof) else proveAt store key d left (right :: proof)

/-- `SparseMerkleTree.Prove`. -/
def SparseMerkleTree.prove (t : SparseMerkleTree) (key : Bytes) : Option (List Hash) :=
  proveAt t.store key t.depth t.root []

/-- The loop of `SparseMerkleTree.Verify` over the siblings that are left, in a tree of the given depth. -/
def recompute (depth : Nat) (key : Bytes) : List Hash → Hash → Hash
  | [], current => current
  | sibling :: rest, current =>
    recompute depth key rest
      (if path key (depth - (rest.length + 1)) then parentHash X sibling current else parentHash X current sibling)

/-- `SparseMerkleTree.Verify`: it reads nothing of the tree but its depth. -/
def SparseMerkleTree.verify (t : SparseMerkleTree) (key value : Bytes) (root : Hash) (proof : List Hash) : Bool :=
  if t.depth < proof.length then false else recompute X t.depth key proof (leafHash X key value) == root

/-- `SparseMerkleTree.BulkInsert`, with the entries of its map in the order in which the `range` lists them. -/
def SparseMerkleTree.bulkInsert (t : SparseMerkleTree) (entries : List (Bytes × Bytes)) : SparseMerkleTree :=
  entries.foldl (fun t kv => t.insert X kv.1 kv.2) t

/-- Insert every hash as its own value: the loop of both roles of PREPARE over a block's entries. -/
def SparseMerkleTree.insertHashes (t : SparseMerkleTree) (entries : List ProvenanceEntry) : SparseMerkleTree :=
  entries.foldl (fun t pe => t.insert X pe.hash.toList pe.hash.toList) t

end Gleipnir
