import Gleipnir.Lib.Guard
import Gleipnir.Sample
import Gleipnir.SmtSpec

/-!
# Sub-chains

`consensus/subchain.go`: trees of their own whose roots an engine anchors in its chain. The anchor of a root is an entry whose
hash commits to the sub-chain and the root (`commitment`). A cross-chain proof is a path to an entry below a sub-chain root and
a path to an anchor below a parent root.

* `anchorHash_of_prove`: in the proofs that `Prove` builds, the anchor commits to the sub-chain root.
* `crossChain_sound_iff`: `VerifyCrossChain` does not look at this link, so it is sound for exactly the proofs that have it.
-/

namespace Gleipnir

open Guard

variable (X : Prims)

/-- `chain.SubChainID`. -/
abbrev SubChainID : Type := Hash

/-- `chain.SubChainDescriptor`. -/
structure SubChainDescriptor where
  id : SubChainID
  name : String
  owner : RootID
  genesis : Hash
  createdAt : Int64
  active : Bool

/-- `chain.CrossChainAnchor`. -/
structure CrossChainAnchor where
  subChainID : SubChainID
  stateRoot : Hash
  prevAnchorHash : Hash
  subChainHeight : UInt64
  timestamp : Int64

/-- `chain.CrossChainProof`. -/
structure CrossChainProof where
  entryHash : Hash
  subChainRoot : Hash
  subChainProof : List Hash
  anchorHash : Hash
  anchorBlock : UInt64
  parentRoot : Hash
  parentProof : List Hash

/-- `consensus.subChain`. -/
structure SubChain where
  desc : SubChainDescriptor
  st : SparseMerkleTree
  anchors : List CrossChainAnchor
  pending : List ProvenanceEntry

/-- `consensus.SubChainManager`; the engine it belongs to is passed to what reads it. -/
structure SubChainManager where
  chains : SubChainID → Option SubChain

/-- The errors of the manager. -/
inductive SubChainError where
  | notFound
  | alreadyRegistered
  | keyNotFound
  | noAnchors
  | notCommitted
  deriving DecidableEq

/-- `NewSubChainManager`. -/
def SubChainManager.new : SubChainManager := ⟨fun _ => none⟩

/-- Replace a sub-chain. -/
def SubChainManager.put (m : SubChainManager) (id : SubChainID) (sc : SubChain) : SubChainManager :=
  ⟨Function.update m.chains id (some sc)⟩

theorem SubChainManager.chains_put (m : SubChainManager) (id id' : SubChainID) (sc : SubChain) :
    (m.put id sc).chains id' = if id' = id then some sc else m.chains id' := Function.update_apply ..

/-- `SubChainManager.Register` at the time `now`. -/
def SubChainManager.register (m : SubChainManager) (e : Engine) (name : String) (owner : RootID) (now : Int64) :
    Except SubChainError SubChainID × SubChainManager :=
  let id := X.blake3 (name.toUTF8.toList ++ owner.toList ++ le64 now.toUInt64)
  match m.chains id with
  | some _ => (.error .alreadyRegistered, m)
  | none =>
    let st := SparseMerkleTree.new e.cfg.smtDepth
    (.ok id, m.put id ⟨⟨id, name, owner, st.root, now, true⟩, st, [], []⟩)

/-- `SubChainManager.Descriptor`. -/
def SubChainManager.descriptor (m : SubChainManager) (id : SubChainID) : Except SubChainError SubChainDescriptor :=
  match m.chains id with
  | none => .error .notFound
  | some sc => .ok sc.desc

/-- `SubChainManager.Submit`. -/
def SubChainManager.submit (m : SubChainManager) (id : SubChainID) (entry : ProvenanceEntry) :
    Except SubChainError Unit × SubChainManager :=
  match m.chains id with
  | none => (.error .notFound, m)
  | some sc => (.ok (), m.put id { sc with pending := sc.pending ++ [entry] })

/-- The hash of the entry that anchors a root of a sub-chain. -/
def commitment (id : SubChainID) (root : Hash) : Hash := X.blake3 (id.toList ++ root.toList)

/-- The sub-chain with its pending entries in its tree and a new anchor. -/
def SubChain.anchor (sc : SubChain) (id : SubChainID) (now : Int64) : SubChain :=
  let st := sc.st.insertHashes X sc.pending
  let anch : CrossChainAnchor := {
    subChainID := id
    stateRoot := st.root
    prevAnchorHash := (sc.anchors.getLast?.map (·.stateRoot)).getD (Arr.zero 32)
    subChainHeight := UInt64.ofNat sc.anchors.length
    timestamp := now }
  { sc with st, pending := [], anchors := sc.anchors ++ [anch] }

/-- `SubChainManager.Anchor` at the time `now`. The result is the entry that goes to the `Enqueue` of the engine, whose refusal
is only logged. -/
def SubChainManager.anchor (m : SubChainManager) (id : SubChainID) (now : Int64) :
    Except SubChainError ProvenanceEntry × SubChainManager :=
  match m.chains id with
  | none => (.error .notFound, m)
  | some sc =>
    let sc' := sc.anchor X id now
    (.ok { hash := commitment X id sc'.st.root, submitter := sc.desc.owner, timestamp := now, label := "subchain:anchor" },
      m.put id sc')

/-- `SubChainManager.Prove`, with the engine as it is then. -/
def SubChainManager.prove (m : SubChainManager) (e : Engine) (id : SubChainID) (entryHash : Hash) :
    Except SubChainError CrossChainProof := do
  let some sc := m.chains id | throw .notFound
  let some subProof := sc.st.prove entryHash.toList | throw .keyNotFound
  if sc.anchors.isEmpty then throw .noAnchors
  let anchorHash := commitment X id sc.st.root
  let some parentProof := e.st.prove anchorHash.toList | throw .keyNotFound
  let some ap := e.lookupHash anchorHash | throw .notCommitted
  return ⟨entryHash, sc.st.root, subProof, anchorHash, ap.blockIndex, e.st.root, parentProof⟩

/-- `SubChainManager.Prove`, with the engine as it is when the path, the root and the record are read. -/
def SubChainManager.proveSteps (m : SubChainManager) (atProof atRoot atLookup : Engine) (id : SubChainID) (entryHash : Hash) :
    Except SubChainError CrossChainProof := do
  let some sc := m.chains id | throw .notFound
  let some subProof := sc.st.prove entryHash.toList | throw .keyNotFound
  if sc.anchors.isEmpty then throw .noAnchors
  let anchorHash := commitment X id sc.st.root
  let some parentProof := atProof.proveSMT anchorHash.toList | throw .keyNotFound
  let parentRoot := atRoot.getStateRoot
  let some ap := atLookup.lookupHash anchorHash | throw .notCommitted
  return ⟨entryHash, sc.st.root, subProof, anchorHash, ap.blockIndex, Arr.copy 32 parentRoot, parentProof⟩

/-- A key that is its own value is proved below a root of a tree of depth 256. -/
def provedUnder (root key : Hash) (proof : List Hash) : Bool :=
  (SparseMerkleTree.new 256).verify X key.toList key.toList root proof

/-- `SubChainManager.VerifyCrossChain`: neither the manager nor the fields `AnchorBlock` and `ParentRoot` are read. -/
def verifyCrossChain (proof : CrossChainProof) (parentRoot : Hash) : Bool :=
  if !provedUnder X proof.subChainRoot proof.entryHash proof.subChainProof then false
  else if !provedUnder X parentRoot proof.anchorHash proof.parentProof then false
  else true

variable {X}

variable {proof : CrossChainProof} {m : SubChainManager} {e : Engine} {id : SubChainID} {entryHash : Hash}

theorem verifyCrossChain_iff {parentRoot : Hash} : verifyCrossChain X proof parentRoot = true ↔
    provedUnder X proof.subChainRoot proof.entryHash proof.subChainProof = true ∧
      provedUnder X parentRoot proof.anchorHash proof.parentProof = true := by
  unfold verifyCrossChain
  cases provedUnder X proof.subChainRoot proof.entryHash proof.subChainProof <;>
    cases provedUnder X parentRoot proof.anchorHash proof.parentProof <;> simp

/-- What `Prove` puts together. -/
theorem proveSteps_eq_ok {atProof atRoot atLookup : Engine}
    (h : m.proveSteps X atProof atRoot atLookup id entryHash = .ok proof) :
    ∃ sc, m.chains id = some sc ∧ sc.st.prove entryHash.toList = some proof.subChainProof ∧
      atProof.st.prove (commitment X id sc.st.root).toList = some proof.parentProof ∧
        proof.entryHash = entryHash ∧ proof.subChainRoot = sc.st.root ∧ proof.anchorHash = commitment X id sc.st.root ∧
          proof.parentRoot = atRoot.st.root := by
  unfold SubChainManager.proveSteps at h
  cases hsc : m.chains id with
  | none => simp [hsc] at h
  | some sc =>
    cases hsub : sc.st.prove entryHash.toList with
    | none => simp [hsc, hsub] at h
    | some subProof =>
      cases hparent : atProof.proveSMT (commitment X id sc.st.root).toList with
      | none => simp [hsc, hsub, hparent] at h
      | some parentProof =>
        cases hlookup : atLookup.lookupHash (commitment X id sc.st.root) with
        | none => simp [hsc, hsub, hparent, hlookup] at h
        | some ap =>
          simp only [hsc, hsub, hparent, hlookup, ↓throw_bind, ite_throw_eq_ok, pure_eq_ok] at h
          obtain ⟨-, rfl⟩ := h
          exact ⟨sc, rfl, hsub, hparent, rfl, rfl, rfl, Arr.copy_toList _⟩

/-- Nothing happens between the reads of `prove`. -/
theorem prove_eq_proveSteps (m : SubChainManager) (e : Engine) (id : SubChainID) (entryHash : Hash) :
    m.prove X e id entryHash = m.proveSteps X e e e id entryHash := by
  have hroot : Arr.copy 32 e.getStateRoot = e.st.root := Arr.copy_toList e.st.root
  unfold SubChainManager.prove SubChainManager.proveSteps
  dsimp only
  rw [hroot]
  rfl

/-- When `Prove` succeeds: both trees have a path, and the commitment to the root of the sub-chain is on record. -/
theorem prove_ok_iff :
    (∃ proof, m.prove X e id entryHash = .ok proof) ↔ ∃ sc, m.chains id = some sc ∧
      (∃ p, sc.st.prove entryHash.toList = some p) ∧ sc.anchors ≠ [] ∧
      (∃ p, e.st.prove (commitment X id sc.st.root).toList = some p) ∧ ∃ r, e.lookupHash (commitment X id sc.st.root) = some r := by
  unfold SubChainManager.prove
  cases hsc : m.chains id with
  | none => simp
  | some sc =>
    cases hsub : sc.st.prove entryHash.toList with
    | none => simp [hsub]
    | some subProof =>
      cases hparent : e.st.prove (commitment X id sc.st.root).toList with
      | none => simp [hsub, hparent]
      | some parentProof =>
        cases hlookup : e.lookupHash (commitment X id sc.st.root) with
        | none => simp [hsub, hparent, hlookup]
        | some ap =>
          simp only [hparent, hlookup, ↓throw_bind]
          simp [hsub, hparent, hlookup]

/-! ## What an accepted proof shows -/

variable (X)

/-- Keys and values of 32 bytes as byte strings. -/
def leavesOf (kvs : List (Hash × Hash)) : List (Bytes × Bytes) := kvs.map fun kv => (kv.1.toList, kv.2.toList)

/-- A tree of depth 256 built by insertions of 32 bytes. -/
def treeOf (kvs : List (Hash × Hash)) : SparseMerkleTree := (SparseMerkleTree.new 256).insertAll X (leavesOf kvs)

/-- The root was anchored: the parent tree has a key that commits to it. -/
def AnchoredIn (kvs : List (Hash × Hash)) (root : Hash) : Prop := ∃ id, commitment X id root ∈ kvs.map Prod.fst

/-- With this anchor, no parent tree and no path make the verifier accept a root that was not anchored. -/
def SoundInEveryParent (proof : CrossChainProof) : Prop :=
  ∀ kvs parentProof,
    Collisionless X (treeTexts X 256 (leavesOf kvs) ∪
      proofTexts X 256 proof.anchorHash.toList proof.anchorHash.toList parentProof) →
    verifyCrossChain X { proof with parentProof } (treeOf X kvs).root = true → AnchoredIn X kvs proof.subChainRoot

variable {X}

theorem fills_leavesOf (kvs : List (Hash × Hash)) : Fills 256 (leavesOf kvs) := by
  intro kv hkv
  obtain ⟨⟨k, v⟩, -, rfl⟩ := List.mem_map.1 hkv
  simp [Readable]

/-- A key that is proved below the root of a tree is in the tree. -/
theorem mem_of_provedUnder {kvs : List (Hash × Hash)} {key : Hash} {proof : List Hash}
    (hX : Collisionless X (treeTexts X 256 (leavesOf kvs) ∪ proofTexts X 256 key.toList key.toList proof))
    (h : provedUnder X (treeOf X kvs).root key proof = true) : key ∈ kvs.map Prod.fst := by
  have hfills := fills_leavesOf kvs
  have hrep := represents_insertAll hfills hX Set.subset_union_left
  have hdepth : ((SparseMerkleTree.new 256).insertAll X (leavesOf kvs)).depth = 256 := depth_insertAll _ _
  have hz : HasZeroes X (treeTexts X 256 (leavesOf kvs) ∪ proofTexts X 256 key.toList key.toList proof)
      (treeOf X kvs).depth := by
    rw [treeOf, hdepth]
    exact fun i hi => .inl (.inl ⟨i, hi, rfl⟩)
  have hverify : (treeOf X kvs).verify X key.toList key.toList (treeOf X kvs).root proof = true := by
    rw [SparseMerkleTree.verify, treeOf, hdepth]
    exact h
  have hmaps := hrep.sound hX hz (by simp [Readable]) (by rw [hdepth]; exact Set.subset_union_right) hverify
  obtain ⟨kv, hkv, heq⟩ := List.mem_map.1 ((trieOf_spec hfills).inserted _ _ hmaps)
  have hkey : kv.1 = key := List.Vector.toList_injective (Prod.mk.inj heq).1
  exact List.mem_map.2 ⟨kv, hkv, hkey⟩

/-- The empty path proves the only key of a tree. -/
theorem provedUnder_singleton (key : Hash) : provedUnder X (leafHash X key.toList key.toList) key [] = true := by
  simp [provedUnder, SparseMerkleTree.verify, SparseMerkleTree.new, recompute]

/-- **Cross-chain proofs.** An entry that is proved below a root, together with an anchor, is sound in every parent tree and
for every path exactly if the anchor commits to the root for some sub-chain. -/
theorem crossChain_sound_iff (proof : CrossChainProof)
    (hX : Collisionless X (treeTexts X 256 (leavesOf [(proof.anchorHash, proof.anchorHash)]))) :
    SoundInEveryParent X proof ↔
      (provedUnder X proof.subChainRoot proof.entryHash proof.subChainProof = true →
        ∃ id, proof.anchorHash = commitment X id proof.subChainRoot) := by
  constructor
  · intro hsound hentry
    -- the parent tree that has the anchor and nothing else
    have hcoll := hX.mono (Set.union_subset subset_rfl (proofTexts_nil 256 _ _))
    obtain ⟨id, hid⟩ := hsound [(proof.anchorHash, proof.anchorHash)] [] hcoll
      (verifyCrossChain_iff.2 ⟨hentry, provedUnder_singleton proof.anchorHash⟩)
    exact ⟨id, (List.mem_singleton.1 hid).symm⟩
  · intro hbound kvs parentProof hcoll hverify
    obtain ⟨hentry, hanchor⟩ := verifyCrossChain_iff.1 hverify
    obtain ⟨id, hid⟩ := hbound hentry
    exact ⟨id, hid ▸ mem_of_provedUnder hcoll hanchor⟩

namespace Sample

/-- The sub-chain of the examples, the root of its tree with one entry, and the commitment to it. -/
def subChainID : SubChainID := Arr.copy 32 [9]

def subRoot : Hash := leafHash tagging leftEntry.hash.toList leftEntry.hash.toList

def subCommitment : Hash := commitment tagging subChainID subRoot

/-- An ordinary entry of the parent chain. -/
def plainHash : Hash := Arr.copy 32 [1, 7]

/-- A proof of the entry below that root, with the given anchor and an empty path to it. -/
def crossProof (anchorHash : Hash) : CrossChainProof :=
  ⟨leftEntry.hash, subRoot, [], anchorHash, 0, Arr.zero 32, []⟩

/-- What is hashed for trees with one of these keys. -/
def crossTexts : List Bytes := [subCommitment, plainHash, leftEntry.hash].flatMap fun key => grownTexts (leavesOf [(key, key)])

def crossTextsTagged : Computed crossTexts fun texts => tagged texts = true := computed _ (by decide +kernel)

theorem treeTexts_crossTexts (key : Hash) (h : key ∈ [subCommitment, plainHash, leftEntry.hash]) :
    treeTexts tagging 256 (leavesOf [(key, key)]) ⊆ textsWith crossTexts :=
  treeTexts_subset fun _ hs => List.mem_flatMap.2 ⟨key, h, hs⟩

theorem collisionless_crossTexts : Collisionless tagging (textsWith crossTexts) := by
  obtain ⟨texts, rfl, htagged⟩ := crossTextsTagged
  exact collisionless_tagged htagged

/-- With the commitment as its anchor, the proof is accepted by the tree that has it, and sound everywhere. -/
theorem committed_anchor_sound :
    verifyCrossChain tagging (crossProof subCommitment) (treeOf tagging [(subCommitment, subCommitment)]).root = true ∧
    SoundInEveryParent tagging (crossProof subCommitment) := by
  refine ⟨verifyCrossChain_iff.2 ⟨provedUnder_singleton _, provedUnder_singleton _⟩, (crossChain_sound_iff _ ?_).2 ?_⟩
  · exact collisionless_crossTexts.mono (treeTexts_crossTexts _ List.mem_cons_self)
  · exact fun _ => ⟨subChainID, rfl⟩

/-- Commitments are hashes of 64 bytes. -/
theorem commitment_ne_plainHash (id : SubChainID) (root : Hash) : commitment tagging id root ≠ plainHash := by
  intro heq
  have hlen : (id.toList ++ root.toList).length = 64 := by simp
  change tagHash _ = _ at heq
  rw [tagHash, if_pos hlen] at heq
  have hbyte := congrArg (fun a : Hash => a.toList[1]?) heq
  split at hbyte <;> simp [Arr.copy, plainHash] at hbyte

/-- The parent tree has one ordinary entry. A proof that names it as the anchor of a root of its own is accepted, though
nothing was anchored. There are no collisions in either tree and on either path. -/
theorem unanchored_root_accepted :
    Collisionless tagging (treeTexts tagging 256 (leavesOf [(plainHash, plainHash)]) ∪
      proofTexts tagging 256 plainHash.toList plainHash.toList (crossProof plainHash).parentProof ∪
      (treeTexts tagging 256 (leavesOf [(leftEntry.hash, leftEntry.hash)]) ∪
        proofTexts tagging 256 leftEntry.hash.toList leftEntry.hash.toList (crossProof plainHash).subChainProof)) ∧
    (crossProof plainHash).subChainRoot ≠ (treeOf tagging [(plainHash, plainHash)]).root ∧
    verifyCrossChain tagging (crossProof plainHash) (treeOf tagging [(plainHash, plainHash)]).root = true ∧
      ¬ AnchoredIn tagging [(plainHash, plainHash)] (crossProof plainHash).subChainRoot := by
  have hparent := treeTexts_crossTexts plainHash (by simp)
  have hsub := treeTexts_crossTexts leftEntry.hash (by simp)
  refine ⟨collisionless_crossTexts.mono (Set.union_subset (Set.union_subset hparent ((proofTexts_nil 256 _ _).trans hparent))
    (Set.union_subset hsub ((proofTexts_nil 256 _ _).trans hsub))), ?_, ?_, ?_⟩
  · decide +kernel
  · exact verifyCrossChain_iff.2 ⟨provedUnder_singleton _, provedUnder_singleton _⟩
  · rintro ⟨id, hid⟩
    exact commitment_ne_plainHash id _ (List.mem_singleton.1 hid)

end Sample

end Gleipnir
