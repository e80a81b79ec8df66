import Gleipnir.Consensus.Alone
import Gleipnir.LightClient.Verify
import Gleipnir.Sample

/-!
# Inclusion of an entry in a block

`VerifyAnchored` of `lightclient/service.go` checks a Merkle proof against the state root that a block names. The root is that
of the tree of everything anchored up to the block, so an accepted proof shows that the key was anchored there
(`anchored_of_verifyAnchored`): whatever the siblings are, they lead to a leaf of that tree.
-/

namespace Gleipnir

open Atomic

variable (X : Prims)

/-- `Engine.VerifySMT`: it reads the depth of the tree. -/
def Engine.verifySMT (e : Engine) (key value : Bytes) (root : Hash) (proof : List Hash) : Bool :=
  e.st.verify X key value root proof

namespace LightClient

/-- The sentinels that the errors of `VerifyAnchored` wrap. -/
inductive AnchoredError where
  | blockNotFound
  | blockHashMismatch
  | entryNotAnchored
  deriving DecidableEq

/-- `stateRootOf`. -/
def stateRootOf (block : Block) : Except AnchoredError Hash :=
  if block.stateRoot.length ≠ 32 then .error .blockHashMismatch else .ok (Arr.copy 32 block.stateRoot)

/-- `VerifyAnchored` with an engine as the prover; `none` is the nil block. -/
def verifyAnchored (prover : Engine) (block : Option Block) (key : Hash) (proof : List Hash) : Except AnchoredError Unit :=
  match block with
  | none => .error .blockNotFound
  | some block =>
    match stateRootOf block with
    | .error err => .error err
    | .ok root =>
      if prover.verifySMT X key.toList key.toList root proof then .ok () else .error .entryNotAnchored

variable {X}

/-- A proof that is accepted leads to the root of the block. -/
theorem verifyAnchored_ok {prover : Engine} {block : Block} {key root : Hash} {proof : List Hash}
    (hroot : block.stateRoot = root.toList) (h : verifyAnchored X prover (some block) key proof = .ok ()) :
    prover.st.verify X key.toList key.toList root proof = true := by
  have hlen : ¬ root.toList.length ≠ 32 := by simp
  unfold verifyAnchored stateRootOf at h
  simp only [hroot, if_neg hlen, Arr.copy_toList] at h
  split at h
  · next hverify => exact hverify
  · cases h

/-- **Soundness of `VerifyAnchored`.** On the chain of a single node, a key for which any list of siblings is accepted at a
block is the hash of an entry of that block or of an earlier one. -/
theorem anchored_of_verifyAnchored {node node' : Node} {τ τ' : List (Transition Engine Called)} {e prover : Engine}
    (hrun : EngineRun X (Engine.new node) τ e) (hprover : EngineRun X (Engine.new node') τ' prover) {i : Nat} {block : Block}
    (hblock : e.blocks[i]? = some block) {key : Hash} {proof : List Hash}
    (hX : Collisionless X (chainTexts X e.blocks ∪ proofTexts X 256 key.toList key.toList proof))
    (h : verifyAnchored X prover (some block) key proof = .ok ()) :
    ∃ b ∈ e.blocks.take (i + 1), ∃ pe ∈ b.anchored, pe.hash = key := by
  have hown := ownTree_run hrun
  have hroot := hown.roots (hX.mono Set.subset_union_left) i block hblock
  have hverify := verifyAnchored_ok hroot h
  -- the strings of the tree up to the block are among those of the chain
  have htexts : chainTexts X (e.blocks.take (i + 1)) ⊆ chainTexts X e.blocks := by
    conv_rhs => rw [← List.take_append_drop (i + 1) e.blocks]
    rw [chainTexts, chainTexts, entriesOf, entriesOf, List.flatMap_append, leavesOfEntries_append]
    exact treeTexts_mono (List.prefix_append _ _)
  have hrep := represents_chainTree hX (htexts.trans Set.subset_union_left)
  have hdepth := depth_chainTree (X := X) (e.blocks.take (i + 1))
  have hz : HasZeroes X (chainTexts X e.blocks ∪ proofTexts X 256 key.toList key.toList proof)
      (chainTree X (e.blocks.take (i + 1))).depth := by
    rw [hdepth]
    exact hasZeroes_of_treeTexts (htexts.trans Set.subset_union_left)
  have hverify' : (chainTree X (e.blocks.take (i + 1))).verify X key.toList key.toList
      (chainTree X (e.blocks.take (i + 1))).root proof = true := by
    rw [SparseMerkleTree.verify, (ownTree_run hprover).depth] at hverify
    rwa [SparseMerkleTree.verify, hdepth]
  have hmaps := hrep.sound hX hz (by simp [Readable]) (by rw [hdepth]; exact Set.subset_union_right) hverify'
  obtain ⟨-, pe, hpe, hhash⟩ := maps_leavesOfEntries.1 hmaps
  obtain ⟨b, hb, hpe⟩ := List.mem_flatMap.1 hpe
  exact ⟨b, hb, pe, hpe, List.Vector.toList_injective hhash⟩

namespace Sample

open Gleipnir.Sample

/-- A single node that anchors two entries in two blocks. -/
def loneCalls : List Call := [.enqueue leftEntry, .runCycle, .enqueue rightEntry, .runCycle]

def lone : List (Transition Engine Called) × Engine × MemoryBus := callsOver tagging loneCalls (Engine.new (node 1)) MemoryBus.new

theorem run_lone : EngineRun tagging (Engine.new (node 1)) lone.1 lone.2.1 :=
  run_callsOver tagging loneCalls (Engine.new (node 1)) MemoryBus.new

/-- The second leaf is the sibling of the first. -/
def lonePath : List Hash := [leafHash tagging rightEntry.hash.toList rightEntry.hash.toList]

/-- What is hashed for the tree of the node, and on that path. -/
def loneTexts : List Bytes :=
  grownTexts (leavesOfEntries [leftEntry, rightEntry]) ++ climbedTexts leftEntry.hash.toList leftEntry.hash.toList lonePath

/-- The node has its two blocks, and proves the first entry against the root of the second. -/
def loneOutline : Computed (lone, loneTexts) fun x =>
    x.1.2.1.blocks.map (·.anchored) = [[leftEntry], [rightEntry]] ∧
      verifyAnchored tagging x.1.2.1 x.1.2.1.blocks[1]? leftEntry.hash lonePath = .ok () ∧ tagged x.2 = true :=
  computed _ (by decide +kernel)

theorem lone_blocks : lone.2.1.blocks.length = 2 ∧ entriesOf lone.2.1.blocks = [leftEntry, rightEntry] := by
  obtain ⟨x, rfl, hblocks, -⟩ := loneOutline
  exact ⟨by simpa using congrArg List.length hblocks, by rw [entriesOf, List.flatMap_def, hblocks]; rfl⟩

theorem collisionless_loneTexts : Collisionless tagging (textsWith loneTexts) := by
  obtain ⟨x, rfl, -, -, htagged⟩ := loneOutline
  exact collisionless_tagged htagged

theorem chainTexts_lone : chainTexts tagging lone.2.1.blocks ⊆ textsWith loneTexts := by
  rw [chainTexts, lone_blocks.2]
  exact treeTexts_subset fun _ hs => List.mem_append_left _ hs

/-- The path is accepted for the first entry, which an earlier block anchors. -/
theorem lone_anchored : ∃ block, lone.2.1.blocks[1]? = some block ∧
    verifyAnchored tagging lone.2.1 (some block) leftEntry.hash lonePath = .ok () ∧
      ∃ b ∈ lone.2.1.blocks.take 2, ∃ pe ∈ b.anchored, pe.hash = leftEntry.hash := by
  obtain ⟨x, hx, -, hverify, -⟩ := loneOutline
  subst hx
  have hblock := List.getElem?_eq_getElem (l := lone.2.1.blocks) (i := 1) (by rw [lone_blocks.1]; decide)
  dsimp only at hverify
  rw [hblock] at hverify
  refine ⟨_, hblock, hverify, anchored_of_verifyAnchored run_lone run_lone hblock ?_ hverify⟩
  exact collisionless_loneTexts.mono (Set.union_subset chainTexts_lone
    (proofTexts_subset fun _ hs => List.mem_append_right _ hs))

end Sample

end LightClient

end Gleipnir
