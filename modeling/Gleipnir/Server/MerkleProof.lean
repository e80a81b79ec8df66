import Gleipnir.Consensus.SubChain
import Gleipnir.Storage.Crash
import Gleipnir.Validators.Activity

/-!
# Served proofs

`GetMerkleProof` of `server/lightclient.go`, and `Prove` of `consensus/subchain.go` by its locked steps. Both read the engine
through several of its methods. Each method takes the lock for itself, so the engine may be at a later call with every read:
the functions here take the engine as it is at each of them.

* `hashTree_run`: whatever a host does, every key of the tree of its engine is its own value.
* `served_iff`: a served proof verifies against the root served with it exactly if the root is the same at the two reads.
-/

namespace Gleipnir

open Atomic Guard

variable (X : Prims)

/-! ## Requests -/

/-- `pb.MerkleProofRequest`. -/
structure MerkleProofRequest where
  key : Bytes
  blockIndex : UInt64

/-- `pb.MerkleProofResponse`. -/
structure MerkleProofResponse where
  proof : List Bytes
  root : Bytes
  deriving DecidableEq

/-- The errors of `GetMerkleProof`, with what their messages name. -/
inductive MerkleProofError where
  | keyLength (got : Nat)
  | noBlock (index : UInt64)
  | blockRootLength (index : UInt64) (got : Nat)
  | prove (key : Hash)
  | rootLength (got : Nat)
  deriving DecidableEq

/-- The block that a request names is there and has a root of 32 bytes; `0` names none. -/
def checkNamedBlock (e : Engine) (index : UInt64) : Except MerkleProofError Unit :=
  if index > 0 then
    match e.getBlock index with
    | none => .error (.noBlock index)
    | some block => if block.stateRoot.length ≠ 32 then .error (.blockRootLength index block.stateRoot.length) else .ok ()
  else .ok ()

/-- `GetMerkleProof`, with the engine as it is when the block, the path and the root are read. -/
def getMerkleProof (atBlock atProof atRoot : Engine) (req : MerkleProofRequest) :
    Except MerkleProofError MerkleProofResponse := do
  if req.key.length ≠ 32 then throw (.keyLength req.key.length)
  checkNamedBlock atBlock req.blockIndex
  let key : Hash := Arr.copy 32 req.key
  let some raw := atProof.proveSMT key.toList | throw (.prove key)
  let root := atRoot.getStateRoot
  if root.length ≠ 32 then throw (.rootLength root.length)
  return ⟨raw.map (·.toList), root⟩

/-- The response verifies: the requested key is proved, as its own value, below the root that comes with the proof. -/
def MerkleProofResponse.verifies (resp : MerkleProofResponse) (key : Bytes) : Bool :=
  provedUnder X (Arr.copy 32 resp.root) (Arr.copy 32 key) (resp.proof.map (Arr.copy 32))

/-! ## Trees of hashes -/

/-- A tree of depth 256 in which every key is its own value. -/
structure HashTree (t : SparseMerkleTree) : Prop where
  depth : t.depth = 256
  store : SelfAddressed X (fun k v => v = k) t.store

variable {X}

theorem hashTree_new : HashTree X (.new 256) := ⟨rfl, fun _ n h => absurd h.symm (Option.some_ne_none n)⟩

variable {t : SparseMerkleTree} {e e' atBlock atProof atRoot atLookup : Engine} {l : Called} {m : SubChainManager}
  {id : SubChainID} {req : MerkleProofRequest} {resp : MerkleProofResponse} {entryHash : Hash} {proof : CrossChainProof}

theorem HashTree.insertHashes (h : HashTree X t) (entries : List ProvenanceEntry) : HashTree X (t.insertHashes X entries) := by
  rw [insertHashes_eq]
  refine ⟨(depth_insertAll _ _).trans h.depth, h.store.insertAll fun kv hkv => ?_⟩
  obtain ⟨pe, -, rfl⟩ := List.mem_map.1 hkv
  rfl

/-- A proof of such a tree is accepted against its root and no other. -/
theorem HashTree.provedUnder_iff (h : HashTree X t) {key : Hash} {proof : List Hash} (hprove : t.prove key.toList = some proof)
    (root : Hash) : provedUnder X root key proof = true ↔ t.root = root := by
  rw [← verify_prove_iff h.store hprove root, provedUnder, SparseMerkleTree.verify, SparseMerkleTree.verify, h.depth]
  rfl

/-! ## Engines and managers -/

variable (X) in
/-- The configuration and the tree that every engine has. -/
structure Standard (e : Engine) : Prop where
  cfg : e.cfg = defaultConfig
  tree : HashTree X e.st

theorem standard_fresh (h : e.Fresh) : Standard X e := by
  rcases h with ⟨node, rfl⟩ | ⟨node, hasGossip, peers, rfl⟩
  · exact ⟨rfl, hashTree_new⟩
  · exact ⟨rfl, hashTree_new⟩

/-- A step of an engine inserts entries into its tree at most. -/
theorem step_tree (h : EngineStep X e l e') : ∃ entries, e'.st = e.st.insertHashes X entries := by
  by_cases hc : l.call = .runCycle
  · rw [EngineStep, hc] at h
    obtain ⟨x, hcycled⟩ := run_runCycle X h
    exact hcycled.tree
  · obtain ⟨⟨x, s⟩, rfl, hrun⟩ := run_map.1 h
    exact ⟨[], (call_within X hc _ _ _ _ hrun).1.st⟩

theorem standard_step (h : EngineStep X e l e') (he : Standard X e) : Standard X e' := by
  obtain ⟨entries, hst⟩ := step_tree h
  refine ⟨(counts_step h).2.trans he.cfg, ?_⟩
  rw [hst]
  exact he.tree.insertHashes entries

theorem standard_run {τ : List (Transition Engine Called)} (hf : e.Fresh) (h : EngineRun X e τ e') : Standard X e' :=
  h.preserves (fun _ _ _ hs hI => standard_step hs hI) (standard_fresh hf)

variable (X) in
/-- The engine and the tree on the disk are standard. -/
structure StandardHost (h : Host) : Prop where
  engine : Standard X h.engine
  disk : ∀ t, h.disk.tree = some t → HashTree X t

theorem disk_saveAll_take {d : Disk} (hd : ∀ t, d.tree = some t → HashTree X t) (he : Standard X e)
    (records : List (Hash × AnchorProof)) (n : Nat) :
    ∀ t, (d.saveAll ((e.saves records).take n)).tree = some t → HashTree X t := by
  intro t ht
  by_cases hn : n < 3
  · obtain ⟨state, pending, hdisk⟩ := d.saveAll_take_early e records hn
    rw [hdisk] at ht
    exact hd t ht
  · obtain ⟨k, rfl⟩ := Nat.exists_eq_add_of_le' (not_lt.1 hn)
    rw [Disk.saveAll_take] at ht
    cases ht
    exact he.tree

theorem standard_hostStep {h h' : Host} {m : HostMove} (hstep : HostStep X h m h') (hs : StandardHost X h) :
    StandardHost X h' := by
  cases hstep with
  | @call l e' records hcall hr =>
    have he' := standard_step hcall hs.engine
    refine ⟨he', ?_⟩
    split
    · rw [Disk.saveAll_saves]
      rintro t ht
      cases ht
      exact he'.tree
    · exact hs.disk
  | attach =>
    refine ⟨⟨hs.engine.cfg, ?_⟩, hs.disk⟩
    change HashTree X (h.disk.tree.getD h.engine.st)
    cases ht : h.disk.tree with
    | none => exact hs.engine.tree
    | some t => exact hs.disk t ht
  | detach => exact ⟨hs.engine, hs.disk⟩
  | restart hn => exact ⟨standard_fresh hn.fresh, hs.disk⟩
  | crash hcall hsaving hr hn =>
    exact ⟨standard_fresh hn.fresh, disk_saveAll_take hs.disk (standard_step hcall hs.engine) _ _⟩

variable (X) in
/-- The engine of some host, whatever has happened to it. -/
def Engine.Reachable (e : Engine) : Prop := ∃ h₀ τ h, Host.New h₀ ∧ HostRun X h₀ τ h ∧ h.engine = e

/-- **The tree of an engine** has its keys as their own values, in every run of its host. -/
theorem hashTree_run (h : e.Reachable X) : Standard X e := by
  obtain ⟨h₀, τ, h, ⟨hfresh, hdisk, -⟩, hrun, rfl⟩ := h
  have hnew : StandardHost X h₀ := ⟨standard_fresh hfresh, fun t ht => by rw [hdisk] at ht; cases ht⟩
  exact (hrun.preserves (fun _ _ _ hs hI => standard_hostStep hs hI) hnew).engine

theorem reachable_fresh (h : e.Fresh) : e.Reachable X :=
  ⟨⟨e, .empty, false⟩, [], ⟨e, .empty, false⟩, ⟨h, rfl, rfl⟩, .nil _, rfl⟩

/-- The calls of a reachable engine lead to reachable ones. -/
theorem reachable_step (h : e.Reachable X) (hs : EngineStep X e l e') : e'.Reachable X := by
  obtain ⟨h₀, τ, h, hnew, hrun, rfl⟩ := h
  obtain ⟨records, hr⟩ := exists_records (finite_step hs (backed_run hnew hrun).engine)
  exact ⟨h₀, _, _, hnew, hrun.append (.cons (.call hs fun _ => hr) (.nil _)), rfl⟩

variable (X) in
/-- The managers of reachable engines: `Register`, `Submit` and `Anchor` in any order. -/
inductive Managed : SubChainManager → Prop
  | new : Managed .new
  | register {m : SubChainManager} {e : Engine} (h : Managed m) (he : e.Reachable X) (name : String) (owner : RootID)
      (now : Int64) : Managed (m.register X e name owner now).2
  | submit {m : SubChainManager} (h : Managed m) (id : SubChainID) (entry : ProvenanceEntry) : Managed (m.submit id entry).2
  | anchor {m : SubChainManager} (h : Managed m) (id : SubChainID) (now : Int64) : Managed (m.anchor X id now).2

theorem chains_put {id' : SubChainID} {sc sc' : SubChain} {P : SubChain → Prop} (hm : ∀ id sc, m.chains id = some sc → P sc)
    (hsc : P sc) (h : (m.put id sc).chains id' = some sc') : P sc' := by
  rw [SubChainManager.chains_put] at h
  split at h
  · cases h
    exact hsc
  · exact hm id' sc' h

/-- The trees of the sub-chains have their keys as their own values. -/
theorem Managed.trees (h : Managed X m) : ∀ id sc, m.chains id = some sc → HashTree X sc.st := by
  induction h with
  | new => exact fun _ _ h => absurd h.symm (Option.some_ne_none _)
  | @register m e _ he name owner now ih =>
    unfold SubChainManager.register
    dsimp only
    split
    · exact ih
    · intro id sc hsc
      refine chains_put ih ?_ hsc
      dsimp only
      rw [(hashTree_run he).cfg]
      exact hashTree_new
  | @submit m _ id entry ih =>
    unfold SubChainManager.submit
    split
    · exact ih
    · next sc₀ hsc₀ =>
      intro id sc hsc
      refine chains_put ih ?_ hsc
      exact ih _ sc₀ hsc₀
  | @anchor m _ id now ih =>
    unfold SubChainManager.anchor
    split
    · exact ih
    · next sc₀ hsc₀ => exact fun id sc hsc => chains_put ih ((ih _ sc₀ hsc₀).insertHashes sc₀.pending) hsc

/-! ## What is served -/

/-- What `GetMerkleProof` puts together. -/
theorem getMerkleProof_eq_ok (h : getMerkleProof atBlock atProof atRoot req = .ok resp) :
    ∃ raw, atProof.st.prove (Arr.copy 32 req.key : Hash).toList = some raw ∧
      resp = ⟨raw.map (·.toList), atRoot.getStateRoot⟩ := by
  unfold getMerkleProof at h
  cases hraw : atProof.proveSMT (Arr.copy 32 req.key : Hash).toList with
  | none => simp only [hraw, ↓throw_bind, ite_throw_eq_ok, bind_eq_ok, throw_ne_ok, and_false, exists_false] at h
  | some raw =>
    simp only [hraw, ↓throw_bind, ite_throw_eq_ok, pure_eq_ok, bind_eq_ok] at h
    obtain ⟨-, -, -, -, rfl⟩ := h
    exact ⟨raw, hraw, rfl⟩

theorem verifies_iff (he : Standard X atProof) (h : getMerkleProof atBlock atProof atRoot req = .ok resp) :
    resp.verifies X req.key = true ↔ atProof.st.root = atRoot.st.root := by
  obtain ⟨raw, hprove, rfl⟩ := getMerkleProof_eq_ok h
  have hraw : (raw.map (·.toList)).map (Arr.copy 32) = raw := by
    rw [List.map_map]
    exact List.map_id'' Arr.copy_toList raw
  have hroot : (Arr.copy 32 atRoot.getStateRoot : Hash) = atRoot.st.root := Arr.copy_toList _
  rw [MerkleProofResponse.verifies, hraw, hroot]
  exact he.tree.provedUnder_iff hprove _

theorem crossChain_verifies_iff (hm : Managed X m) (he : Standard X atProof)
    (h : m.proveSteps X atProof atRoot atLookup id entryHash = .ok proof) :
    verifyCrossChain X proof proof.parentRoot = true ↔ atProof.st.root = atRoot.st.root := by
  obtain ⟨sc, hsc, hsub, hparent, hentry, hsubRoot, hanchor, hroot⟩ := proveSteps_eq_ok h
  rw [← hentry] at hsub
  rw [← hanchor] at hparent
  have hinner : provedUnder X proof.subChainRoot proof.entryHash proof.subChainProof = true :=
    ((hm.trees id sc hsc).provedUnder_iff hsub _).2 hsubRoot.symm
  rw [verifyCrossChain_iff, and_iff_right hinner, he.tree.provedUnder_iff hparent, hroot]

/-- **Served proofs.** Whatever the engine does between the reads of a request: what `GetMerkleProof` or `Prove` returns
verifies against the root returned with it exactly if the tree has the same root when the path and when the root is read. -/
theorem served_iff {atProof : Engine} (he : atProof.Reachable X) (atBlock atRoot atLookup : Engine) :
    (∀ req resp, getMerkleProof atBlock atProof atRoot req = .ok resp →
      (resp.verifies X req.key = true ↔ atProof.st.root = atRoot.st.root)) ∧
    ∀ m id entryHash proof, Managed X m → m.proveSteps X atProof atRoot atLookup id entryHash = .ok proof →
      (verifyCrossChain X proof proof.parentRoot = true ↔ atProof.st.root = atRoot.st.root) :=
  ⟨fun _ _ h => verifies_iff (hashTree_run he) h, fun _ _ _ _ hm h => crossChain_verifies_iff hm (hashTree_run he) h⟩

namespace Sample

/-- A request for the first entry of the node. -/
def firstRequest : MerkleProofRequest := ⟨(entry 9).hash.toList, 0⟩

/-- The path to the first entry before the second block, and the roots before and after it. -/
def reads : Option (List Hash) × Bytes × Bytes :=
  (queueingAgain.1.proveSMT (entry 9).hash.toList, queueingAgain.1.getStateRoot, secondCommit.1.getStateRoot)

def readsHave : Computed reads fun x => x.1 = some [] ∧ x.2.1 ≠ x.2.2 := computed _ (by decide +kernel)

theorem reads_eq : queueingAgain.1.proveSMT (entry 9).hash.toList = some [] ∧
    queueingAgain.1.getStateRoot ≠ secondCommit.1.getStateRoot := by
  obtain ⟨x, hx, hprove, hroots⟩ := readsHave
  unfold reads at hx
  subst hx
  dsimp only at hprove hroots
  exact ⟨hprove, hroots⟩

theorem reachable_queueingAgain : queueingAgain.1.Reachable prims :=
  reachable_step (reachable_step (reachable_step (reachable_fresh (.inl ⟨node 1, rfl⟩)) step_queueing) step_firstCommit)
    step_queueingAgain

/-- The answer to a request for a key whose path is found. -/
theorem getMerkleProof_of_prove (atBlock : Engine) {atProof : Engine} (atRoot : Engine) {key : Hash} {raw : List Hash}
    (h : atProof.proveSMT key.toList = some raw) :
    getMerkleProof atBlock atProof atRoot ⟨key.toList, 0⟩ = .ok ⟨raw.map (·.toList), atRoot.getStateRoot⟩ := by
  have hroot : atRoot.getStateRoot.length = 32 := by simp [Engine.getStateRoot]
  unfold getMerkleProof
  simp only [Arr.copy_toList, h, hroot, List.Vector.toList_length]
  rfl

/-- A request that nothing interrupts is served a proof that verifies. -/
theorem uninterrupted_verifies : ∃ resp,
    getMerkleProof queueingAgain.1 queueingAgain.1 queueingAgain.1 firstRequest = .ok resp ∧
      resp.verifies prims firstRequest.key = true := by
  have hreach := reachable_queueingAgain
  have hprove := reads_eq.1
  generalize queueingAgain.1 = q at hreach hprove ⊢
  have hresp := getMerkleProof_of_prove q q hprove
  exact ⟨_, hresp, ((served_iff hreach q q q).1 firstRequest _ hresp).2 rfl⟩

/-- A cycle that commits a block between the two reads: the proof does not verify against the root. -/
theorem interrupted_unverified : ∃ e e' t resp, e.Reachable prims ∧ EngineStep prims e ⟨.runCycle, t⟩ e' ∧
    e'.blocks.length = e.blocks.length + 1 ∧ getMerkleProof e e e' firstRequest = .ok resp ∧
      resp.verifies prims firstRequest.key = false := by
  have hreach := reachable_queueingAgain
  have hstep := step_secondCommit
  have hlengths := blocks_lengths.2.2
  obtain ⟨hprove, hroots⟩ := reads_eq
  generalize queueingAgain.1 = e at hreach hstep hlengths hprove hroots
  generalize secondCommit.1 = e' at hstep hlengths hroots
  have hresp := getMerkleProof_of_prove e e' hprove
  refine ⟨e, e', _, _, hreach, hstep, by omega, hresp, ?_⟩
  rw [← Bool.not_eq_true]
  intro hverifies
  have hroot := (verifies_iff (hashTree_run hreach) hresp).1 hverifies
  exact hroots (congrArg List.Vector.toList hroot)

end Sample

end Gleipnir
