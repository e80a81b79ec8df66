import Gleipnir.Consensus.Alone
import Gleipnir.Consensus.Anchors
import Gleipnir.Consensus.ChainLinks
import Gleipnir.Consensus.Election
import Gleipnir.Consensus.OwnKey
import Gleipnir.LightClient.Anchored
import Gleipnir.LightClient.Rotations
import Gleipnir.LightClient.VerifySpec

/-!
# A single node from end to end

A node that was created by `NewEngine` and is only submitted to and cycled. If its VRF and its signatures are complete, every
cycle with something to anchor commits it (`solo_cycle`): the node elects itself, counts its own signature, and keeps itself
active. The block passes the light client as it is, in degraded mode and with the certificate trimmed to one signature
(`verified_of_solo`). `endToEnd` puts this together with the tree.
-/

namespace Gleipnir

open Atomic Atomic.Body LightClient

variable (X : Prims)

/-- The proofs and signatures of the identity verify under its own keys. -/
structure CompleteKeys (u : UIDZeroSoulbound) : Prop where
  vrf : ∀ alpha, ∃ proof, u.vrfProve X alpha = some proof ∧ (u.vrfVerifyProof X alpha proof).isSome
  sign : ∀ msg, verifyDilithium X u.publicKey msg (signDilithium X u.secretKey msg) = true

/-- A single node as its calls leave it: alone, registered with its own key, active, and below the minimal number of
validators. -/
structure Solo (e : Engine) : Prop where
  gossip : e.hasGossip = false
  peers : e.peers = [e.node.asPeer]
  alive : ∃ n, e.state.nodes.entries = [⟨e.node.uid.id, n⟩] ∧ 0 < n.status
  validators : e.state.validatorSet = [e.node.asPeer.validatorInfo]
  degraded : e.degraded.minValidators = 4
  skips : e.cfg.skipEmptyCycles = true

/-- No rotation was announced. -/
structure Unrotated (e : Engine) : Prop where
  bodies : ∀ hash, e.keyRotationBodies hash = none
  rotations : ∀ id, e.keyRotationValidator.rotations id = []

/-- The key that the node signs with is active for a cycle. -/
def Engine.OwnKeyActive (e : Engine) (cycle : UInt64) : Prop :=
  ∃ keys, e.keyRotationValidator.getActivePublicKey e.node.uid.rootID cycle = some keys ∧ e.node.uid.publicKey ∈ keys

theorem solo_new (node : Node) : Solo (Engine.new node) where
  gossip := rfl
  peers := rfl
  alive := ⟨{ uid := node.uid.rootID, status := 1 }, rfl, zero_lt_one⟩
  validators := rfl
  degraded := rfl
  skips := rfl

variable {X}

/-! ## Before the phases -/

theorem rotationsOf_none {bodies : Hash → Option KeyRotationEntry} (h : ∀ hash, bodies hash = none)
    (batch : List ProvenanceEntry) : rotationsOf bodies batch = [] := by
  rw [rotationsOf, List.filterMap_eq_nil_iff]
  intro pe _
  unfold rotationBody
  split
  · exact h pe.hash
  · rfl

section Cycle

variable {e : Engine} (hs : Solo e) (pool : List ProvenanceEntry)
include hs

theorem Solo.start_allPending : (e.start pool).allPending = e.allPending := Engine.start_allPending hs.gossip pool

theorem Solo.ready : Solo (e.ready X pool) := by
  obtain ⟨pending, v, r, hready⟩ := e.ready_eq X pool
  rw [hready]
  exact ⟨hs.gossip, hs.peers, hs.alive, hs.validators, hs.degraded, hs.skips⟩

/-- Without announcements the registered key is active. -/
theorem Solo.ownKeyActive (hu : Unrotated e) (cycle : UInt64) : (e.ready X pool).OwnKeyActive cycle := by
  have hlookup : (validatorKeys e.state.validatorSet).lookup e.node.uid.rootID = some e.node.uid.publicKey := by
    rw [hs.validators]
    exact AList.lookup_insert (s := ∅)
  refine ⟨[e.node.uid.publicKey], ?_, by simp⟩
  rw [Engine.ready_node, ready_keys, rotationsOf_none hu.bodies, KeyRotationValidator.getActivePublicKey]
  change Option.map _ ((validatorKeys e.state.validatorSet).lookup _) = _
  rw [hlookup, Option.map_some]
  change some (KeyRotationValidator.keysFrom cycle e.node.uid.publicKey (e.keyRotationValidator.rotations _)) = _
  rw [hu.rotations]
  rfl

theorem Solo.requiredQuorum : e.requiredQuorum = 1 := by
  have hactive : e.activeValidators = 1 := by simp [Engine.activeValidators, hs.validators]
  rw [Engine.requiredQuorum, hactive]
  split <;> rfl

theorem Solo.active : e.inactive e.node.uid.id = false := by
  obtain ⟨n, hentries, hstatus⟩ := hs.alive
  have hlookup : e.state.nodes.lookup e.node.uid.id = some n := by
    rw [AList.lookup, hentries]
    exact List.dlookup_cons_eq ..
  unfold Engine.inactive
  rw [hlookup]
  simpa using hstatus

/-- The node elects itself. -/
theorem Solo.ownTurn (hkeys : CompleteKeys X e.node.uid) (cycle : UInt64) (root : Hash) {batch : List ProvenanceEntry}
    (hbatch : batch ≠ []) : e.OwnTurn X cycle root batch e.node.asPeer := by
  refine ⟨?_, rfl, hs.active, hbatch⟩
  obtain ⟨proof, hprove, hverify⟩ := hkeys.vrf (makeAlpha cycle root.toList)
  have hproof : HasProof X (makeAlpha cycle root.toList) (proofsFrom e.node.uid.id proof []) e.node.asPeer := by
    obtain ⟨gamma, hgamma⟩ := Option.isSome_iff_exists.1 hverify
    exact ⟨proof, gamma, lookup_proofsFrom_self _ _ _, hgamma⟩
  obtain ⟨r, hr⟩ : ∃ r, selectProposerVRF X [e.node.asPeer] (makeAlpha cycle root.toList)
      (proofsFrom e.node.uid.id proof []) = .ok r :=
    selectProposerVRF_ok_iff.2 ⟨List.cons_ne_nil _ _, fun p hp => by rwa [List.mem_singleton.1 hp]⟩
  -- whoever is elected is one of the peers
  have hmem : r.1 = e.node.asPeer := by
    obtain ⟨b, bs, hbs, rfl⟩ := (selectProposerVRF_ok X).1 hr
    obtain ⟨p, hp, hbp⟩ := hbs.of_ballot (Argmin.minBy_mem Ballot.key b bs)
    rw [← List.mem_singleton.1 hp]
    exact ((ballot_ok X).1 hbp).1
  unfold Engine.ownElection selectProposer
  simp only [hprove, hr, hmem]

/-- The node counts its own signature. -/
theorem Solo.ownSigs (hkeys : CompleteKeys X e.node.uid) (cycle : UInt64) {block : Block}
    (hactive : e.OwnKeyActive cycle)
    (hsigs : block.prepareSigs = [signDilithium X e.node.uid.secretKey block.blockHash]) :
    e.ownSigs X cycle block = AList.singleton e.node.uid.id (signDilithium X e.node.uid.secretKey block.blockHash) := by
  have hverify : e.verifySignatureWithOverlap X e.node.uid.rootID block.blockHash
      (signDilithium X e.node.uid.secretKey block.blockHash) cycle = true := by
    obtain ⟨keys, hget, hmem⟩ := hactive
    rw [Engine.verifySignatureWithOverlap, hget]
    exact List.any_eq_true.2 ⟨_, hmem, hkeys.sign block.blockHash⟩
  have hfind : e.peers.find? (fun p => p.uid.id == e.node.uid.id) = some e.node.asPeer := by
    rw [hs.peers]
    exact List.find?_cons_of_pos (beq_self_eq_true _)
  unfold Engine.ownSigs Engine.validSigs
  rw [hsigs]
  simp only [AList.singleton_entries, List.foldl_cons, List.foldl_nil, List.headD_cons, hfind]
  rw [show e.node.asPeer.uid = e.node.uid from rfl, if_pos hverify]
  rfl

/-- The tree is no part of it. -/
theorem Solo.setTree (st : SparseMerkleTree) : Solo { e with st := st } :=
  ⟨hs.gossip, hs.peers, hs.alive, hs.validators, hs.degraded, hs.skips⟩

/-- The bitmap of a certificate with the only validator. -/
def soloBitmap : Bytes := [1]

omit hs in
theorem lookup_own (id : String) (sig : Bytes) : (AList.singleton id sig : Sigs).lookup id = some sig :=
  AList.lookup_insert (s := ∅)

/-- The final block of the node: its certificate is its own signature. -/
theorem Solo.finalBlock (hkeys : CompleteKeys X e.node.uid) (cycle : UInt64) (leaderID : String) (block : Block) (q : Nat)
    (hactive : e.OwnKeyActive cycle)
    (hhash : block.blockHash = computeBlockHash X block)
    (hsigs : block.prepareSigs = [signDilithium X e.node.uid.secretKey block.blockHash]) :
    (e.ownResult X cycle leaderID block true q).quorumReached = decide (q ≤ 1) ∧
      e.finalBlock X (e.ownResult X cycle leaderID block true q) = { block with
        prepareSigsBitmap := soloBitmap
        protocolVersion := 2
        commitSig := signDilithium X e.node.uid.secretKey block.blockHash } := by
  have hvalid := hs.ownSigs hkeys cycle hactive hsigs
  have hlookup : (e.ownSigs X cycle block).lookup e.node.asPeer.uid.id =
      some (signDilithium X e.node.uid.secretKey block.blockHash) := by
    rw [hvalid]
    exact lookup_own _ _
  have hmem : e.node.asPeer.uid.id ∈ e.ownSigs X cycle block := AList.lookup_isSome.1 (by rw [hlookup]; rfl)
  have hbitmap : e.signerBitmap (e.ownSigs X cycle block) = soloBitmap := by
    rw [Engine.signerBitmap, hs.peers]
    simp only [List.zipIdx_cons, List.zipIdx_nil, List.foldl_cons, List.foldl_nil, if_pos hmem, List.length_singleton]
    decide
  have hset : bitSet soloBitmap 0 = true := by decide
  have hcompact : e.compactSigs (e.ownResult X cycle leaderID block true q) = block.prepareSigs := by
    rw [hsigs, Engine.compactSigs, hs.peers]
    simp only [Engine.ownResult, hbitmap, List.zipIdx_cons, List.zipIdx_nil, List.filterMap_cons, List.filterMap_nil, hset,
      if_true, hlookup]
  refine ⟨?_, ?_⟩
  · simp only [Engine.ownResult, hvalid, AList.singleton_entries, List.length_singleton, Bool.true_and]
  · have hfinal : computeBlockHash X { block with
        prepareSigsBitmap := soloBitmap, prepareSigs := block.prepareSigs, protocolVersion := 2 } = block.blockHash :=
      hhash.symm
    unfold Engine.finalBlock
    rw [hcompact]
    simp only [Engine.ownResult, hbitmap]
    rw [hfinal]

/-- The state transition of a single node succeeds, and keeps it active. -/
theorem Solo.apply : ∃ next, Gleipnir.apply X e.state e.state.supervisionRoot [e.node.uid.id] e.cfg = .ok next ∧
    (∃ n, next.nodes.entries = [⟨e.node.uid.id, n⟩] ∧ 0 < n.status) ∧ next.validatorSet = e.state.validatorSet := by
  obtain ⟨n, hentries, -⟩ := hs.alive
  have hnodes : (mapNodes (beat [e.node.uid.id] e.cfg) e.state.nodes).entries =
      [⟨e.node.uid.id, beat [e.node.uid.id] e.cfg e.node.uid.id n⟩] := by
    simp only [mapNodes, hentries, List.map_cons, List.map_nil]
  have hstatus : (beat [e.node.uid.id] e.cfg e.node.uid.id n).status = 1 := by simp [beat]
  unfold Gleipnir.apply
  rw [if_neg (by simp)]
  dsimp only
  rw [if_neg (by simp [hnodes])]
  exact ⟨_, rfl, ⟨_, hnodes, by rw [hstatus]; exact zero_lt_one⟩, rfl⟩

end Cycle

/-! ## Degraded mode -/

variable {d : DegradedMode} {p : Peer} {block b : Block} {e e' : Engine} {batch : List ProvenanceEntry} {l : Called}
  {blocks : List Block}

/-- One validator is below the minimum, so the handler is in degraded mode after every transition. -/
theorem checkDegradedTransition_one (h : d.minValidators = 4) (reached : Bool) :
    (d.checkDegradedTransition 1 reached).1.inDegraded = true ∧
      (d.checkDegradedTransition 1 reached).1.minValidators = 4 := by
  have hbelow : UInt64.ofNat 1 < d.minValidators := by
    rw [h]
    decide
  have hnot : ¬ (d.minValidators ≤ UInt64.ofNat 1 ∧ reached = true) := by
    rw [h]
    rintro ⟨hle, -⟩
    exact absurd hle (by decide)
  unfold DegradedMode.checkDegradedTransition
  cases hin : d.inDegraded with
  | false =>
    rw [if_pos (by simp), if_pos hbelow]
    exact ⟨rfl, h⟩
  | true =>
    rw [if_neg (by simp), if_neg hnot]
    exact ⟨rfl, h⟩

/-- Trimming the certificate of a single node to one signature leaves it as it is. -/
theorem applyDegradedBlock_own (hd : d.inDegraded = true) {sig : Bytes} (hbitmap : block.prepareSigsBitmap = soloBitmap)
    (hsigs : block.prepareSigs = [sig]) (hverify : verifyDilithium X p.uid.publicKey block.blockHash sig = true) :
    d.applyDegradedBlock X block [p] = some { block with metadata := block.metadata.insert degradedLabel trueBytes } := by
  have hlen : sig.length ≠ 0 := by
    rw [length_of_verifyDilithium hverify]
    decide
  have hset : bitSet soloBitmap 0 = true := by decide
  have hmarked : setBit (newBitmap 1) 0 = soloBitmap := by decide
  have hfirst : firstValidSig X block [(p, 0)] 0 = some (sig, 0) := by
    rw [firstValidSig, hbitmap, hsigs, if_neg (by decide), if_neg (by simp [hset])]
    exact if_pos ⟨hlen, hverify⟩
  refine (applyDegradedBlock_iff hd).2 ⟨sig, 0, hfirst, ?_⟩
  rw [Block.trimmed, List.length_singleton, hmarked, ← hbitmap, ← hsigs]

/-! ## The cycle -/

/-- A block that `node` made and signed as the only validator. -/
structure SoloBlock (X : Prims) (node : Node) (b : Block) : Prop where
  version : b.protocolVersion = 2
  validators : b.validators = [node.asPeer.validatorInfo]
  hash : computeBlockHash X b = b.blockHash
  proposer : b.proposer = node.uid.rootID
  bitmap : b.prepareSigsBitmap = soloBitmap
  prepareSigs : b.prepareSigs = [signDilithium X node.uid.secretKey b.blockHash]
  commitSig : b.commitSig = signDilithium X node.uid.secretKey b.blockHash
  degraded : b.labelledDegraded = true

/-- The quorum check of a single node reaches a quorum of one, and what it delivers passes the rules of degraded mode. -/
theorem Solo.delivers (hs : Solo e) (hkeys : CompleteKeys X e.node.uid) {cycle : UInt64} {root : Hash}
    (hactive : e.OwnKeyActive cycle) (q : Nat) (hturn : e.OwnTurn X cycle root batch p) (now : Int) (hd : d.inDegraded = true) :
    (e.ownCheck X cycle batch q p now).quorumReached = decide (q ≤ 1) ∧
      ∃ final, d.applyDegradedBlock X
          (((e.grown X batch).grown X batch).finalBlock X (e.ownCheck X cycle batch q p now)) e.peers = some final ∧
        SoloBlock X e.node final ∧ final.index = cycle ∧ final.prevHash = e.prevHash := by
  obtain rfl : p = e.node.asPeer :=
    Except.ok.inj (hturn.elected.symm.trans (hs.ownTurn hkeys cycle root hturn.awaiting).elected)
  have hgrown : Solo ((e.grown X batch).grown X batch) := (hs.setTree _).setTree _
  obtain ⟨hquorum, hfinal⟩ := hgrown.finalBlock hkeys cycle e.node.asPeer.uid.id
    ((e.grown X batch).newCandidate X cycle e.node.asPeer (dedupEntries batch []) q now) q hactive rfl rfl
  have hvalidators : e.peers.map Peer.validatorInfo = [e.node.asPeer.validatorInfo] := by
    rw [hs.peers]
    rfl
  refine ⟨hquorum, ?_⟩
  rw [hs.peers, hfinal]
  refine ⟨_, applyDegradedBlock_own hd rfl rfl (hkeys.sign _), ⟨rfl, hvalidators, rfl, rfl, rfl, rfl, rfl, ?_⟩, rfl, rfl⟩
  simp [Block.labelledDegraded]

/-- A node that delivers a block commits it. -/
theorem conclude_of_applied {st : SparseMerkleTree} {n : Nat} {reached : Bool} {final : Block} {next : NetworkState}
    (happlied : (e.transit n reached).degraded.applyDegradedBlock X block e.peers = some final)
    (hmoved : apply X e.state e.state.supervisionRoot [e.node.uid.id] e.cfg = .ok next) :
    (e.conclude X batch st n reached block).2 = some final := by
  unfold Engine.transit at happlied
  simp only [Engine.conclude, happlied, hmoved]

section Cycle

variable {e e' : Engine} {t : Trace} (hs : Solo e) (hkeys : CompleteKeys X e.node.uid)
include hs hkeys

/-- **A cycle of a single node** commits what it awaits, and is skipped if there is nothing. -/
theorem solo_cycle (hactive : ∀ pool, (e.ready X pool).OwnKeyActive e.nextCycle) {x : Exit Unit} (h : Cycled X e t x e') :
    (e.allPending = [] ∧ ∃ pool, e' = (e.start pool).skip) ∨ (e.allPending ≠ [] ∧ Nonempty (Committing X e t e')) := by
  have hone : e.activeValidators = 1 := by simp [Engine.activeValidators, hs.validators]
  have hawaits : ∀ pool, ¬ e.Skips pool → e.allPending ≠ [] := fun pool hskips hnone =>
    hskips ⟨(hs.start_allPending pool).trans hnone, by
      obtain ⟨pending, hstart⟩ := e.start_eq pool
      rw [hstart]
      exact hs.skips⟩
  have hready : ∀ pool, Solo (e.ready X pool) := fun pool => hs.ready pool
  have hkeys' : ∀ pool, CompleteKeys X (e.ready X pool).node.uid := fun pool => by rwa [Engine.ready_node]
  have hinDegraded : ∀ pool,
      ((e.ready X pool).degraded.checkDegradedTransition (e.ready X pool).activeValidators true).1.inDegraded = true := by
    intro pool
    rw [ready_activeValidators, hone]
    exact (checkDegradedTransition_one (hready pool).degraded true).1
  cases h with
  | @skipped pool hskips => exact .inl ⟨hs.start_allPending pool ▸ hskips.1, pool, rfl⟩
  | panicked hskips hp => exact absurd (cycle_alone hs.gossip (.panicked hskips hp)).1.symm (Exit.done_ne_panic ())
  | @aborted pool u e₂ hskips hp =>
    -- the node elects itself, and its signature is a quorum
    cases runs_phases_alone (hready pool).gossip hp with
    | failed ht hno =>
      have hbatch : (e.start pool).allPending ≠ [] := by
        rw [hs.start_allPending pool]
        exact hawaits pool hskips
      have hturn := (hready pool).ownTurn (hkeys' pool) e.nextCycle e.st.root hbatch
      obtain ⟨now, hnone⟩ := hno _ hturn
      have hquorum := ((hready pool).delivers (hkeys' pool) (hactive pool) (e.ready X pool).requiredQuorum hturn now
        (d := ⟨0, 0, 0, true⟩) rfl).1
      rw [hnone, (hready pool).requiredQuorum] at hquorum
      cases hquorum
  | @failed pool u block reached e₂ hskips hp hc =>
    generalize hy : (Exit.done (some (block, reached)) : Exit (Option (Block × Bool))) = y at hp
    cases runs_phases_alone (hready pool).gossip hp with
    | failed ht hno => cases hy
    | delivered p now₁ now₂ hturn hq =>
      cases hy
      have hgrown : Solo (((e.ready X pool).grown X (e.start pool).allPending).grown X (e.start pool).allPending) :=
        ((hready pool).setTree _).setTree _
      obtain ⟨-, final, happlied, -⟩ := (hready pool).delivers (hkeys' pool) (hactive pool)
        (e.ready X pool).requiredQuorum hturn now₂ (hinDegraded pool)
      obtain ⟨next, hmoved, -⟩ := hgrown.apply (X := X)
      cases hc.symm.trans (conclude_of_applied happlied hmoved)
  | @committed pool u block final reached e₂ hskips hp hc =>
    refine .inr ⟨hawaits pool hskips, (cycle_blocks X (.committed hskips hp hc)).resolve_left fun hblocks => ?_⟩
    rw [concluded_blocks X hp hc] at hblocks
    simp at hblocks

/-- The block that a single node commits. -/
theorem Committing.soloBlock (cm : Committing X e t e') (hactive : (e.ready X cm.pool).OwnKeyActive e.nextCycle) :
    SoloBlock X e.node cm.final ∧ cm.final.index = e.nextCycle ∧ cm.final.prevHash = e.prevHash := by
  have hone : e.activeValidators = 1 := by simp [Engine.activeValidators, hs.validators]
  have hready : Solo (e.ready X cm.pool) := hs.ready cm.pool
  have hprev : (e.ready X cm.pool).prevHash = e.prevHash := by simp only [Engine.prevHash, Engine.ready_blocks]
  have hnode := e.ready_node X cm.pool
  obtain ⟨p₁, now₁, -, hturn, h₁, -⟩ := prepare_alone_ok hready.gossip cm.prepared
  have hgrown : Solo cm.e₁ := by
    rw [h₁]
    exact hready.setTree _
  obtain ⟨p₂, now₂, -, hturn₂, h₂, hresult⟩ := prepare_alone_ok hgrown.gossip cm.checked
  have hgrown₂ : Solo cm.e₂ := by
    rw [h₂]
    exact hgrown.setTree _
  have happlied := cm.applied
  rw [(finalised_alone hgrown₂.gossip cm.finalised).1, hresult, h₂, h₁, hone] at happlied
  rw [h₁] at hturn₂
  obtain rfl : p₂ = p₁ := Except.ok.inj (hturn₂.elected.symm.trans hturn.elected)
  rw [← hnode] at hkeys
  obtain ⟨-, final, hdelivers, hblock, hindex, hprevHash⟩ := hready.delivers hkeys hactive
    (e.ready X cm.pool).requiredQuorum hturn now₂ (checkDegradedTransition_one hready.degraded true).1
  obtain rfl : final = cm.final := Option.some.inj (hdelivers.symm.trans happlied)
  exact ⟨hnode ▸ hblock, hindex, hprevHash.trans hprev⟩

omit hkeys in
theorem Committing.solo (cm : Committing X e t e') : Solo e' := by
  have hone : e.activeValidators = 1 := by simp [Engine.activeValidators, hs.validators]
  obtain ⟨st, hframe⟩ := cm.frame
  have hs₂ : Solo cm.e₂ := by
    rw [hframe]
    exact (hs.ready cm.pool).setTree st
  obtain ⟨next, hmoved, halive, hvalidators⟩ := hs₂.apply (X := X)
  obtain rfl : next = cm.next := Except.ok.inj (hmoved.symm.trans cm.moved)
  rw [cm.post, hone]
  exact ⟨hs₂.gossip, hs₂.peers, halive, hvalidators.trans hs₂.validators,
    (checkDegradedTransition_one hs₂.degraded true).2, hs₂.skips⟩

omit hs hkeys in
theorem Committing.unrotated (hu : Unrotated e) (cm : Committing X e t e') : Unrotated e' := by
  obtain ⟨st, hframe⟩ := cm.frame
  have hkeys := ready_keys X e cm.pool
  rw [rotationsOf_none hu.bodies] at hkeys
  have hbodies := (admitted_ready X e cm.pool).bodies
  rw [cm.post, hframe]
  exact ⟨fun hash => (congrFun hbodies hash).trans (hu.bodies hash), fun id =>
    (congrArg (·.rotations id) hkeys).trans (hu.rotations id)⟩

end Cycle

/-! ## Runs -/

/-- Submissions and cycles. -/
def Call.plain : Call → Bool
  | .enqueue _ | .submit _ _ _ | .runCycle => true
  | _ => false

/-- A submission fills the queue at most. -/
theorem within_plain {c : Call} (hc : c.plain = true) (hne : c ≠ .runCycle) :
    Within Queued (fun ev => ev.op.submitting) True (c.body X) := by
  cases c with
  | enqueue entry => exact within_bind (within_enqueue entry) fun _ => within_pure _
  | submit hash submitter label => exact within_bind (within_submit hash submitter label) fun _ => within_pure _
  | runCycle => exact absurd rfl hne
  | _ => cases hc

theorem solo_step (hc : l.call.plain = true) (hkeys : CompleteKeys X e.node.uid) (hstep : EngineStep X e l e') (hs : Solo e)
    (hu : Unrotated e) : Solo e' ∧ Unrotated e' := by
  by_cases hcycle : l.call = .runCycle
  · rw [EngineStep, hcycle] at hstep
    obtain ⟨x, hcycled⟩ := run_runCycle X hstep
    rcases solo_cycle hs hkeys (fun pool => hs.ownKeyActive pool hu _) hcycled with ⟨-, pool, rfl⟩ | ⟨-, ⟨cm⟩⟩
    · obtain ⟨pending, hstart⟩ := e.start_eq pool
      rw [hstart]
      exact ⟨⟨hs.gossip, hs.peers, hs.alive, hs.validators, hs.degraded, hs.skips⟩, hu.bodies, hu.rotations⟩
    · exact ⟨cm.solo hs, cm.unrotated hu⟩
  · obtain ⟨⟨x, s⟩, rfl, hrun⟩ := run_map.1 hstep
    obtain ⟨pending, rateLimiter, rfl⟩ := (within_plain hc hcycle _ _ _ _ hrun).1
    exact ⟨⟨hs.gossip, hs.peers, hs.alive, hs.validators, hs.degraded, hs.skips⟩, hu.bodies, hu.rotations⟩

section Run

variable {node : Node} (hkeys : CompleteKeys X node.uid) {τ : List (Transition Engine Called)} {e' : Engine}
  (h : EngineRun X (Engine.new node) τ e') (hcalls : ∀ x ∈ τ, x.label.call.plain = true)
include hkeys h hcalls

theorem solo_run : e'.node = node ∧ Solo e' ∧ Unrotated e' := by
  refine Path.invariant (C := fun x => x.label.call.plain = true) (I := fun e => e.node = node ∧ Solo e ∧ Unrotated e) ?_ h
    hcalls ⟨rfl, solo_new node, fun _ => rfl, fun _ => rfl⟩
  rintro e l e' hc hstep ⟨hnode, hs, hu⟩
  exact ⟨(sameEngine_step X hstep).node.trans hnode, solo_step hc (by rwa [hnode]) hstep hs hu⟩

/-- Before every transition of the run the node is as its calls leave it. -/
theorem solo_pre {x : Transition Engine Called} (hx : x ∈ τ) : x.pre.node = node ∧ Solo x.pre ∧
    (∀ pool, (x.pre.ready X pool).OwnKeyActive x.pre.nextCycle) ∧ EngineStep X x.pre x.label x.post := by
  obtain ⟨τ₁, τ₂, rfl, hpre, hstep⟩ := h.split hx
  obtain ⟨hnode, hs, hu⟩ := solo_run hkeys hpre fun y hy => hcalls y (List.mem_append_left _ hy)
  exact ⟨hnode, hs, fun pool => hs.ownKeyActive pool hu _, hstep⟩

/-- The blocks of the chain. -/
theorem solo_blocks {i : Nat} {b : Block} (hb : e'.blocks[i]? = some b) :
    SoloBlock X node b ∧ b.index = UInt64.ofNat i ∧ b.prevHash = linkHash e'.blocks i := by
  obtain ⟨x, hx, -, hpre, -, cm, rfl⟩ := appended_by X (.inl ⟨node, rfl⟩) h hb
  obtain ⟨hnode, hs, hactive, -⟩ := solo_pre hkeys h hcalls hx
  obtain ⟨hblock, hindex, hprev⟩ := cm.soloBlock hs (by rwa [hnode]) (hactive cm.pool)
  have hi : i ≤ e'.blocks.length := (List.getElem?_eq_some_iff.1 hb).1.le
  refine ⟨hnode ▸ hblock, ?_, hprev.trans (prevHash_eq_linkHash hi hpre)⟩
  rw [hindex, Engine.nextCycle, hpre, List.length_take, Nat.min_eq_left hi]

end Run

/-! ## The light client -/

/-- The anchor of a client that has followed `blocks` and knows of no rotations. -/
def anchorAfter (validators : List ValidatorInfo) (blocks : List Block) : TrustAnchor :=
  ⟨(blocks.getLast?.map (·.index)).getD 0, blocks.getLast?.map (·.blockHash), validators, []⟩

/-- A client that trusts the only validator accepts its blocks, if they are linked. -/
theorem verified_of_solo {node : Node} (hkeys : CompleteKeys X node.uid) (hb : SoloBlock X node b)
    (hlinked : checkLinkage b (anchorAfter [node.asPeer.validatorInfo] blocks) = .ok ()) :
    Verified X (anchorAfter [node.asPeer.validatorInfo] blocks) b := by
  have hactive : (anchorAfter [node.asPeer.validatorInfo] blocks).keys X b.index node.uid.rootID =
      some [node.uid.publicKey] := by
    have hlookup : (validatorKeys [node.asPeer.validatorInfo]).lookup node.uid.rootID = some node.uid.publicKey :=
      AList.lookup_insert (s := ∅)
    rw [TrustAnchor.keys, keysForCycle_apply, KeyRotationValidator.getActivePublicKey]
    change Option.map _ ((validatorKeys [node.asPeer.validatorInfo]).lookup _) = _
    rw [hlookup]
    rfl
  have hverify : ∀ msg, verifiesUnder X ((anchorAfter [node.asPeer.validatorInfo] blocks).keys X b.index) node.uid.rootID msg
      (signDilithium X node.uid.secretKey msg) = true := by
    intro msg
    rw [verifiesUnder, hactive]
    simpa using hkeys.sign msg
  have hmarked : markedPositions soloBitmap = [0] := by decide
  have hone : (anchorAfter [node.asPeer.validatorInfo] blocks).validators.length = 1 := rfl
  refine ⟨hb.version, List.cons_ne_nil _ _, hlinked, ?_, hb.hash, ⟨_, List.mem_singleton.2 rfl, hb.proposer.symm⟩, ?_,
    fun _ => hb.degraded, ?_, fun x hx => ?_, ?_⟩
  · rw [hb.validators]
    simp [checkValidatorSet, anchorAfter]
  · rw [hb.bitmap, hb.prepareSigs, hmarked]
    rfl
  · rw [hb.prepareSigs, hone, List.length_singleton]
    decide
  · rw [hb.prepareSigs, hb.bitmap, hmarked] at hx
    obtain rfl := List.mem_singleton.1 hx
    exact ⟨node.asPeer.validatorInfo, rfl, hverify _⟩
  · rw [hb.proposer, hb.commitSig]
    exact hverify _

/-- The anchor before block `i` links it. -/
theorem linked_of_solo {node : Node}
    (hblocks : ∀ i b, blocks[i]? = some b → b.index = UInt64.ofNat i ∧ b.prevHash = linkHash blocks i) {i : Nat}
    (hb : blocks[i]? = some b) : checkLinkage b (anchorAfter [node.asPeer.validatorInfo] (blocks.take i)) = .ok () := by
  obtain ⟨hindex, hprev⟩ := hblocks i b hb
  have hi := (List.getElem?_eq_some_iff.1 hb).1
  cases i with
  | zero =>
    simp only [checkLinkage, anchorAfter, List.take_zero, List.getLast?_nil, Option.map_none, hindex]
    rfl
  | succ j =>
    obtain ⟨c, hc⟩ : ∃ c, blocks[j]? = some c := ⟨_, List.getElem?_eq_getElem (by omega)⟩
    have hlast : (blocks.take (j + 1)).getLast? = some c := by
      rw [List.getLast?_take, if_neg (Nat.succ_ne_zero j)]
      simp [hc]
    have hnext : UInt64.ofNat (j + 1) = UInt64.ofNat j + 1 := by rw [UInt64.ofNat_add]; rfl
    rw [linkHash, hc] at hprev
    simp only [checkLinkage, anchorAfter, hlast, Option.map_some, Option.getD_some, hindex, (hblocks j c hc).1, hnext, hprev]
    simp

/-! ## The records -/

/-- The proof of a record leads from the hash to the root that is recorded with it. -/
def AnchorProof.Verifies (X : Prims) (e : Engine) (r : AnchorProof) (hash : Hash) : Prop :=
  ∃ (root : Hash) (proof : List Hash), r.stateRoot = root.toList ∧ r.smtProof = proof.flatMap List.Vector.toList ∧
    e.verifySMT X hash.toList hash.toList root proof = true

/-- The proofs of all records verify. -/
def Proved (X : Prims) (e : Engine) : Prop :=
  Collisionless X (chainTexts X e.blocks) → ∀ hash r, e.lookupHash hash = some r → r.Verifies X e hash

theorem AnchorProof.Verifies.of_depth {r : AnchorProof} {hash : Hash} (h : r.Verifies X e hash)
    (hdepth : e'.st.depth = e.st.depth) : r.Verifies X e' hash := by
  obtain ⟨root, proof, hroot, hproof, hverify⟩ := h
  refine ⟨root, proof, hroot, hproof, ?_⟩
  rw [Engine.verifySMT, SparseMerkleTree.verify] at hverify ⊢
  rwa [hdepth]

theorem proved_step (hown : OwnTree X e) (hown' : OwnTree X e') (hstep : EngineStep X e l e') (h : Proved X e) :
    Proved X e' := by
  have hdepth : e'.st.depth = e.st.depth := hown'.depth.trans hown.depth.symm
  intro hX hash r hr
  rcases step_records hstep with ⟨hblocks, hanchored⟩ | ⟨-, ⟨cm⟩⟩
  · rw [hblocks] at hX
    rw [Engine.lookupHash, hanchored] at hr
    exact (h hX hash r hr).of_depth hdepth
  · by_cases hmem : hash ∈ cm.final.hashes
    · -- the tree of the chain has the hash, and the proof was read off it
      obtain ⟨pe, hpe, rfl, hrecord⟩ := (cm.anchored hash).2 hmem
      obtain rfl : e'.anchorProof cm.final pe = r := Option.some.inj (hrecord.symm.trans hr)
      have hentry : pe ∈ entriesOf e'.blocks := by
        rw [cm.blocks_eq, entriesOf_concat]
        exact List.mem_append_right _ hpe
      obtain ⟨proof, hprove, -, hverify⟩ := (hown'.tree _ hX subset_rfl).prove
        (maps_leavesOfEntries.2 ⟨rfl, pe, hentry, rfl⟩)
      refine ⟨e'.st.root, proof, rfl, ?_, hverify⟩
      simp only [Engine.anchorProof, hprove, Option.getD_some]
    · rw [(cm.anchored hash).1 hmem] at hr
      exact (h (hX.mono (cm.blocks_eq ▸ chainTexts_concat e.blocks cm.final)) hash r hr).of_depth hdepth

theorem proved_run {node : Node} {τ : List (Transition Engine Called)} (h : EngineRun X (Engine.new node) τ e') :
    Proved X e' := by
  have hall : e'.hasGossip = false ∧ OwnTree X e' ∧ Proved X e' := by
    refine h.preserves (I := fun e => e.hasGossip = false ∧ OwnTree X e ∧ Proved X e) ?_
      ⟨rfl, ownTree_new node, fun _ hash r hr => nomatch hr⟩
    rintro e l e' hstep ⟨hg, hown, hproved⟩
    have hown' := ownTree_step hg hstep hown
    exact ⟨(sameEngine_step X hstep).hasGossip.trans hg, hown', proved_step hown hown' hstep hproved⟩
  exact hall.2.2

/-! ## End to end -/

/-- What a run `τ` of the single node `node` has led to. -/
structure EndToEnd (X : Prims) (node : Node) (τ : List (Transition Engine Called)) (e' : Engine) : Prop where
  /-- A cycle with something to anchor appends one block, with exactly the hashes it awaited. -/
  commits : ∀ x ∈ τ, x.label.call = .runCycle → x.pre.allPending ≠ [] →
    ∃ b, x.post.blocks = x.pre.blocks ++ [b] ∧ ∀ hash, hash ∈ b.hashes ↔ hash ∈ x.pre.allPending.map (·.hash)
  /-- A client that starts without an anchor and trusts the node accepts block after block. -/
  followed : ∀ i b, e'.blocks[i]? = some b → Accepts X (anchorAfter [node.asPeer.validatorInfo] (e'.blocks.take i)) b
  /-- Each block names the root of the tree of everything anchored up to it. -/
  roots : ∀ i b, e'.blocks[i]? = some b → b.stateRoot = (chainTree X (e'.blocks.take (i + 1))).root.toList
  /-- Every anchored hash has a record, whose proof verifies against its root. -/
  records : ∀ b ∈ e'.blocks, ∀ hash ∈ b.hashes, ∃ r, e'.lookupHash hash = some r ∧ r.Verifies X e' hash

/-- **A single node is correct from end to end.** -/
theorem endToEnd {node : Node} (hkeys : CompleteKeys X node.uid) {τ : List (Transition Engine Called)} {e' : Engine}
    (h : EngineRun X (Engine.new node) τ e') (hcalls : ∀ x ∈ τ, x.label.call.plain = true)
    (hX : Collisionless X (chainTexts X e'.blocks)) : EndToEnd X node τ e' := by
  refine ⟨fun x hx hc hawaits => ?_, fun i b hb => ?_, (ownTree_run h).roots hX, fun b hb hash hmem => ?_⟩
  · obtain ⟨hnode, hs, hactive, hstep⟩ := solo_pre hkeys h hcalls hx
    rw [EngineStep, hc] at hstep
    obtain ⟨y, hcycled⟩ := run_runCycle X hstep
    rcases solo_cycle hs (by rwa [hnode]) hactive hcycled with ⟨hnone, -⟩ | ⟨-, ⟨cm⟩⟩
    · exact absurd hnone hawaits
    · refine ⟨cm.final, cm.blocks_eq, fun hash => ?_⟩
      rw [Block.hashes, (cm.alone hs.gossip).1]
      refine ⟨fun hmem => ((dedupEntries_sublist _ _).map _).subset hmem, fun hmem => ?_⟩
      obtain ⟨pe, hpe, rfl⟩ := List.mem_map.1 hmem
      exact (hash_mem_dedupEntries hpe []).resolve_left List.not_mem_nil
  · have hblocks := fun j c (hc : e'.blocks[j]? = some c) => (solo_blocks hkeys h hcalls hc).2
    exact (accepts_iff X).2 (verified_of_solo hkeys (solo_blocks hkeys h hcalls hb).1 (linked_of_solo hblocks hb))
  · obtain ⟨r, hr⟩ := (indexed_run (.inl ⟨node, rfl⟩) h hash).2 ⟨b, hb, hmem⟩
    exact ⟨r, hr, proved_run h hX hash r hr⟩

namespace Sample

open LightClient.Sample

/-- The keys of the samples are complete, whatever the hash. -/
theorem completeKeys_with (blake3 : Bytes → Hash) : CompleteKeys { prims with blake3 } (uid 1) where
  vrf := by
    intro alpha
    have hgamma : (Arr.copy 32 (uid 1).vrfSecretKey : Arr 32) = (uid 1).vrfPublicKey := by decide +kernel
    refine ⟨⟨Arr.copy 32 (uid 1).vrfSecretKey, digest alpha, Arr.zero 32⟩, rfl, ?_⟩
    rw [UIDZeroSoulbound.vrfVerifyProof, hgamma, if_pos]
    · rfl
    · simp [prims]
  sign := keyPair_alone.own

theorem completeKeys_tagging : CompleteKeys tagging (uid 1) := completeKeys_with tagHash

theorem lone_plain : ∀ x ∈ lone.1, x.label.call.plain = true := by decide +kernel

/-- The node that anchors two entries in two blocks. -/
theorem lone_endToEnd : lone.2.1.blocks.length = 2 ∧ EndToEnd tagging (node 1) lone.1 lone.2.1 :=
  ⟨lone_blocks.1, endToEnd completeKeys_tagging run_lone lone_plain (collisionless_loneTexts.mono chainTexts_lone)⟩

end Sample

end Gleipnir
