import Gleipnir.Lib.Effects
import Gleipnir.Consensus.Engine
import Gleipnir.Consensus.Triad

/-!
# The PREPARE phase

`consensus/prepare.go`. `runPreparePhase` elects the proposer of the cycle, obtains the candidate block (`proposeCandidate`
for the proposer, `checkCandidate` for everyone else) and counts the PREPARE signatures on it (`tally`). The engine runs it
twice in a cycle: the second time with `checkQuorum` set. A polling loop asks its environment how long it may last.
-/

namespace Gleipnir

open Atomic Atomic.Body

variable (X : Prims)

/-- The errors of `RunPreparePhase`, with what their texts name. -/
inductive PrepareError where
  | vrfProof
  | selection (err : ElectionError)
  | inactive (proposer : String)
  | noProposalForQuorumCheck
  | noEntries
  | noGossip
  | noProposal (proposer : String)
  | rootMismatch (localRoot proposal : Bytes)
  | hashMismatch
  | proposerSignature
  deriving DecidableEq

/-- `map[string][]byte`: signatures by signer. -/
abbrev Sigs : Type := AList fun _ : String => Bytes

/-- `consensus.PrepareResult` without an error. -/
structure PrepareResult where
  block : Block
  prepareSigs : Sigs
  prepareBitmap : Bytes
  leaderID : String
  quorumReached : Bool

/-! ## Election -/

/-- The peers that take part in the election: without gossip, the node alone. -/
def Engine.proposerPeers (e : Engine) : List Peer := if e.hasGossip then e.peers else [e.node.asPeer]

/-- One step of `collectVRFProofs`: the first readable proof of a signer stays. -/
def addProof (proofs : VRFProofs) (msg : VRFProofMsg) : VRFProofs :=
  match unmarshalVRFProof msg.proof with
  | none => proofs
  | some p => if msg.signerID ∈ proofs then proofs else proofs.insert msg.signerID (some p)

/-- The map `collectVRFProofs` builds from the messages on the channel. -/
def proofsFrom (me : String) (localProof : VRFProof) (msgs : List VRFProofMsg) : VRFProofs :=
  msgs.foldl addProof (AList.singleton me (some localProof))

/-- `collectVRFProofs`. -/
def collectVRFProofs (cycle : UInt64) (localProof : VRFProof) : EngineM VRFProofs := do
  let e ← get
  if e.hasGossip then do
    let msgs ← ask (.getVRFProofs cycle)
    return proofsFrom e.node.uid.id localProof msgs
  else return proofsFrom e.node.uid.id localProof []

/-- `waitForVRFProofs`; `proposalWait` is always positive. -/
def waitForVRFProofs (cycle : UInt64) (localProof : VRFProof) (want : Nat) : EngineM Unit := do
  let wait ← ask .patience
  let _ ← poll (collectVRFProofs cycle localProof) (fun proofs => want ≤ proofs.entries.length) (wait.ticks + 1)
  return ()

/-- The proofs the election uses: those of the first look, or of the last one after a wait. -/
def gatherVRFProofs (cycle : UInt64) (localProof : VRFProof) : EngineM VRFProofs := do
  let vrfProofs ← collectVRFProofs cycle localProof
  let e ← get
  if e.hasGossip ∧ vrfProofs.entries.length < e.proposerPeers.length then do
    waitForVRFProofs cycle localProof e.proposerPeers.length
    collectVRFProofs cycle localProof
  else return vrfProofs

/-- Publish the node's own proof. -/
def announceProof (cycle : UInt64) (localProof : VRFProof) : EngineM Unit := do
  let e ← get
  if e.hasGossip then ask (.publishVRFProof ⟨cycle, marshalVRFProof localProof, e.node.uid.id⟩)
  else return ()

/-- The election of a cycle. -/
def elect (cycle : UInt64) (root : Hash) : EngineM (Except PrepareError Peer) := do
  let e ← get
  match e.node.uid.vrfProve X (makeAlpha cycle root.toList) with
  | none => return .error .vrfProof
  | some localProof =>
    announceProof cycle localProof
    let vrfProofs ← gatherVRFProofs cycle localProof
    match selectProposer X e.proposerPeers cycle root.toList vrfProofs with
    | .error err => return .error (.selection err)
    | .ok (proposer, _) => return .ok proposer

/-! ## The candidate -/

/-- Keep the first entry of each hash. -/
def dedupEntries : List ProvenanceEntry → List Hash → List ProvenanceEntry
  | [], _ => []
  | pe :: pes, seen => if pe.hash ∈ seen then dedupEntries pes seen else pe :: dedupEntries pes (pe.hash :: seen)

/-- The candidate as the proposer fills it in, before its hash and signature. -/
def Engine.draftBlock (e : Engine) (cycle : UInt64) (proposer : Peer) (entries : List ProvenanceEntry)
    (requiredQuorum : Nat) (now : Int) : Block where
  index := cycle
  prevHash := e.prevHash
  stateRoot := (e.st.insertHashes X entries).root.toList
  proposer := proposer.uid.rootID
  anchored := entries
  lambda1 := e.state.lambda1
  timestamp := Int64.ofInt now
  validators := e.peers.map Peer.validatorInfo
  quorum := e.quorumConfig
  blockHash := []
  protocolVersion := 2
  prepareSigsBitmap := []
  prepareSigs := []
  commitSig := []
  externalAnchors := []
  keyRotationEpoch := e.keyRotationEpoch
  legacyAnchor := []
  metadata := if requiredQuorum = 1 then AList.singleton degradedLabel trueBytes else ∅

/-- The candidate block with its hash and the proposer's signature. -/
def Engine.newCandidate (e : Engine) (cycle : UInt64) (proposer : Peer) (entries : List ProvenanceEntry)
    (requiredQuorum : Nat) (now : Int) : Block :=
  let block := e.draftBlock X cycle proposer entries requiredQuorum now
  let blockHash := computeBlockHash X block
  { block with blockHash, prepareSigs := [signDilithium X e.node.uid.secretKey blockHash] }

/-- Insert the hashes of entries into the live tree. -/
def Engine.grow (e : Engine) (entries : List ProvenanceEntry) : Engine := { e with st := e.st.insertHashes X entries }

/-- The node's PREPARE vote for a block. -/
def Engine.vote (e : Engine) (cycle : UInt64) (blockHash : Bytes) : BlockSig :=
  ⟨cycle, signDilithium X e.node.uid.secretKey blockHash, e.node.uid.id⟩

/-- The proposer builds a candidate from `entries`, inserts them into its tree, and broadcasts block and signature. -/
def buildCandidate (cycle : UInt64) (proposer : Peer) (entries : List ProvenanceEntry) (requiredQuorum : Nat) :
    EngineM (Except PrepareError Block) := do
  if entries = [] then return .error .noEntries
  else do
    let e ← get
    let now ← ask .now
    let block := e.newCandidate X cycle proposer (dedupEntries entries []) requiredQuorum now
    modify fun e => e.grow X (dedupEntries entries [])
    if e.hasGossip then do
      ask (.propose block e.node.uid.id)
      ask (.publishSig (e.vote X cycle block.blockHash))
      return .ok block
    else return .ok block

/-- The proposer's branch: with gossip, the quorum check reads the published candidate back. -/
def proposeCandidate (cycle : UInt64) (proposer : Peer) (pendingEntries : List ProvenanceEntry) (checkQuorum : Bool)
    (requiredQuorum : Nat) : EngineM (Except PrepareError Block) := do
  let e ← get
  if e.hasGossip then
    if checkQuorum then do
      match ← ask (.getProposed cycle) with
      | none => return .error .noProposalForQuorumCheck
      | some block => return .ok block
    else do
      let entries ← ask .snapshot
      buildCandidate X cycle proposer entries requiredQuorum
  else buildCandidate X cycle proposer pendingEntries requiredQuorum

/-- `waitForProposal`. -/
def waitForProposal (cycle : UInt64) : EngineM (Option Block) := do
  let wait ← ask .patience
  let found ← poll (ask (.getProposed cycle)) Option.isSome (wait.ticks + 1)
  return found.join

/-- The checks of a validator on a candidate whose entries are in its tree, and its vote. -/
def voteOn (cycle : UInt64) (proposer : Peer) (block : Block) : EngineM (Except PrepareError Block) := do
  let e ← get
  if e.st.root.toList ≠ block.stateRoot then return .error (.rootMismatch e.st.root.toList block.stateRoot)
  else if computeBlockHash X block ≠ block.blockHash then return .error .hashMismatch
  else match block.prepareSigs with
    -- the source indexes the first signature without looking at the length
    | [] => panic
    | sig :: _ =>
      if e.verifySignatureWithOverlap X proposer.uid.rootID block.blockHash sig cycle then do
        ask (.publishSig (e.vote X cycle block.blockHash))
        return .ok block
      else return .error .proposerSignature

/-- Everyone else's branch: wait for the candidate, insert its entries, check it and vote. -/
def checkCandidate (cycle : UInt64) (proposer : Peer) : EngineM (Except PrepareError Block) := do
  let e ← get
  if e.hasGossip then do
    match ← waitForProposal cycle with
    | none => return .error (.noProposal proposer.uid.id)
    | some block =>
      modify fun e => e.grow X block.anchored
      voteOn X cycle proposer block
  else return .error .noGossip

/-! ## Counting signatures -/

/-- Add a signature unless its signer has one. -/
def addSig (sigs : Sigs) (s : BlockSig) : Sigs := if s.signerID ∈ sigs then sigs else sigs.insert s.signerID s.sig

/-- The signatures of known validators that verify over the block hash. -/
def Engine.validSigs (e : Engine) (cycle : UInt64) (block : Block) (sigs : Sigs) : Sigs :=
  sigs.entries.foldl (fun valid s =>
    match e.peers.find? fun p => p.uid.id == s.1 with
    | none => valid
    | some p => if e.verifySignatureWithOverlap X p.uid.rootID block.blockHash s.2 cycle then valid.insert s.1 s.2
      else valid) ∅

/-- The node's own signature. A proposer reads it off the block, without looking at the length. -/
def localSig (cycle : UInt64) (amProposer : Bool) (block : Block) : EngineM Sigs := do
  let e ← get
  if amProposer ∨ !e.hasGossip then
    match block.prepareSigs with
    | [] => panic
    | sig :: _ => return AList.singleton e.node.uid.id sig
  else do
    let sigs ← ask (.getSigs cycle)
    match sigs.find? fun s => s.signerID == e.node.uid.id with
    | none => return ∅
    | some s => return AList.singleton e.node.uid.id s.sig

/-- `collectValidSigs`. -/
def collectValidSigs (cycle : UInt64) (amProposer : Bool) (block : Block) : EngineM Sigs := do
  let own ← localSig cycle amProposer block
  let e ← get
  if e.hasGossip then do
    let sigs ← ask (.getSigs cycle)
    return e.validSigs X cycle block (sigs.foldl addSig own)
  else return e.validSigs X cycle block own

/-- `waitForSignatures`: at the deadline it looks once more, when the context is done it does not. -/
def waitForSignatures (cycle : UInt64) (amProposer : Bool) (block : Block) (quorum : Nat) : EngineM Bool := do
  let wait ← ask .patience
  match ← poll (collectValidSigs X cycle amProposer block) (fun v => quorum ≤ v.entries.length) (wait.ticks + 1) with
  | some _ => return true
  | none =>
    if wait.cancelled then return false
    else do
      let valid ← collectValidSigs X cycle amProposer block
      return quorum ≤ valid.entries.length

/-- In the quorum check, give the signatures time to arrive. -/
def awaitQuorum (cycle : UInt64) (amProposer : Bool) (block : Block) (checkQuorum : Bool) (quorum : Nat) (valid : Sigs) :
    EngineM Sigs := do
  let e ← get
  if checkQuorum ∧ e.hasGossip ∧ valid.entries.length < quorum then do
    if ← waitForSignatures X cycle amProposer block quorum then collectValidSigs X cycle amProposer block
    else return valid
  else return valid

/-- The bitmap of the peers with a valid signature. -/
def Engine.signerBitmap (e : Engine) (valid : Sigs) : Bytes :=
  e.peers.zipIdx.foldl (fun bitmap pi => if pi.1.uid.id ∈ valid then setBit bitmap pi.2 else bitmap)
    (newBitmap e.peers.length)

/-- The end of the phase. -/
def tally (cycle : UInt64) (amProposer : Bool) (leaderID : String) (block : Block) (checkQuorum : Bool)
    (requiredQuorum : Nat) : EngineM PrepareResult := do
  let first ← collectValidSigs X cycle amProposer block
  let valid ← awaitQuorum X cycle amProposer block checkQuorum requiredQuorum first
  let e ← get
  return ⟨block, valid, e.signerBitmap valid, leaderID, checkQuorum && requiredQuorum ≤ valid.entries.length⟩

/-- Whether the network state records the proposer with no status left. -/
def Engine.inactive (e : Engine) (proposer : String) : Bool :=
  match e.state.nodes.lookup proposer with
  | none => false
  | some n => n.status ≤ 0

/-- The candidate of a phase: the proposer's branch or everyone else's. -/
def obtainCandidate (cycle : UInt64) (proposer : Peer) (pendingEntries : List ProvenanceEntry) (checkQuorum : Bool)
    (requiredQuorum : Nat) (amProposer : Bool) : EngineM (Except PrepareError Block) :=
  if amProposer then proposeCandidate X cycle proposer pendingEntries checkQuorum requiredQuorum
  else checkCandidate X cycle proposer

/-- `RunPreparePhase`. -/
def runPreparePhase (cycle : UInt64) (root : Hash) (pendingEntries : List ProvenanceEntry) (checkQuorum : Bool)
    (requiredQuorum : Nat) : EngineM (Except PrepareError PrepareResult) := do
  match ← elect X cycle root with
  | .error err => return .error err
  | .ok proposer =>
    let e ← get
    if e.inactive proposer.uid.id then return .error (.inactive proposer.uid.id)
    else do
      let amProposer := proposer.uid.id == e.node.uid.id
      match ← obtainCandidate X cycle proposer pendingEntries checkQuorum requiredQuorum amProposer with
      | .error err => return .error err
      | .ok block =>
        let result ← tally X cycle amProposer proposer.uid.id block checkQuorum requiredQuorum
        return .ok result

end Gleipnir
