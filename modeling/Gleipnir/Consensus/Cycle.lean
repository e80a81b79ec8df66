import Gleipnir.Consensus.Commit

/-!
# The consensus cycle

`RunCycle` of `consensus/engine.go`: take in what peers submitted, admit rotations and mandates, run the three phases, and
either append the final block or put the entries back. The deferred `recover` keeps whatever the engine was when a phase
panicked.
-/

namespace Gleipnir

open Atomic Atomic.Body

variable (X : Prims)

namespace Engine

/-- The entries of the pool that are not known yet, the first of each hash. -/
def newEntries : List ProvenanceEntry → List Hash → List ProvenanceEntry
  | [], _ => []
  | pe :: pool, known => if pe.hash ∈ known then newEntries pool known else pe :: newEntries pool (pe.hash :: known)

/-- `ingestGossipedEntriesLocked` with the pool it reads. -/
def ingest (e : Engine) (pool : List ProvenanceEntry) : Engine :=
  { e with pendingEntries := e.pendingEntries ++
      newEntries pool (e.pendingEntries.map (·.hash) ++ e.pending.map (·.hash)) }

/-- `allPending`: the retained entries and the new ones. -/
def allPending (e : Engine) : List ProvenanceEntry := e.pendingEntries ++ e.pending

/-- One entry of `processKeyRotationEntriesLocked`; a rotation that is refused is skipped. -/
def processKeyRotation (e : Engine) (pe : ProvenanceEntry) : Engine :=
  if pe.label ≠ keyRotationLabel then e
  else match e.keyRotationBodies pe.hash with
    | none => e
    | some body =>
      match e.keyRotationValidator.validateAndRecord X body with
      | .error _ => e
      | .ok v => { e with keyRotationValidator := v }

/-- `processKeyRotationEntriesLocked`. -/
def processKeyRotationEntries (e : Engine) (entries : List ProvenanceEntry) : Engine :=
  entries.foldl (processKeyRotation X) e

/-- `mandateAuthorityLookupLocked`: the validator set first, then the nodes whose key is known. -/
def mandateAuthorityLookup (e : Engine) (rootID : RootID) : Option (Arr 1952) :=
  match e.state.validatorSet.find? fun v => v.validatorID == rootID with
  | some v => some v.dilithium3PK
  | none =>
    match e.state.nodes.lookup (hexEncode rootID.toList) with
    | none => none
    | some node => if node.dilithium3PK = Arr.zero 1952 then none else some node.dilithium3PK

/-- One entry of `processMandateEntriesLocked`. -/
def processMandate (e : Engine) (pe : ProvenanceEntry) : Engine :=
  if pe.label ≠ mandateLabel then e
  else match e.mandateBodies pe.hash with
    | none => e
    | some body =>
      match validateMandateAuthority X body e.mandateAuthorityLookup with
      | .error _ => e
      | .ok _ => { e with mandateResolver := e.mandateResolver.put X body }

/-- `processMandateEntriesLocked`. -/
def processMandateEntries (e : Engine) (entries : List ProvenanceEntry) : Engine :=
  entries.foldl (processMandate X) e

/-- The validators that count for the quorum: the validator set, or the peers when it is empty. -/
def activeValidators (e : Engine) : Nat :=
  if e.state.validatorSet.length = 0 then e.peers.length else e.state.validatorSet.length

/-- The quorum of a cycle; one signature in degraded mode. -/
def requiredQuorum (e : Engine) : Nat := if e.degraded.inDegraded then 1 else quorumRequired e.activeValidators

/-- A cycle without entries: only the attempt is counted. -/
def skip (e : Engine) : Engine := { e with state := { e.state with cycle := e.state.cycle + 1 } }

/-- The failure paths of `RunCycle`: keep the entries, restore the tree, count the attempt. -/
def abort (e : Engine) (allPending : List ProvenanceEntry) (stateSnapshot : SparseMerkleTree) : Engine :=
  { e with
    pendingEntries := allPending
    st := stateSnapshot
    state := { e.state with cycle := e.state.cycle + 1 } }

/-- The anchor proof of a committed entry. -/
def anchorProof (e : Engine) (block : Block) (entry : ProvenanceEntry) : AnchorProof where
  found := true
  blockIndex := if e.blocks.length > 0 then UInt64.ofNat (e.blocks.length - 1) else 0
  blockTime := block.timestamp
  stateRoot := e.st.root.toList
  smtProof := ((e.st.prove entry.hash.toList).getD []).flatMap List.Vector.toList
  submitter := entry.submitter
  label := entry.label

/-- The success path before the proofs: the next state, the entries left over, and the block. -/
def extend (e : Engine) (next : NetworkState) (block : Block) : Engine :=
  { e with
    state := next
    pendingEntries := e.pendingEntries.filter fun entry => entry.hash ∉ block.anchored.map (·.hash)
    pending := []
    blocks := e.blocks ++ [block] }

/-- The success path: extend the chain and record the proofs of the committed entries. -/
def appendBlock (e : Engine) (next : NetworkState) (block : Block) : Engine :=
  let e := e.extend next block
  let record (anchored : Hash → Option AnchorProof) (entry : ProvenanceEntry) :=
    Function.update anchored entry.hash (some (e.anchorProof block entry))
  { e with anchored := block.anchored.foldl record e.anchored }

/-- What `RunCycle` does with a committed block: the degraded-mode transition and its rules, the state transition, and the
block itself. The transition of the handler is not undone when one of the later steps fails. -/
def conclude (e : Engine) (allPending : List ProvenanceEntry) (stateSnapshot : SparseMerkleTree)
    (activeValidators : Nat) (quorumReached : Bool) (block : Block) : Engine × Option Block :=
  let e := { e with degraded := (e.degraded.checkDegradedTransition activeValidators quorumReached).1 }
  match e.degraded.applyDegradedBlock X block e.peers with
  | none => (e.abort allPending stateSnapshot, none)
  | some finalBlock =>
    match apply X e.state e.state.supervisionRoot [e.node.uid.id] e.cfg with
    | .error _ => (e.abort allPending stateSnapshot, none)
    | .ok next => (e.appendBlock next finalBlock, some finalBlock)

end Engine

/-- The three phases; `none` when one of them fails. -/
def runPhases (cycle : UInt64) (root : Hash) (allPending : List ProvenanceEntry) (requiredQuorum : Nat) :
    EngineM (Option (Block × Bool)) := do
  match ← runPreparePhase X cycle root allPending false requiredQuorum with
  | .error _ => return none
  | .ok _ =>
    match ← runPreparePhase X cycle root allPending true requiredQuorum with
    | .error _ => return none
    | .ok pr =>
      match ← runCommitPhase X cycle pr with
      | .error _ => return none
      | .ok block => return some (block, pr.quorumReached)

/-- `ingestGossipedEntriesLocked`. -/
def ingestGossipedEntries : EngineM Unit := do
  let e ← get
  if e.hasGossip then do
    let pool ← ask .snapshot
    modify fun e => e.ingest pool
  else return ()

/-- Drop the committed entries from the pool of the channel. -/
def removeCommitted (block : Block) : EngineM Unit := do
  let e ← get
  if e.hasGossip then ask (.removeEntries (block.anchored.map (·.hash))) else return ()

/-- A cycle with entries to anchor. -/
def attemptCycle (cycle : UInt64) (allPending : List ProvenanceEntry) (stateSnapshot : SparseMerkleTree) :
    EngineM Unit := do
  modify fun e => (e.processKeyRotationEntries X allPending).processMandateEntries X allPending
  let e ← get
  match ← runPhases X cycle e.st.root allPending e.requiredQuorum with
  | none => modify fun e => e.abort allPending stateSnapshot
  | some (block, quorumReached) =>
    let e' ← get
    let out := e'.conclude X allPending stateSnapshot e.activeValidators quorumReached block
    modify fun _ => out.1
    match out.2 with
    | none => return ()
    | some finalBlock => removeCommitted finalBlock

/-- The body of `RunCycle` inside its deferred `recover`. -/
def cycleBody : EngineM Unit := do
  ingestGossipedEntries
  modify Engine.syncKeyRotationState
  let e ← get
  if e.allPending = [] ∧ e.cfg.skipEmptyCycles then modify Engine.skip
  else attemptCycle X e.nextCycle e.allPending e.st

/-- `RunCycle`: a panic is recovered, and the engine is left as it was then. -/
def runCycle (e : Engine) : Prog Op Op.Res Engine := (cycleBody X e).map Prod.snd

end Gleipnir
