import Gleipnir.Consensus.Prepare

/-!
# The COMMIT phase

`consensus/commit.go`. The leader turns the candidate into the final block, with the certificate collected in PREPARE;
everyone else waits for it and verifies the certificate and the leader's signature.
-/

namespace Gleipnir

open Atomic Atomic.Body

variable (X : Prims)

/-- The errors of `RunCommitPhase`. -/
inductive CommitError where
  | quorumNotReached
  | noGossip
  | noFinal
  | prepareQuorum
  | leaderUnknown (leader : String)
  | commitSignature
  | hashMismatch
  deriving DecidableEq

/-- `countBitsBefore`. -/
def countBitsBefore (bitmap : Bytes) (pos : Nat) : Nat := (List.range pos).countP (bitSet bitmap)

/-- The loop of `verifyPrepareQuorum` over the peers and their positions; `none` when it gives up. -/
def Engine.countVerified (e : Engine) (cycle : UInt64) (block : Block) : List (Peer × Nat) → Nat → Option Nat
  | [], n => some n
  | (p, i) :: ps, n =>
    if !bitSet block.prepareSigsBitmap i then e.countVerified cycle block ps n
    else match block.prepareSigs[countBitsBefore block.prepareSigsBitmap i]? with
      | none => none
      | some sig =>
        if e.verifySignatureWithOverlap X p.uid.rootID block.blockHash sig cycle then
          e.countVerified cycle block ps (n + 1)
        else none

/-- `verifyPrepareQuorum`. An empty bitmap or payload is refused like a missing one, which only differs without peers. -/
def Engine.verifyPrepareQuorum (e : Engine) (cycle : UInt64) (block : Block) : Bool :=
  if block.prepareSigsBitmap = [] ∨ block.prepareSigs = [] then false
  else
    -- the regime is read off the block's own metadata
    let requiredQuorum := if block.labelledDegraded then 1 else quorumRequired e.peers.length
    match e.countVerified X cycle block e.peers.zipIdx 0 with
    | none => false
    | some verifiedCount => requiredQuorum ≤ verifiedCount

/-- The payload of the final block: the signatures of the marked peers, in the order of the peers. -/
def Engine.compactSigs (e : Engine) (pr : PrepareResult) : List Bytes :=
  e.peers.zipIdx.filterMap fun pi => if bitSet pr.prepareBitmap pi.2 then pr.prepareSigs.lookup pi.1.uid.id else none

/-- The final block of the leader. -/
def Engine.finalBlock (e : Engine) (pr : PrepareResult) : Block :=
  let block := { pr.block with
    prepareSigsBitmap := pr.prepareBitmap
    prepareSigs := e.compactSigs pr
    protocolVersion := 2 }
  let finalHash := computeBlockHash X block
  { block with commitSig := signDilithium X e.node.uid.secretKey finalHash, blockHash := finalHash }

/-- `waitForFinal`. -/
def waitForFinal (cycle : UInt64) : EngineM (Option Block) := do
  let wait ← ask .patience
  let found ← poll (ask (.getFinal cycle)) Option.isSome (wait.ticks + 1)
  return found.join

/-- What everyone else checks of the leader's final block. -/
def Engine.checkFinal (e : Engine) (cycle : UInt64) (leaderID : String) (block : Block) : Except CommitError Block :=
  if !e.verifyPrepareQuorum X cycle block then .error .prepareQuorum
  else match e.peers.find? fun p => p.uid.id == leaderID with
    | none => .error (.leaderUnknown leaderID)
    | some leader =>
      if !e.verifySignatureWithOverlap X leader.uid.rootID block.blockHash block.commitSig cycle then
        .error .commitSignature
      else if computeBlockHash X block ≠ block.blockHash then .error .hashMismatch
      else .ok block

/-- The leader's branch: build the final block and broadcast it. -/
def publishFinal (pr : PrepareResult) : EngineM Block := do
  let e ← get
  if e.hasGossip then do
    ask (.publishFinal (e.finalBlock X pr) e.node.uid.id)
    return e.finalBlock X pr
  else return e.finalBlock X pr

/-- Everyone else's branch. -/
def acceptFinal (cycle : UInt64) (leaderID : String) : EngineM (Except CommitError Block) := do
  let e ← get
  if e.hasGossip then do
    match ← waitForFinal cycle with
    | none => return .error .noFinal
    | some block => return e.checkFinal X cycle leaderID block
  else return .error .noGossip

/-- `RunCommitPhase`; a block that is returned is committed. -/
def runCommitPhase (cycle : UInt64) (pr : PrepareResult) : EngineM (Except CommitError Block) := do
  let e ← get
  if !pr.quorumReached then return .error .quorumNotReached
  else if pr.leaderID = e.node.uid.id then do
    let block ← publishFinal X pr
    return .ok block
  else acceptFinal X cycle pr.leaderID

end Gleipnir
