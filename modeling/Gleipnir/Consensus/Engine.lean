import Gleipnir.Smt
import Gleipnir.Validation.KeyRotation
import Gleipnir.Validation.Mandates
import Gleipnir.Consensus.Gossip
import Gleipnir.Consensus.Degraded

/-!
# The engine

`consensus/engine.go`: the state of a node and its constructors. Storage, the anchor publisher, the sub-chains and the
adaptive timing are outside the model: they never feed back into what is modelled.
-/

namespace Gleipnir

variable (X : Prims)

/-- `validation.APILimits`. -/
structure APILimits where
  maxLabelLen : Int
  maxTotalPending : Int
  maxPendingPerSubmitter : Int
  deriving DecidableEq

/-- `DefaultAPILimits`. -/
def defaultAPILimits : APILimits := ⟨256, 100000, 5000⟩

/-- `consensus.SubmitterLimiter`: the admission times of each submitter, in nanoseconds. -/
structure SubmitterLimiter where
  windows : RootID → List Int
  maxPerWindow : Int
  windowDur : Int

def minute : Int := 60 * 1000000000

/-- `NewSubmitterLimiter`. -/
def SubmitterLimiter.new (maxPerWindow windowDur : Int) : SubmitterLimiter := ⟨fun _ => [], maxPerWindow, windowDur⟩

/-- `SubmitterLimiter.Allow` at the time `now`, for a limit that `make` can allocate: for a negative one, and for one of more
than `2 ^ 48` bytes of times, it panics on the first call of a submitter with the mutex held (`LimiterState.allow`). -/
def SubmitterLimiter.allow (sl : SubmitterLimiter) (submitter : RootID) (now : Int) : Bool × SubmitterLimiter :=
  let valid := (sl.windows submitter).filter fun t => now - sl.windowDur < t
  if sl.maxPerWindow ≤ valid.length then (false, { sl with windows := Function.update sl.windows submitter valid })
  else (true, { sl with windows := Function.update sl.windows submitter (valid ++ [now]) })

/-- `consensus.Engine`. -/
structure Engine where
  node : Node
  state : NetworkState
  cfg : Config
  st : SparseMerkleTree
  blocks : List Block
  pending : List ProvenanceEntry
  anchored : Hash → Option AnchorProof
  /-- Whether the engine has a gossip channel; a single node has none. -/
  hasGossip : Bool
  peers : List Peer
  apiLimits : APILimits
  stopped : Bool
  rateLimiter : SubmitterLimiter
  quorumConfig : QuorumConfig
  degraded : DegradedMode
  /-- Entries retained across aborted cycles. -/
  pendingEntries : List ProvenanceEntry
  keyRotationValidator : KeyRotationValidator
  keyRotationBodies : Hash → Option KeyRotationEntry
  mandateResolver : MandateResolver
  mandateBodies : Hash → Option MandateEntry

/-! ## Construction -/

/-- The canonical record of a peer. -/
def Peer.validatorInfo (p : Peer) : ValidatorInfo :=
  ⟨p.uid.rootID, p.uid.publicKey, p.uid.vrfPublicKey, p.uid.contractHash⟩

/-- The engine's own node as a peer. -/
def Node.asPeer (n : Node) : Peer := ⟨n.uid, n.addr, true⟩

/-- `newEngine`. -/
def newEngine (node : Node) (hasGossip : Bool) (peers : List Peer) : Engine where
  node := node
  state := {
    cycle := 0
    nodes := AList.singleton node.uid.id { uid := node.uid.rootID, status := 1 }
    graph := [⟨node.uid.id, node.uid.id, 1⟩]
    lambda1 := 0
    supervisionRoot := Arr.zero 32
    validatorSet := [node.asPeer.validatorInfo] }
  cfg := defaultConfig
  st := SparseMerkleTree.new defaultConfig.smtDepth
  blocks := []
  pending := []
  anchored := fun _ => none
  hasGossip := hasGossip
  peers := peers
  apiLimits := ⟨0, 0, 0⟩
  stopped := false
  rateLimiter := SubmitterLimiter.new 5000 minute
  quorumConfig := if peers.length = 1 then ⟨1, 1⟩ else ⟨peers.length, quorumRequired peers.length⟩
  degraded := DegradedMode.new defaultConfig.minValidators defaultConfig.graceCycles
  pendingEntries := []
  keyRotationValidator := KeyRotationValidator.new [node.asPeer.validatorInfo] 0 defaultConfig
  keyRotationBodies := fun _ => none
  mandateResolver := ∅
  mandateBodies := fun _ => none

/-- `NewEngine`: a single node without gossip. -/
def Engine.new (node : Node) : Engine := newEngine node false [node.asPeer]

/-- The nodes `NewEngineWithPeers` registers; the engine's own is there already. -/
def registerNodes (nodes : AList fun _ : String => NodeState) (peers : List Peer) : AList fun _ : String => NodeState :=
  peers.foldl (fun nodes p =>
    if p.uid.id ∈ nodes then nodes
    else nodes.insert p.uid.id
      { uid := p.uid.rootID, status := 1, dilithium3PK := p.uid.publicKey, vrfPK := p.uid.vrfPublicKey }) nodes

/-- `NewEngineWithPeers`: a full mesh of validators. An empty list of peers leaves the key history with the node's own
key, since `registerPeerValidatorSetLocked` returns early. -/
def Engine.newWithPeers (node : Node) (hasGossip : Bool) (peers : List Peer) : Engine :=
  let eng := newEngine node hasGossip peers
  let validatorSet := peers.map Peer.validatorInfo
  { eng with
    state := { eng.state with
      nodes := registerNodes eng.state.nodes peers
      graph := peers.flatMap fun p => peers.map fun q => ⟨p.uid.id, q.uid.id, 1⟩
      validatorSet }
    keyRotationValidator :=
      if peers = [] then eng.keyRotationValidator else eng.keyRotationValidator.setValidatorSet validatorSet }

/-! ## Reading the state -/

/-- `nextCycleLocked`: the index of the block the node expects to produce. -/
def Engine.nextCycle (e : Engine) : UInt64 := UInt64.ofNat e.blocks.length

/-- `apiLimitsLocked`. -/
def Engine.limits (e : Engine) : APILimits := if e.apiLimits.maxLabelLen = 0 then defaultAPILimits else e.apiLimits

/-- `LookupHash`. -/
def Engine.lookupHash (e : Engine) (hash : Hash) : Option AnchorProof := e.anchored hash

/-- `GetBlock`: the block at a position of the chain. -/
def Engine.getBlock (e : Engine) (index : UInt64) : Option Block := e.blocks[index.toNat]?

/-- `GetStateRoot`. -/
def Engine.getStateRoot (e : Engine) : Bytes := e.st.root.toList

/-- `ProveSMT`. -/
def Engine.proveSMT (e : Engine) (key : Bytes) : Option (List Hash) := e.st.prove key

/-- The hash a new block points to. -/
def Engine.prevHash (e : Engine) : Bytes :=
  match e.blocks.getLast? with
  | none => List.replicate 32 0
  | some b => b.blockHash

/-- `verifySignatureWithOverlap`. -/
def Engine.verifySignatureWithOverlap (e : Engine) (validatorID : RootID) (msg sig : Bytes) (cycle : UInt64) : Bool :=
  match e.keyRotationValidator.getActivePublicKey validatorID cycle with
  | none => false
  | some keys => keys.any fun pk => verifyDilithium X pk msg sig

/-- `sig` verifies over `msg` under a key that is active for the validator in the cycle. -/
def Engine.ActiveSignature (e : Engine) (cycle : UInt64) (id : RootID) (msg sig : Bytes) : Prop :=
  ∃ keys, e.keyRotationValidator.getActivePublicKey id cycle = some keys ∧ ∃ pk ∈ keys, verifyDilithium X pk msg sig = true

theorem verifySignatureWithOverlap_iff {e : Engine} {cycle : UInt64} {id : RootID} {msg sig : Bytes} :
    e.verifySignatureWithOverlap X id msg sig cycle = true ↔ e.ActiveSignature X cycle id msg sig := by
  unfold Engine.verifySignatureWithOverlap Engine.ActiveSignature
  cases e.keyRotationValidator.getActivePublicKey id cycle with
  | none => simp
  | some keys => simp

/-- `keyRotationEpochLocked`: the greatest effective cycle of a rotation already in force. -/
def Engine.keyRotationEpoch (e : Engine) : UInt64 :=
  (e.state.validatorSet.flatMap fun vi => e.keyRotationValidator.rotations vi.validatorID).foldl
    (fun epoch r => if r.isEffective e.state.cycle ∧ epoch < r.effectiveCycle then r.effectiveCycle else epoch) 0

/-- `syncKeyRotationStateLocked`. -/
def Engine.syncKeyRotationState (e : Engine) : Engine :=
  { e with
    keyRotationValidator := (e.keyRotationValidator.setValidatorSet e.state.validatorSet).setCycle e.state.cycle }

/-- Engine code: it changes the engine, calls its environment, and may panic. -/
abbrev EngineM : Type → Type := Atomic.Body Engine Op Op.Res

/-- Ask the environment. -/
abbrev ask (o : Op) : EngineM o.Res := Atomic.Body.perform o

end Gleipnir
