import Gleipnir.Consensus.Cycle
import Gleipnir.Lib.Path

/-!
# The calls of an engine

The entry points of an engine besides `RunCycle`: submissions, the registration of rotation and mandate bodies, and its
settings. The lock of the engine serialises them, so a run of an engine (`EngineRun`) is a sequence of calls, each with the
responses of the environment it got.
-/

namespace Gleipnir

open Atomic Atomic.Body

variable (X : Prims)

/-- The errors of the entry points. -/
inductive CallError where
  | engineStopped
  | invalidHash
  | invalidSubmitter
  | labelTooLong
  | rateLimited
  | mandate (err : MandateError)
  | rotation (err : KeyRotationError)
  | rotationHashMismatch
  | rotationEntry (err : RotationEntryError)
  deriving DecidableEq

/-- `validateEntry`. -/
def validateEntry (hash : Hash) (submitter : RootID) (label : String) (cfg : APILimits) : Except CallError Unit :=
  if hash = Arr.zero 32 then .error .invalidHash
  else if submitter = Arr.zero 16 then .error .invalidSubmitter
  else if cfg.maxLabelLen < label.utf8ByteSize then .error .labelTooLong
  else .ok ()

/-- The limits of a queue: its total length, and the rate of the submitter. -/
def takeSlot (submitter : RootID) : EngineM (Except CallError Unit) := do
  let e ← get
  if e.limits.maxTotalPending ≤ e.pending.length then return .error .rateLimited
  else do
    let now ← ask .now
    let verdict := e.rateLimiter.allow submitter now
    modify fun e => { e with rateLimiter := verdict.2 }
    return if verdict.1 then .ok () else .error .rateLimited

/-- Queue an entry for the next cycle. -/
def Engine.push (e : Engine) (entry : ProvenanceEntry) : Engine := { e with pending := e.pending ++ [entry] }

/-- `Enqueue`. -/
def enqueue (entry : ProvenanceEntry) : EngineM (Except CallError Unit) := do
  let e ← get
  if e.stopped then return .error .engineStopped
  else match validateEntry entry.hash entry.submitter entry.label e.limits with
    | .error err => return .error err
    | .ok () =>
      match validateEntryAgainstMandates e.mandateResolver entry entry.timestamp with
      | .error err => return .error (.mandate err)
      | .ok () =>
        match ← takeSlot entry.submitter with
        | .error err => return .error err
        | .ok () =>
          modify fun e => e.push entry
          if e.hasGossip then do
            ask (.publish entry)
            return .ok ()
          else return .ok ()

/-- `Submit`: no mandate check, and no gossip; the index of the ticket is the block it is expected in. -/
def submit (hash : Hash) (submitter : RootID) (label : String) : EngineM (Except CallError UInt64) := do
  let e ← get
  if e.stopped then return .error .engineStopped
  else match validateEntry hash submitter label e.limits with
    | .error err => return .error err
    | .ok () =>
      match ← takeSlot submitter with
      | .error err => return .error err
      | .ok () =>
        let now ← ask .now
        modify fun e => e.push { hash, submitter, timestamp := Int64.ofInt now, label }
        return .ok e.nextCycle

/-- Retain the body of a rotation. -/
def Engine.keepRotationBody (e : Engine) (entry : KeyRotationEntry) : Engine :=
  { e with keyRotationBodies := Function.update e.keyRotationBodies entry.hash (some entry) }

/-- `SubmitKeyRotation`. -/
def submitKeyRotation (entry : KeyRotationEntry) : EngineM (Except CallError Unit) := do
  modify Engine.syncKeyRotationState
  let e ← get
  match e.keyRotationValidator.validate X entry with
  | .error err => return .error (.rotation err)
  | .ok () =>
    modify fun e => e.keepRotationBody entry
    enqueue { hash := entry.hash, submitter := entry.submitter, timestamp := entry.timestamp, label := entry.label }

/-- `RotateKey`: the engine signs the rotation with its own secret key, which stays what it is. A rotation that is built
goes back to the caller even if it is refused. -/
def rotateKey (newPublicKey : Arr 1952) (newVRFPublicKey : Arr 32) (sigNew : Bytes) (effectiveCycle expiryCycle : UInt64) :
    EngineM (Option KeyRotationEntry × Except CallError Unit) := do
  let e ← get
  let now ← ask .now
  match newKeyRotationEntryWithNewSignature X e.node.uid.rootID e.node.uid.secretKey newPublicKey newVRFPublicKey sigNew
    effectiveCycle expiryCycle (Int64.ofInt now) with
  | .error err => return (none, .error (.rotationEntry err))
  | .ok entry =>
    let result ← submitKeyRotation X entry
    return (some entry, result)

/-- `RecordRotationBody`. -/
def recordRotationBody (entry : KeyRotationEntry) : EngineM (Except CallError Unit) := do
  if entry.verifyHash X then do
    modify fun e => e.keepRotationBody entry
    return .ok ()
  else return .error .rotationHashMismatch

/-- Register an authenticated mandate. -/
def Engine.keepMandate (e : Engine) (mandate : MandateEntry) : Engine :=
  { e with
    mandateResolver := e.mandateResolver.put X mandate
    mandateBodies := Function.update e.mandateBodies mandate.id (some mandate) }

/-- `SubmitMandate`. -/
def submitMandate (mandate : MandateEntry) : EngineM (Except CallError Unit) := do
  let e ← get
  match validateMandateAuthority X mandate e.mandateAuthorityLookup with
  | .error err => return .error (.mandate err)
  | .ok () =>
    modify fun e => e.keepMandate X mandate
    enqueue { hash := mandate.id, submitter := mandate.authority, timestamp := mandate.validFrom
              label := mandateLabel, mandateRef := some mandate.id }

/-- `RecordMandateBody`. -/
def recordMandateBody (mandate : MandateEntry) : EngineM (Except CallError Unit) := do
  let e ← get
  match validateMandateAuthority X mandate e.mandateAuthorityLookup with
  | .error err => return .error (.mandate err)
  | .ok () =>
    modify fun e => e.keepMandate X mandate
    return .ok ()

/-- `SetAPILimits`: the limiter starts afresh. -/
def Engine.setAPILimits (e : Engine) (cfg : APILimits) : Engine :=
  { e with apiLimits := cfg, rateLimiter := SubmitterLimiter.new cfg.maxPendingPerSubmitter minute }

/-- `SetQuorumConfig`: an invalid configuration is ignored. -/
def Engine.setQuorumConfig (e : Engine) (config : QuorumConfig) : Engine :=
  if config.isValid then { e with quorumConfig := config } else e

/-! ## Runs -/

/-- The calls an engine serves. -/
inductive Call where
  | enqueue (entry : ProvenanceEntry)
  | submit (hash : Hash) (submitter : RootID) (label : String)
  | submitKeyRotation (entry : KeyRotationEntry)
  | rotateKey (newPublicKey : Arr 1952) (newVRFPublicKey : Arr 32) (sigNew : Bytes) (effectiveCycle expiryCycle : UInt64)
  | recordRotationBody (entry : KeyRotationEntry)
  | submitMandate (mandate : MandateEntry)
  | recordMandateBody (mandate : MandateEntry)
  | setAPILimits (cfg : APILimits)
  | setQuorumConfig (config : QuorumConfig)
  | syncKeyRotationState
  | stop
  | runCycle

/-- The code of a call; the result goes to the caller. -/
def Call.body : Call → EngineM Unit
  | .enqueue entry => do let _ ← Gleipnir.enqueue entry
  | .submit hash submitter label => do let _ ← Gleipnir.submit hash submitter label
  | .submitKeyRotation entry => do let _ ← Gleipnir.submitKeyRotation X entry
  | .rotateKey newPublicKey newVRFPublicKey sigNew effectiveCycle expiryCycle => do
    let _ ← Gleipnir.rotateKey X newPublicKey newVRFPublicKey sigNew effectiveCycle expiryCycle
  | .recordRotationBody entry => do let _ ← Gleipnir.recordRotationBody X entry
  | .submitMandate mandate => do let _ ← Gleipnir.submitMandate X mandate
  | .recordMandateBody mandate => do let _ ← Gleipnir.recordMandateBody X mandate
  | .setAPILimits cfg => modify fun e => e.setAPILimits cfg
  | .setQuorumConfig config => modify fun e => e.setQuorumConfig config
  | .syncKeyRotationState => modify Engine.syncKeyRotationState
  | .stop => modify fun e => { e with stopped := true }
  | .runCycle => cycleBody X

/-- A call as a program: what it leaves of the engine. -/
def Call.prog (c : Call) (e : Engine) : Prog Op Op.Res Engine := (c.body X e).map Prod.snd

/-- One call of a run, with the trace of its exchange with the environment. -/
structure Called where
  call : Call
  trace : Trace

/-- The engine `e` serves a call and is `e'` afterwards. -/
def EngineStep (e : Engine) (l : Called) (e' : Engine) : Prop := Run (l.call.prog X e) l.trace e'

/-- A run of one engine, against an environment that may answer anything. -/
abbrev EngineRun (e : Engine) (τ : List (Transition Engine Called)) (e' : Engine) : Prop :=
  Path (EngineStep X) e τ e'

/-- A newly constructed engine. -/
def Engine.Fresh (e : Engine) : Prop :=
  (∃ node, e = Engine.new node) ∨ ∃ node hasGossip peers, e = Engine.newWithPeers node hasGossip peers

end Gleipnir
