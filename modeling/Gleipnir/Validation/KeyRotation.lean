import Gleipnir.Chain
import Gleipnir.State

/-!
# The key history

`validation/key_rotation.go`: which signing keys are authoritative for a validator in a cycle, the five rules a rotation
has to meet, and its admission into the history.
-/

namespace Gleipnir

variable (X : Prims)

/-- The sentinels that the errors of `Validate` and `RecordRotation` wrap. -/
inductive KeyRotationError where
  | invalidEntry
  | payloadEncoding
  | unknownSubmitter
  | invalidOldSig
  | invalidNewSig
  | leadTime
  | overlap
  | duplicate
  deriving DecidableEq

/-- `validation.KeyRotationValidator`. -/
structure KeyRotationValidator where
  validators : AList fun _ : RootID => Arr 1952
  currentCycle : UInt64
  cfg : Config
  /-- Accepted rotations, ascending by effective cycle. -/
  rotations : RootID → List KeyRotationEntry

/-- The map `SetValidatorSet` builds; a later duplicate overwrites. -/
def validatorKeys (validators : List ValidatorInfo) : AList fun _ : RootID => Arr 1952 :=
  validators.foldl (fun m vi => m.insert vi.validatorID vi.dilithium3PK) ∅

namespace KeyRotationValidator

def setValidatorSet (v : KeyRotationValidator) (validators : List ValidatorInfo) : KeyRotationValidator :=
  { v with validators := validatorKeys validators }

def setCycle (v : KeyRotationValidator) (cycle : UInt64) : KeyRotationValidator := { v with currentCycle := cycle }

/-- `NewKeyRotationValidator`. -/
def new (validators : List ValidatorInfo) (currentCycle : UInt64) (cfg : Config) : KeyRotationValidator :=
  ⟨validatorKeys validators, currentCycle, cfg, fun _ => []⟩

/-- `lastRotationCycle`. -/
def lastRotationCycle (v : KeyRotationValidator) (id : RootID) : Option UInt64 :=
  (v.rotations id).getLast?.map (·.effectiveCycle)

/-- The loop of `GetActivePublicKey` over the rotations of a validator. -/
def keysFrom (cycle : UInt64) : Arr 1952 → List KeyRotationEntry → List (Arr 1952)
  | current, [] => [current]
  | current, r :: rs =>
    if cycle < r.effectiveCycle then [current]
    else if r.inOverlap cycle then [current, r.newPublicKey]
    -- the overlap is closed: the incoming key is the base of the next rotation
    else keysFrom cycle r.newPublicKey rs

/-- `GetActivePublicKey`; `none` is the unknown validator. -/
def getActivePublicKey (v : KeyRotationValidator) (validatorID : RootID) (cycle : UInt64) :
    Option (List (Arr 1952)) :=
  (v.validators.lookup validatorID).map fun current => keysFrom cycle current (v.rotations validatorID)

/-- `authorisingCycle`: the last cycle before a rotation takes over. -/
def authorisingCycle (entry : KeyRotationEntry) : UInt64 :=
  if entry.effectiveCycle = 0 then 0 else entry.effectiveCycle - 1

/-- `verifyAgainstActiveKeys`. -/
def verifyAgainstActiveKeys (v : KeyRotationValidator) (id : RootID) (registered : Arr 1952) (cycle : UInt64)
    (msg sig : Bytes) : Bool :=
  ((v.getActivePublicKey id cycle).getD [registered]).any fun pk => verifyDilithium X pk msg sig

/-- `Validate`: the five rules, in the order of the source. -/
def validate (v : KeyRotationValidator) (entry : KeyRotationEntry) : Except KeyRotationError Unit := do
  if entry.label ≠ keyRotationLabel then throw .invalidEntry
  if !entry.verifyHash X then throw .invalidEntry
  let some payload := entry.payloadBytes X | throw .payloadEncoding
  let some registered := v.validators.lookup entry.submitter | throw .unknownSubmitter
  if entry.signatureOld.length ≠ dilithium3SignatureSize then throw .invalidOldSig
  if entry.signatureNew.length ≠ dilithium3SignatureSize then throw .invalidNewSig
  if !v.verifyAgainstActiveKeys X entry.submitter registered (authorisingCycle entry) payload entry.signatureOld then
    throw .invalidOldSig
  if !verifyDilithium X entry.newPublicKey payload entry.signatureNew then throw .invalidNewSig
  if entry.effectiveCycle < v.currentCycle + v.cfg.keyRotationLeadTime then throw .leadTime
  if entry.expiryCycle < entry.effectiveCycle + v.cfg.minKeyOverlap then throw .overlap
  match v.lastRotationCycle entry.submitter with
  | some last => if entry.effectiveCycle ≤ last then throw .duplicate
  | none => pure ()

/-- `RecordRotation`; the history is sorted, so the binary search finds the first index that is not smaller. -/
def recordRotation (v : KeyRotationValidator) (entry : KeyRotationEntry) :
    Except KeyRotationError KeyRotationValidator := do
  match v.lastRotationCycle entry.submitter with
  | some last => if entry.effectiveCycle ≤ last then throw .duplicate
  | none => pure ()
  let entries := v.rotations entry.submitter
  let idx := entries.findIdx fun r => entry.effectiveCycle ≤ r.effectiveCycle
  match entries[idx]? with
  | some r => if r.effectiveCycle = entry.effectiveCycle then throw .duplicate
  | none => pure ()
  return { v with rotations := Function.update v.rotations entry.submitter (entries.take idx ++ entry :: entries.drop idx) }

/-- `ValidateAndRecord`. -/
def validateAndRecord (v : KeyRotationValidator) (entry : KeyRotationEntry) :
    Except KeyRotationError KeyRotationValidator := do
  v.validate X entry
  v.recordRotation entry

/-- A rotation that is recorded joins the history of its submitter; nothing else changes. -/
theorem recordRotation_ok {v v' : KeyRotationValidator} {r : KeyRotationEntry} (h : v.recordRotation r = .ok v') :
    ∃ before after, v.rotations r.submitter = before ++ after ∧
      v' = { v with rotations := Function.update v.rotations r.submitter (before ++ r :: after) } := by
  let idx := (v.rotations r.submitter).findIdx fun r' => r.effectiveCycle ≤ r'.effectiveCycle
  refine ⟨_, _, (List.take_append_drop idx _).symm, ?_⟩
  unfold recordRotation at h
  simp only [bind, Except.bind, pure, Except.pure, throw, throwThe, MonadExceptOf.throw] at h
  split at h
  · split at h
    · cases h
    · split at h
      · split at h
        · cases h
        · exact (Except.ok.inj h).symm
      · exact (Except.ok.inj h).symm
  · split at h
    · split at h
      · cases h
      · exact (Except.ok.inj h).symm
    · exact (Except.ok.inj h).symm

theorem validateAndRecord_ok {v v' : KeyRotationValidator} {r : KeyRotationEntry}
    (h : v.validateAndRecord X r = .ok v') : v.recordRotation r = .ok v' := by
  unfold validateAndRecord at h
  cases hv : v.validate X r with
  | error err => simp [hv, bind, Except.bind] at h
  | ok _ => simpa [hv, bind, Except.bind] using h

end KeyRotationValidator

end Gleipnir
