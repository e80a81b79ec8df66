import Gleipnir.Identity

/-!
# Blocks, rotations and mandates

The functions of the package `chain` that the engine and the light client call. What `computeBlockHash` covers matters
throughout: the certificate fields, the validator list and the metadata are outside it (`computeBlockHash_congr`).
-/

namespace Gleipnir

variable (X : Prims)

/-! ## Blocks -/

/-- `ComputeBlockHash`. No entries are one value here; the encoding tells a nil slice from an empty one. -/
def computeBlockHash (b : Block) : Bytes :=
  (X.sha256 (le64 b.index ++ b.prevHash ++ b.stateRoot ++ b.proposer.toList ++
    (X.blake3 (X.cborEntries b.anchored)).toList ++ le64 b.timestamp.toUInt64 ++ X.cborQuorum b.quorum)).toList

/-- The hash reads the index, the two roots, the proposer, the entries, the timestamp and the quorum, nothing else. -/
theorem computeBlockHash_congr {b c : Block} (hi : b.index = c.index) (hp : b.prevHash = c.prevHash)
    (hr : b.stateRoot = c.stateRoot) (hw : b.proposer = c.proposer) (ha : b.anchored = c.anchored)
    (ht : b.timestamp = c.timestamp) (hq : b.quorum = c.quorum) : computeBlockHash X b = computeBlockHash X c := by
  simp only [computeBlockHash, hi, hp, hr, hw, ha, ht, hq]

/-- `Block.VerifyHash`. -/
def Block.verifyHash (b : Block) : Bool := b.blockHash == computeBlockHash X b

/-- `QuorumConfig.IsValid`. -/
def QuorumConfig.isValid (q : QuorumConfig) : Bool :=
  q.totalValidators > 0 && q.requiredSigs > 0 && q.requiredSigs ≤ q.totalValidators

/-! ## Key rotations -/

def keyRotationLabel : String := "3cp:key-rotation:v1"

/-- `KeyRotationEntry.Payload`; the label is pinned. -/
def KeyRotationEntry.payload (k : KeyRotationEntry) : KeyRotationPayload :=
  ⟨keyRotationLabel, k.submitter, k.newPublicKey, k.newVRFPublicKey, k.effectiveCycle, k.expiryCycle⟩

def KeyRotationEntry.payloadBytes (k : KeyRotationEntry) : Option Bytes := X.cborRotationPayload k.payload

/-- `KeyRotationEntry.ComputeHash`: the digest of the entry with its own hash zeroed. -/
def KeyRotationEntry.computeHash (k : KeyRotationEntry) : Hash :=
  match X.cborRotation { k with hash := Arr.zero 32 } with
  | none => Arr.zero 32
  | some encoded => X.blake3 encoded

def KeyRotationEntry.verifyHash (k : KeyRotationEntry) : Bool := k.hash == k.computeHash X

/-- Both keys are accepted in `[EffectiveCycle, ExpiryCycle]`. -/
def KeyRotationEntry.inOverlap (k : KeyRotationEntry) (cycle : UInt64) : Bool :=
  k.effectiveCycle ≤ cycle && cycle ≤ k.expiryCycle

def KeyRotationEntry.isEffective (k : KeyRotationEntry) (cycle : UInt64) : Bool := k.effectiveCycle ≤ cycle

/-- The errors of the constructors of a rotation. -/
inductive RotationEntryError where
  | invalidCurrentKey
  | invalidNewSig
  | signingFailed
  | payloadEncoding
  deriving DecidableEq

/-- `newRotationEntryShell`: the unsigned part of a rotation. -/
def newRotationEntryShell (submitter : RootID) (newPublicKey : Arr 1952) (newVRFPublicKey : Arr 32)
    (effectiveCycle expiryCycle : UInt64) (timestamp : Int64) : KeyRotationEntry where
  hash := Arr.zero 32
  submitter := submitter
  timestamp := timestamp
  label := keyRotationLabel
  newPublicKey := newPublicKey
  newVRFPublicKey := newVRFPublicKey
  effectiveCycle := effectiveCycle
  expiryCycle := expiryCycle
  signatureOld := []
  signatureNew := []

/-- `signRotationWithCurrentKey`: the signature of the outgoing key, and the hash. -/
def signRotationWithCurrentKey (entry : KeyRotationEntry) (currentSecretKey : Bytes) :
    Except RotationEntryError KeyRotationEntry := do
  if currentSecretKey.length ≠ dilithium3SecretKeySize then throw .invalidCurrentKey
  let some payload := entry.payloadBytes X | throw .payloadEncoding
  let sigOld := signDilithium X currentSecretKey payload
  if sigOld.length ≠ dilithium3SignatureSize then throw .signingFailed
  let signed := { entry with signatureOld := sigOld }
  return { signed with hash := signed.computeHash X }

/-- `NewKeyRotationEntryWithNewSignature`: the incoming key has signed elsewhere. -/
def newKeyRotationEntryWithNewSignature (submitter : RootID) (currentSecretKey : Bytes) (newPublicKey : Arr 1952)
    (newVRFPublicKey : Arr 32) (sigNew : Bytes) (effectiveCycle expiryCycle : UInt64) (timestamp : Int64) :
    Except RotationEntryError KeyRotationEntry := do
  let entry := newRotationEntryShell submitter newPublicKey newVRFPublicKey effectiveCycle expiryCycle timestamp
  if sigNew.length ≠ dilithium3SignatureSize then throw .invalidNewSig
  signRotationWithCurrentKey X { entry with signatureNew := sigNew } currentSecretKey

/-! ## Mandates -/

def mandateLabel : String := "3cp:mandate:v1"

/-- `MandateEntry.MarshalPayloadCBOR`: identifier and signature are both excluded. -/
def MandateEntry.marshalPayloadCBOR (m : MandateEntry) : Option Bytes :=
  X.cborMandate { m with id := Arr.zero 32, signature := [] }

/-- `MandateEntry.MandateID`. -/
def MandateEntry.mandateID (m : MandateEntry) : Hash :=
  match m.marshalPayloadCBOR X with
  | none => Arr.zero 32
  | some encoded => X.blake3 encoded

def MandateEntry.verifyHash (m : MandateEntry) : Bool := m.id == m.mandateID X

/-- `MandateEntry.IsActiveAt`; a `ValidUntil` of zero never expires. -/
def MandateEntry.isActiveAt (m : MandateEntry) (timestamp : Int64) : Bool :=
  if timestamp < m.validFrom then false else m.validUntil == 0 || timestamp ≤ m.validUntil

/-- `MandateEntry.VerifyAuthoritySignature`. -/
def MandateEntry.verifyAuthoritySignature (m : MandateEntry) (publicKey : Arr 1952) : Bool :=
  if m.signature.length ≠ dilithium3SignatureSize then false
  else match m.marshalPayloadCBOR X with
    | none => false
    | some payload => verifyDilithium X publicKey payload m.signature

end Gleipnir
