import Gleipnir.Consensus.Degraded
import Gleipnir.Lib.Prog
import Gleipnir.Validation.KeyRotation

/-!
# The light client

`lightclient/service.go`: the verification of a block against a trust anchor, without executing consensus. The client
derives the keys of a cycle from its own validators and rotations, and counts the signatures of a block that verify under
them. A mark of the bitmap past the trusted validators is an index out of range, which panics.
-/

namespace Gleipnir.LightClient

open Atomic

variable (X : Prims)

/-- The sentinels that the errors of `VerifyBlock` wrap. -/
inductive VerifyError where
  | blockNotFound
  | noValidatorSet
  | validatorSetMismatch
  | chainBreak
  | blockHashMismatch
  | quorumNotMet
  | badSignature
  | unknownProposer
  | bitmapMismatch
  | unsupportedVersion
  | degradedNotAnnounced
  deriving DecidableEq

/-- `TrustAnchor`; the hash is `none` when nothing has been verified yet. -/
structure TrustAnchor where
  blockIndex : UInt64
  blockHash : Option Bytes
  validators : List ValidatorInfo
  rotations : List (Option KeyRotationEntry)

/-! ## Keys -/

/-- `rotationConfig`. -/
def rotationConfig : Config :=
  if defaultConfig.minKeyOverlap = 0 then { defaultConfig with minKeyOverlap := 1 } else defaultConfig

/-- The errors of `admitRotation`. -/
inductive AdmitError where
  | hashMismatch
  | unknownValidator
  | payloadEncoding
  | outgoingKey
  | incomingKey
  | overlap
  | record (err : KeyRotationError)
  deriving DecidableEq

/-- `admitRotation`: the rules of a rotation that a verifier can evaluate. -/
def admitRotation (v : KeyRotationValidator) (r : KeyRotationEntry) : Except AdmitError KeyRotationValidator := do
  if !r.verifyHash X then throw .hashMismatch
  let some outgoing := v.getActivePublicKey r.submitter (r.effectiveCycle - 1) | throw .unknownValidator
  if outgoing.isEmpty then return v
  let some payload := r.payloadBytes X | throw .payloadEncoding
  if !(outgoing.any fun pk => verifyDilithium X pk payload r.signatureOld) then throw .outgoingKey
  if !verifyDilithium X r.newPublicKey payload r.signatureNew then throw .incomingKey
  if r.expiryCycle < r.effectiveCycle + rotationConfig.minKeyOverlap then throw .overlap
  match v.recordRotation r with
  | .error err => throw (.record err)
  | .ok v' => return v'

/-- One rotation of the loop of `newKeyResolver`; one that is refused is skipped. -/
def resolveRotation (v : KeyRotationValidator) : Option KeyRotationEntry → KeyRotationValidator
  | none => v
  | some r =>
    match admitRotation X v r with
    | .error _ => v
    | .ok v' => v'

/-- `newKeyResolver`. -/
def newKeyResolver (anchor : TrustAnchor) : KeyRotationValidator :=
  anchor.rotations.foldl (resolveRotation X) (KeyRotationValidator.new anchor.validators anchor.blockIndex rotationConfig)

/-- `keysForCycle`: the map of the known validators to their keys. -/
def keysForCycle (v : KeyRotationValidator) (cycle : UInt64) (id : RootID) : Option (List (Arr 1952)) :=
  if id ∈ v.validators.keys then v.getActivePublicKey id cycle else none

/-! ## The checks -/

/-- `DegradedThreshold`. -/
def degradedThreshold : Nat := 4

/-- `isDegradedBlock`. -/
def isDegradedBlock (block : Block) : Bool := block.labelledDegraded

/-- `normalQuorum`. -/
def normalQuorum (n : Nat) : Nat := if n = 0 then 0 else (2 * n + 2) / 3

/-- `requiredQuorum`: one signature is enough below the threshold. -/
def requiredQuorum (n : Nat) : Nat := if n < degradedThreshold then 1 else normalQuorum n

/-- `indexOf`. -/
def indexOf (validators : List ValidatorInfo) (id : RootID) : Option Nat :=
  validators.findIdx? fun v => v.validatorID == id

/-- `checkValidatorSet`: the declared identities are the trusted ones. -/
def checkValidatorSet (declared trusted : List ValidatorInfo) : Except VerifyError Unit := do
  if declared.length ≠ trusted.length then throw .validatorSetMismatch
  if !(trusted.all fun v => (declared.map (·.validatorID)).contains v.validatorID) then throw .validatorSetMismatch

/-- The second step of `VerifyBlock`. -/
def checkLinkage (block : Block) (anchor : TrustAnchor) : Except VerifyError Unit :=
  match anchor.blockHash with
  | none => if block.index ≠ 0 then .error .chainBreak else .ok ()
  | some hash =>
    if block.index ≠ anchor.blockIndex + 1 then .error .chainBreak
    else if hash ≠ block.prevHash then .error .chainBreak
    else .ok ()

/-- The marked positions, ascending. -/
def markedPositions (bitmap : Bytes) : List Nat := (List.range (bitmap.length * 8)).filter (bitSet bitmap)

/-- `bitmapSigners`. -/
def bitmapSigners (block : Block) : Except VerifyError (List Nat) :=
  let signers := markedPositions block.prepareSigsBitmap
  if signers.length ≠ block.prepareSigs.length then .error .bitmapMismatch else .ok signers

/-- The first six steps of `VerifyBlock`; the result is the positions of the signers. -/
def checkContents (block : Block) (anchor : TrustAnchor) : Except VerifyError (List Nat) := do
  if block.protocolVersion ≠ 2 then throw .unsupportedVersion
  if anchor.validators.isEmpty then throw .noValidatorSet
  checkLinkage block anchor
  checkValidatorSet block.validators anchor.validators
  if computeBlockHash X block ≠ block.blockHash then throw .blockHashMismatch
  if (indexOf anchor.validators block.proposer).isNone then throw .unknownProposer
  let signers ← bitmapSigners block
  if anchor.validators.length < degradedThreshold ∧ !isDegradedBlock block then throw .degradedNotAnnounced
  if signers.length < requiredQuorum anchor.validators.length then throw .quorumNotMet
  return signers

/-- The keys of a map that are tried for a signature; an absent validator has none. -/
def verifiesUnder (keys : RootID → Option (List (Arr 1952))) (id : RootID) (msg sig : Bytes) : Bool :=
  ((keys id).getD []).any fun pk => verifyDilithium X pk msg sig

/-- The loop of the seventh step over the signatures and the positions they are attributed to. -/
def creditSigs (keys : RootID → Option (List (Arr 1952))) (validators : List ValidatorInfo) (hash : Bytes) :
    List (Bytes × Nat) → List Nat → Nat → Exit (Except VerifyError Nat)
  | [], _, distinct => .done (.ok distinct)
  | (sig, claimed) :: sigs, credited, distinct =>
    match validators[claimed]? with
    | none => .panic
    | some v =>
      if !verifiesUnder X keys v.validatorID hash sig then .done (.error .badSignature)
      else if claimed ∈ credited then .done (.error .quorumNotMet)
      else creditSigs keys validators hash sigs (claimed :: credited) (distinct + 1)

/-- The end of the seventh step, and the eighth. -/
def checkCommit (keys : RootID → Option (List (Arr 1952))) (block : Block) (required distinct : Nat) :
    Except VerifyError Unit := do
  if distinct < required then throw .quorumNotMet
  if (keys block.proposer).isNone then throw .unknownProposer
  if !verifiesUnder X keys block.proposer block.blockHash block.commitSig then throw .badSignature

/-- `VerifyBlock`; `none` is the nil block. -/
def verifyBlock (block : Option Block) (anchor : TrustAnchor) : Exit (Except VerifyError Unit) :=
  match block with
  | none => .done (.error .blockNotFound)
  | some block =>
    match checkContents X block anchor with
    | .error err => .done (.error err)
    | .ok signers =>
      let keys := keysForCycle (newKeyResolver X anchor) block.index
      match creditSigs X keys anchor.validators block.blockHash (block.prepareSigs.zip signers) [] 0 with
      | .panic => .panic
      | .done (.error err) => .done (.error err)
      | .done (.ok distinct) => .done (checkCommit X keys block (requiredQuorum anchor.validators.length) distinct)

/-- The client accepts the block. -/
def Accepts (anchor : TrustAnchor) (block : Block) : Prop := verifyBlock X (some block) anchor = .done (.ok ())

end Gleipnir.LightClient
