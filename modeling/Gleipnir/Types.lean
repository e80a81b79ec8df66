import Gleipnir.Bytes
import Mathlib.Data.List.AList
import Mathlib.Data.Rat.Init
import Mathlib.Algebra.Order.Ring.Rat

/-!
# The data of the protocol

The records of the packages `identity`, `chain` and `state`, with the fields that the modelled functions read or hash.
Floating-point fields are rationals; a Go map is an association list when it is counted or iterated.
-/

namespace Gleipnir

/-! ## `identity` -/

/-- `identity.UIDZeroSoulbound`: the identity and the keys of a node. -/
structure UIDZeroSoulbound where
  rootID : RootID
  /-- Dilithium3 public key. -/
  publicKey : Arr 1952
  secretKey : Bytes
  /-- Ristretto255 VRF public key. -/
  vrfPublicKey : Arr 32
  vrfSecretKey : Bytes
  contractHash : Hash
  deriving DecidableEq

/-- `UIDZeroSoulbound.ID`: the hexadecimal root identity. -/
def UIDZeroSoulbound.id (u : UIDZeroSoulbound) : String := hexEncode u.rootID.toList

theorem UIDZeroSoulbound.id_inj {u v : UIDZeroSoulbound} (h : u.id = v.id) : u.rootID = v.rootID :=
  List.Vector.toList_injective (hexEncode_inj h)

/-- `identity.VRFProof`: the output `gamma` and the proof. -/
structure VRFProof where
  gamma : Arr 32
  c : Arr 32
  s : Arr 32
  deriving DecidableEq

/-! ## `chain` -/

/-- `chain.ProvenanceEntry`. -/
structure ProvenanceEntry where
  hash : Hash
  submitter : RootID
  timestamp : Int64
  label : String
  approver : Option RootID := none
  reference : Option Hash := none
  signature : Bytes := []
  mandateRef : Option Hash := none
  deriving DecidableEq

/-- `chain.ValidatorInfo` and `state.ValidatorInfo`, which have the same fields. -/
structure ValidatorInfo where
  validatorID : RootID
  dilithium3PK : Arr 1952
  vrfPK : Arr 32
  contractHash : Hash
  deriving DecidableEq

/-- `chain.QuorumConfig`. -/
structure QuorumConfig where
  totalValidators : Int
  requiredSigs : Int
  deriving DecidableEq

/-- `chain.Block`. -/
structure Block where
  index : UInt64
  prevHash : Bytes
  stateRoot : Bytes
  proposer : RootID
  anchored : List ProvenanceEntry
  lambda1 : ℚ
  timestamp : Int64
  validators : List ValidatorInfo
  quorum : QuorumConfig
  blockHash : Bytes
  protocolVersion : UInt16
  prepareSigsBitmap : Bytes
  prepareSigs : List Bytes
  commitSig : Bytes
  externalAnchors : List String
  keyRotationEpoch : UInt64
  legacyAnchor : Bytes
  metadata : AList fun _ : String => Bytes
  deriving DecidableEq

/-- `chain.KeyRotationEntry`. -/
structure KeyRotationEntry where
  hash : Hash
  submitter : RootID
  timestamp : Int64
  label : String
  newPublicKey : Arr 1952
  newVRFPublicKey : Arr 32
  effectiveCycle : UInt64
  expiryCycle : UInt64
  signatureOld : Bytes
  signatureNew : Bytes
  deriving DecidableEq

/-- `chain.KeyRotationPayload`: what both signatures of a rotation cover. -/
structure KeyRotationPayload where
  label : String
  submitter : RootID
  newPublicKey : Arr 1952
  newVRFPublicKey : Arr 32
  effectiveCycle : UInt64
  expiryCycle : UInt64
  deriving DecidableEq

/-- A value of `Rule.Fields`; only a `float64` is a `number`, the integer types of Go are not. -/
inductive FieldValue where
  | number (q : ℚ)
  | integer (v : Int)
  | text (s : String)
  | texts (ss : List String)
  | flag (b : Bool)
  deriving DecidableEq

/-- `chain.Rule`. -/
structure Rule where
  eventClass : String
  description : String
  severityMin : ℚ
  severityMax : ℚ
  assetCriticalityMin : UInt64
  regulatoryScope : List String
  mandatory : Bool
  requiredFields : List String
  maxDeferralSec : UInt64
  fields : AList fun _ : String => FieldValue
  deriving DecidableEq

/-- `chain.MandateEntry`. -/
structure MandateEntry where
  id : Hash
  authority : RootID
  version : UInt64
  prevVersion : Hash
  validFrom : Int64
  validUntil : Int64
  supersedes : Hash
  rules : List Rule
  policyHash : Hash
  policyURI : Bytes
  signature : Bytes
  deriving DecidableEq

/-- `chain.AnchorProof`. -/
structure AnchorProof where
  found : Bool
  blockIndex : UInt64
  blockTime : Int64
  stateRoot : Bytes
  smtProof : Bytes
  submitter : RootID
  label : String
  deriving DecidableEq

/-! ## `state` -/

/-- `state.NodeState`. -/
structure NodeState where
  uid : RootID
  status : ℚ
  consecutive : UInt64 := 0
  joinCycle : UInt64 := 0
  dilithium3PK : Arr 1952 := Arr.zero 1952
  vrfPK : Arr 32 := Arr.zero 32
  deriving DecidableEq

/-- `state.Edge`. -/
structure Edge where
  source : String
  target : String
  weight : ℚ
  deriving DecidableEq

/-- `state.NetworkState`. -/
structure NetworkState where
  cycle : UInt64
  nodes : AList fun _ : String => NodeState
  graph : List Edge
  lambda1 : ℚ
  supervisionRoot : Hash
  validatorSet : List ValidatorInfo
  deriving DecidableEq

/-! ## `consensus` -/

/-- `consensus.Peer`. -/
structure Peer where
  uid : UIDZeroSoulbound
  addr : String
  alive : Bool
  deriving DecidableEq

/-- `consensus.Node`. -/
structure Node where
  uid : UIDZeroSoulbound
  addr : String
  deriving DecidableEq

/-- `consensus.BlockSig`: a PREPARE signature on the bus. -/
structure BlockSig where
  cycle : UInt64
  sig : Bytes
  signerID : String
  deriving DecidableEq

/-- `consensus.VRFProofMsg`: a serialised VRF proof on the bus. -/
structure VRFProofMsg where
  cycle : UInt64
  proof : Bytes
  signerID : String
  deriving DecidableEq

end Gleipnir
