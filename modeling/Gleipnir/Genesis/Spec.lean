import Gleipnir.Chain
import Gleipnir.Lib.Guard
import Gleipnir.Lib.Prog

/-!
# The genesis generator

`cmd/genesis/main.go`: the specification of a network as the operator writes it, the checks on it, the consensus parameters in
its mandate, and the block that is built from it. A specification also comes from the snapshot of a network of version 1
(`importV1Snapshot`). Reading and parsing the files is left out, and so is the sparse Merkle tree that `BuildGenesisBlock`
makes and does not use.

The conversions of a `float64` to the integer types are parameters, since Go leaves what they do out of range to the
implementation. Where the code slices or indexes out of range it panics. `validate_ok_iff` says what `Validate` accepts.
-/

namespace Gleipnir.Genesis

open Atomic Guard

/-! ## Specifications -/

/-- `ValidatorSpec`; the fields are hexadecimal texts. -/
structure ValidatorSpec where
  uid0PubKey : String
  vrfPubKey : String
  contractHash : String
  deriving DecidableEq

/-- `MandateRuleSpec`. -/
structure MandateRuleSpec where
  eventClass : String
  fields : AList fun _ : String => FieldValue
  deriving DecidableEq

/-- `MandateSpec`. -/
structure MandateSpec where
  label : String
  rules : List MandateRuleSpec
  deriving DecidableEq

/-- `GenesisSpec`. -/
structure GenesisSpec where
  networkName : String
  createdAt : Int64
  validators : List ValidatorSpec
  mandate : MandateSpec
  legacyAnchor : String
  deriving DecidableEq

/-- The errors of `Validate` and `BuildGenesisBlock`, with what their texts name. -/
inductive GenesisError where
  | networkNameRequired
  | createdAtNotPositive
  | noValidators
  | tooFewValidators (count : Nat) (minValidators : UInt64)
  | uid0PubKeyRequired (i : Nat)
  | invalidUID0PubKey (i : Nat)
  | vrfPubKeyRequired (i : Nat)
  | invalidVRFPubKey (i : Nat)
  | mandateLabel
  | noRules
  | invalidFirstPubKey
  | invalidContractHash (i : Nat)
  | invalidLegacyAnchor
  | legacyAnchorLength (length : Nat)
  deriving DecidableEq

/-! ## Consensus parameters -/

/-- The conversions `uint64(v)` and `int(v)` of a `float64`. -/
structure FloatConv where
  toUInt64 : ℚ → UInt64
  toInt : ℚ → Int64

/-- `ConsensusConfig`. -/
structure ConsensusConfig where
  graceCycles : UInt64
  minValidators : UInt64
  baseIntervalMs : UInt64
  maxCycleDurationMs : UInt64
  lambdaInterval : UInt64
  minLambda1 : ℚ
  keyRotationLeadTime : UInt64
  minKeyOverlap : UInt64
  maxPendingTTL : UInt64
  batchVerifyWorkers : Int64
  deriving DecidableEq

def consensusConfigClass : String := "3cp:consensus-config"

/-- `fields[name].(float64)`. -/
def floatField (fields : AList fun _ : String => FieldValue) (name : String) : Option ℚ :=
  match fields.lookup name with
  | some (.number q) => some q
  | _ => none

variable (C : FloatConv)

/-- `fields[name]` as a `uint64`, if it is a `float64`. -/
def uintField (fields : AList fun _ : String => FieldValue) (name : String) : Option UInt64 :=
  (floatField fields name).map C.toUInt64

/-- The loop of `GetMinValidators`: the first rule that says it. -/
def firstMinValidators : List MandateRuleSpec → UInt64
  | [] => 4
  | rule :: rules =>
    if rule.eventClass = consensusConfigClass then
      match uintField C rule.fields "MinValidators" with
      | some v => v
      | none => firstMinValidators rules
    else firstMinValidators rules

/-- `MandateSpec.GetMinValidators`. -/
def MandateSpec.getMinValidators (m : MandateSpec) : UInt64 := firstMinValidators C m.rules

/-- What `ExtractConsensusConfig` starts from. -/
def ConsensusConfig.default : ConsensusConfig where
  graceCycles := 10
  minValidators := 4
  baseIntervalMs := 3000
  maxCycleDurationMs := 10000
  lambdaInterval := 10
  minLambda1 := 0.01
  keyRotationLeadTime := 10
  minKeyOverlap := 10
  maxPendingTTL := 100
  batchVerifyWorkers := 0

/-- Take over what the fields of a rule say. -/
def ConsensusConfig.read (cfg : ConsensusConfig) (fields : AList fun _ : String => FieldValue) : ConsensusConfig where
  graceCycles := (uintField C fields "GraceCycles").getD cfg.graceCycles
  minValidators := (uintField C fields "MinValidators").getD cfg.minValidators
  baseIntervalMs := (uintField C fields "BaseIntervalMs").getD cfg.baseIntervalMs
  maxCycleDurationMs := (uintField C fields "MaxCycleDurationMs").getD cfg.maxCycleDurationMs
  lambdaInterval := (uintField C fields "LambdaInterval").getD cfg.lambdaInterval
  minLambda1 := (floatField fields "MinLambda1").getD cfg.minLambda1
  keyRotationLeadTime := (uintField C fields "KeyRotationLeadTime").getD cfg.keyRotationLeadTime
  minKeyOverlap := (uintField C fields "MinKeyOverlap").getD cfg.minKeyOverlap
  maxPendingTTL := (uintField C fields "MaxPendingTTL").getD cfg.maxPendingTTL
  batchVerifyWorkers := ((floatField fields "BatchVerifyWorkers").map C.toInt).getD cfg.batchVerifyWorkers

/-- The body of the loop of `ExtractConsensusConfig`. -/
def ConsensusConfig.readRule (cfg : ConsensusConfig) (rule : MandateRuleSpec) : ConsensusConfig :=
  if rule.eventClass = consensusConfigClass then cfg.read C rule.fields else cfg

/-- `GenesisSpec.ExtractConsensusConfig`, which does not fail. -/
def GenesisSpec.extractConsensusConfig (s : GenesisSpec) : ConsensusConfig :=
  s.mandate.rules.foldl (ConsensusConfig.readRule C) .default

/-- The body of the loop of `consensus.GetConsensusConfig`. -/
def readMinimum (cfg : UInt64 × UInt64) (eventClass : String) (fields : AList fun _ : String => FieldValue) : UInt64 × UInt64 :=
  if eventClass = consensusConfigClass then
    ((uintField C fields "MinValidators").getD cfg.1, (uintField C fields "GraceCycles").getD cfg.2)
  else cfg

/-- `consensus.GetConsensusConfig`: the minimal number of validators and the grace cycles of a mandate of the chain. -/
def getConsensusConfig (mandate : MandateEntry) : UInt64 × UInt64 :=
  mandate.rules.foldl (fun cfg rule => readMinimum C cfg rule.eventClass rule.fields) (4, 10)

/-! ## `Validate` -/

/-- The checks on one validator. -/
def validateValidator (i : Nat) (v : ValidatorSpec) : Except GenesisError Unit := do
  if v.uid0PubKey = "" then throw (.uid0PubKeyRequired i)
  if hexDecode v.uid0PubKey = none then throw (.invalidUID0PubKey i)
  if v.vrfPubKey = "" then throw (.vrfPubKeyRequired i)
  if hexDecode v.vrfPubKey = none then throw (.invalidVRFPubKey i)

def validateValidators : Nat → List ValidatorSpec → Except GenesisError Unit
  | _, [] => .ok ()
  | i, v :: vs => do
    validateValidator i v
    validateValidators (i + 1) vs

/-- `GenesisSpec.Validate`. -/
def GenesisSpec.validate (s : GenesisSpec) : Except GenesisError Unit := do
  if s.networkName = "" then throw .networkNameRequired
  if s.createdAt ≤ 0 then throw .createdAtNotPositive
  if s.validators = [] then throw .noValidators
  let minValidators := s.mandate.getMinValidators C
  if UInt64.ofNat s.validators.length < minValidators then
    throw (.tooFewValidators s.validators.length minValidators)
  validateValidators 0 s.validators
  if s.mandate.label ≠ "3cp:mandate:v1" then throw .mandateLabel
  if s.mandate.rules = [] then throw .noRules

/-- The keys of a validator are given and hexadecimal. -/
structure Readable (v : ValidatorSpec) : Prop where
  pubKey : v.uid0PubKey ≠ ""
  pubKeyHex : hexDecode v.uid0PubKey ≠ none
  vrfPubKey : v.vrfPubKey ≠ ""
  vrfPubKeyHex : hexDecode v.vrfPubKey ≠ none

/-- What `Validate` checks. -/
structure Valid (s : GenesisSpec) : Prop where
  networkName : s.networkName ≠ ""
  createdAt : ¬ s.createdAt ≤ 0
  validators : s.validators ≠ []
  enough : ¬ UInt64.ofNat s.validators.length < s.mandate.getMinValidators C
  readable : ∀ v ∈ s.validators, Readable v
  label : s.mandate.label = "3cp:mandate:v1"
  rules : s.mandate.rules ≠ []

variable {C}

theorem validateValidator_ok_iff {i : Nat} {v : ValidatorSpec} : validateValidator i v = .ok () ↔ Readable v := by
  simp only [validateValidator, ↓throw_bind, ite_throw_eq_ok, pure_eq_ok, and_true]
  exact ⟨fun h => ⟨h.1, h.2.1, h.2.2.1, h.2.2.2⟩, fun h => ⟨h.pubKey, h.pubKeyHex, h.vrfPubKey, h.vrfPubKeyHex⟩⟩

theorem validateValidators_ok_iff {vs : List ValidatorSpec} :
    ∀ {i : Nat}, validateValidators i vs = .ok () ↔ ∀ v ∈ vs, Readable v := by
  induction vs with
  | nil => exact fun {i} => iff_of_true rfl fun _ hv => absurd hv List.not_mem_nil
  | cons v vs ih =>
    intro i
    rw [validateValidators, bind_eq_ok, List.forall_mem_cons, ← ih (i := i + 1), ← validateValidator_ok_iff (i := i)]
    constructor
    · rintro ⟨_, h⟩
      exact h
    · exact fun h => ⟨(), h⟩

/-- **The accepted specifications.** -/
theorem validate_ok_iff {s : GenesisSpec} : s.validate C = .ok () ↔ Valid C s := by
  simp only [GenesisSpec.validate, ↓throw_bind, ite_throw_eq_ok, bind_eq_ok, pure_eq_ok, and_true, not_not]
  constructor
  · rintro ⟨hname, hcreated, hsome, henough, _, hreadable, hlabel, hrules⟩
    exact ⟨hname, hcreated, hsome, henough, validateValidators_ok_iff.1 hreadable, hlabel, hrules⟩
  · intro h
    exact ⟨h.networkName, h.createdAt, h.validators, h.enough, (), validateValidators_ok_iff.2 h.readable, h.label, h.rules⟩

/-! ## `BuildGenesisBlock` -/

/-- `quorumRequired` of the generator. -/
def quorumRequired (n : Nat) : Nat := (2 * n + 2) / 3

/-- The proposer that `BuildGenesisBlock` reads first and does not use: the start of the first key, sliced as `pk[:16]`. -/
def firstProposer (s : GenesisSpec) : Exit (Except GenesisError RootID) :=
  match s.validators with
  | [] => .done (.ok (Arr.zero 16))
  | first :: _ =>
    match hexDecode first.uid0PubKey with
    | none => .done (.error .invalidFirstPubKey)
    | some pk => if pk.length < 16 then .panic else .done (.ok (Arr.copy 16 (pk.take 16)))

/-- The contract hash of a validator; none is zero. -/
def readContractHash (i : Nat) (v : ValidatorSpec) : Except GenesisError Hash :=
  if v.contractHash = "" then .ok (Arr.zero 32)
  else match hexDecode v.contractHash with
    | none => .error (.invalidContractHash i)
    | some ch => .ok (Arr.copy 32 ch)

/-- One validator of the block; what it is given is copied into arrays of fixed length. -/
def validatorInfo (i : Nat) (v : ValidatorSpec) : Except GenesisError ValidatorInfo := do
  let some pubKey := hexDecode v.uid0PubKey | throw (.invalidUID0PubKey i)
  let pk : Arr 1952 := Arr.copy 1952 pubKey
  let some vrfPubKey := hexDecode v.vrfPubKey | throw (.invalidVRFPubKey i)
  let contractHash ← readContractHash i v
  return ⟨Arr.copy 16 (pk.toList.take 16), pk, Arr.copy 32 vrfPubKey, contractHash⟩

def validatorInfos : Nat → List ValidatorSpec → Except GenesisError (List ValidatorInfo)
  | _, [] => .ok []
  | i, v :: vs => do
    let info ← validatorInfo i v
    let infos ← validatorInfos (i + 1) vs
    return info :: infos

/-- The legacy anchor; none is empty. -/
def GenesisSpec.readLegacyAnchor (s : GenesisSpec) : Except GenesisError Bytes :=
  if s.legacyAnchor = "" then .ok []
  else match hexDecode s.legacyAnchor with
    | none => .error .invalidLegacyAnchor
    | some legacyBytes =>
      if legacyBytes.length ≠ 32 then .error (.legacyAnchorLength legacyBytes.length) else .ok legacyBytes

/-- The block before its hash; `CreatedAt * 1e9` is in `int64`. -/
def GenesisSpec.draft (s : GenesisSpec) (proposer : ValidatorInfo) (validators : List ValidatorInfo) (legacyAnchor : Bytes) :
    Block where
  index := 0
  prevHash := List.replicate 32 0
  stateRoot := List.replicate 32 0
  proposer := Arr.copy 16 (proposer.dilithium3PK.toList.take 16)
  anchored := []
  lambda1 := 0
  timestamp := s.createdAt * 1000000000
  validators := validators
  quorum := ⟨s.validators.length, quorumRequired s.validators.length⟩
  blockHash := []
  protocolVersion := 2
  prepareSigsBitmap := []
  prepareSigs := []
  commitSig := []
  externalAnchors := []
  keyRotationEpoch := 0
  legacyAnchor := legacyAnchor
  metadata := ∅

variable (X : Prims)

/-- What `computeBlockHash` of the generator hashes. -/
def genesisInput (b : Block) : Bytes :=
  le64 b.index ++ b.prevHash ++ b.stateRoot ++ b.proposer.toList ++ b.anchored.flatMap (·.hash.toList) ++
    le64 b.timestamp.toUInt64

/-- `computeBlockHash` of the generator, which is not that of the package `chain`. -/
def computeBlockHash (b : Block) : Bytes := (X.sha256 (genesisInput b)).toList

/-- The end of `BuildGenesisBlock`. -/
def GenesisSpec.finish (s : GenesisSpec) (proposer : ValidatorInfo) (validators : List ValidatorInfo) :
    Except GenesisError Block := do
  let legacyAnchor ← s.readLegacyAnchor
  let block := s.draft proposer validators legacyAnchor
  return { block with blockHash := computeBlockHash X block }

/-- The part of `BuildGenesisBlock` after the first key is sliced; `validators[0]` may not be there. -/
def GenesisSpec.assemble (s : GenesisSpec) : Exit (Except GenesisError Block) :=
  match validatorInfos 0 s.validators with
  | .error err => .done (.error err)
  | .ok [] => .panic
  | .ok (proposer :: rest) => .done (s.finish X proposer (proposer :: rest))

/-- `BuildGenesisBlock`; the consensus parameters go unused. -/
def buildGenesisBlock (s : GenesisSpec) (_consensusCfg : ConsensusConfig) : Exit (Except GenesisError Block) :=
  match firstProposer s with
  | .panic => .panic
  | .done (.error err) => .done (.error err)
  | .done (.ok _) => s.assemble X

/-! ## Snapshots of version 1 -/

/-- `V1Rule`, without its description. -/
structure V1Rule where
  eventClass : String
  severityMin : ℚ
  severityMax : ℚ
  assetCriticalityMin : UInt64
  regulatoryScope : List String
  mandatory : Bool
  requiredFields : List String
  maxDeferralSec : UInt64

/-- What `importV1Snapshot` reads of a `V1Snapshot`: the last hash, the validators and the rules of each mandate. -/
structure V1Snapshot where
  lastBlockHash : String
  validatorSet : List ValidatorSpec
  activeMandates : List (List V1Rule)

/-- The rules that every converted mandate starts with; their numbers are Go integers, but for `MinLambda1`. -/
def defaultRules : List MandateRuleSpec :=
  [⟨consensusConfigClass, [⟨"GraceCycles", .integer 10⟩, ⟨"MinValidators", .integer 4⟩, ⟨"BaseIntervalMs", .integer 3000⟩,
      ⟨"MaxCycleDurationMs", .integer 10000⟩, ⟨"LambdaInterval", .integer 10⟩, ⟨"MinLambda1", .number 0.01⟩,
      ⟨"KeyRotationLeadTime", .integer 10⟩, ⟨"MinKeyOverlap", .integer 10⟩, ⟨"MaxPendingTTL", .integer 100⟩,
      ⟨"BatchVerifyWorkers", .integer 0⟩].toAList⟩,
    ⟨"3cp:anchor-config", [⟨"Mode", .text "designated"⟩, ⟨"MinRedundancy", .integer 2⟩,
      ⟨"AllowedSchemes", .texts ["ipfs", "file"]⟩].toAList⟩,
    ⟨"3cp:protocol-version", [⟨"MinProtocolVersion", .integer 2⟩, ⟨"MaxProtocolVersion", .integer 2⟩].toAList⟩]

/-- A rule of version 1 that is kept. -/
def V1Rule.toSpec (r : V1Rule) : MandateRuleSpec :=
  ⟨r.eventClass, [⟨"SeverityMin", .number r.severityMin⟩, ⟨"SeverityMax", .number r.severityMax⟩,
    ⟨"AssetCriticalityMin", .integer r.assetCriticalityMin.toNat⟩, ⟨"RegulatoryScope", .texts r.regulatoryScope⟩,
    ⟨"Mandatory", .flag r.mandatory⟩, ⟨"RequiredFields", .texts r.requiredFields⟩,
    ⟨"MaxDeferralSec", .integer r.maxDeferralSec.toNat⟩].toAList⟩

/-- `convertMandates`. -/
def convertMandates (v1Mandates : List (List V1Rule)) : MandateSpec where
  label := "3cp:mandate:v1"
  rules := defaultRules ++ v1Mandates.flatMap fun rules =>
    rules.filterMap fun r =>
      if r.eventClass = "release_gate" ∨ r.eventClass = "exception_grant" then some r.toSpec else none

/-- `importV1Snapshot`, at the time `now` in seconds. -/
def importV1Snapshot (snapshot : V1Snapshot) (now : Int64) : GenesisSpec where
  networkName := "3cp-migrated-v2"
  createdAt := now
  validators := snapshot.validatorSet
  mandate := convertMandates snapshot.activeMandates
  legacyAnchor := snapshot.lastBlockHash

end Gleipnir.Genesis
