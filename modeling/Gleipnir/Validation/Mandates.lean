import Gleipnir.Chain

/-!
# Mandates

`validation/mandate_resolver.go`, `mandate_validator.go` and `mandate_authority.go`: the mandates a node knows and what it
answers about them, what an entry that names a mandate has to meet before it is queued, and what makes a mandate body
authentic.
-/

namespace Gleipnir

variable (X : Prims)

/-- The sentinels that the errors of the mandate checks wrap. -/
inductive MandateError where
  | hashMismatch
  | signature
  | authorityMismatch
  | notFound
  | expired
  | missingRequiredField
  deriving DecidableEq

/-- `validation.MandateResolver`. -/
abbrev MandateResolver : Type := AList fun _ : Hash => MandateEntry

/-- `bytesLess`. -/
def bytesLess : Bytes → Bytes → Bool
  | [], b => 0 < b.length
  | _ :: _, [] => false
  | x :: a, y :: b => if x ≠ y then x < y else bytesLess a b

namespace MandateResolver

/-- `MandateResolver.Put`: the identifier is recomputed. -/
def put (r : MandateResolver) (mandate : MandateEntry) : MandateResolver :=
  r.insert (mandate.mandateID X) { mandate with id := mandate.mandateID X }

/-- `NewMandateResolver`. -/
def newMandateResolver (mandates : List MandateEntry) : MandateResolver := mandates.foldl (put X) ∅

def getMandateByID (r : MandateResolver) (id : Hash) : Option MandateEntry := r.lookup id

/-- `All`: ordered by identifier. -/
def all (r : MandateResolver) : List MandateEntry :=
  (r.entries.map (·.2)).insertionSort fun m n => bytesLess n.id.toList m.id.toList = false

/-- `GetActiveMandates`: whatever a known mandate supersedes is dropped. -/
def getActiveMandates (r : MandateResolver) (timestamp : Int64) : List MandateEntry :=
  let superseded := (r.all.map (·.supersedes)).filter (· ≠ Arr.zero 32)
  r.all.filter fun m => m.id ∉ superseded && m.isActiveAt timestamp

/-- `GetMandateByReference`. -/
def getMandateByReference (r : MandateResolver) : Option Hash → Option MandateEntry
  | none => none
  | some ref => r.getMandateByID ref

/-- `GetLatestVersion`: the first of the highest versions in the lineage of `root`. -/
def getLatestVersion (r : MandateResolver) (root : Hash) : Option MandateEntry :=
  (r.all.filter fun m => m.id = root || m.prevVersion = root || m.supersedes = root).foldl (fun latest m =>
    match latest with
    | none => some m
    | some l => if l.version < m.version then some m else some l) none

end MandateResolver

/-- `entryMatchesRule`: a rule without an event class governs every entry. -/
def entryMatchesRule (entry : ProvenanceEntry) (rule : Rule) : Bool :=
  rule.eventClass == "" || entry.label == rule.eventClass

/-- `entryHasField`: an unknown field name counts as populated. -/
def entryHasField (entry : ProvenanceEntry) : String → Bool
  | "Approver" => entry.approver.isSome
  | "Reference" => entry.reference.isSome
  | "Signature" => 0 < entry.signature.length
  | "MandateRef" => entry.mandateRef.isSome
  | "Label" => entry.label != ""
  | "Submitter" => entry.submitter != Arr.zero 16
  | "Hash" => entry.hash != Arr.zero 32
  | _ => true

/-- `ValidateEntryAgainstMandates`. -/
def validateEntryAgainstMandates (r : MandateResolver) (entry : ProvenanceEntry) (timestamp : Int64) :
    Except MandateError Unit :=
  match entry.mandateRef with
  | none => .ok ()
  | some ref =>
    match r.lookup ref with
    | none => .error .notFound
    | some mandate =>
      if !mandate.isActiveAt timestamp then .error .expired
      else if (mandate.rules.filter (entryMatchesRule entry)).all fun rule =>
        rule.requiredFields.all (entryHasField entry) then .ok ()
      else .error .missingRequiredField

/-- `ValidateMandateAuthority`. -/
def validateMandateAuthority (mandate : MandateEntry) (lookup : RootID → Option (Arr 1952)) :
    Except MandateError Unit :=
  if !mandate.verifyHash X then .error .hashMismatch
  else if mandate.signature.length ≠ dilithium3SignatureSize then .error .signature
  else match lookup mandate.authority with
    | none => .error .authorityMismatch
    | some publicKey => if mandate.verifyAuthoritySignature X publicKey then .ok () else .error .signature

end Gleipnir
