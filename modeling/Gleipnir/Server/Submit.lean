import Gleipnir.Sample

/-!
# Submissions over gRPC

`SubmitHash` of `server/server.go`, with the registry of `identity/registry.go` and the payload of `identity/signature.go`
that a submission is signed over.

* `runs_submitHash`: a request is refused and leaves the queue alone, or it was authenticated and queues its entry.
* `binds_iff`: what the signature of a submission binds, and what it does not.
-/

namespace Gleipnir

open Atomic Atomic.Body

variable (X : Prims)

/-! ## Registered keys and signed payloads -/

/-- `identity.Registry`: the keys by the names of their owners, in memory and in the database behind it. -/
structure Registry where
  cache : String → Option Bytes
  db : Option (String → Option Bytes)

/-- `Registry.Lookup`. It also caches what it reads from the database, which no later lookup can tell. -/
def Registry.lookup (r : Registry) (rootID : String) : Option Bytes :=
  match r.cache rootID with
  | some pubKey => some pubKey
  | none => r.db.bind fun db => db rootID

/-- `CanonicalPayload`: the fields one after the other, without their lengths. -/
def canonicalPayload (hash submitter : Bytes) (timestamp : Int64) (label : String) : Bytes :=
  hash ++ submitter ++ le64 timestamp.toUInt64 ++ utf8 label

/-- `VerifySignature`; a key of the wrong length verifies nothing. -/
def verifySignature (pubKey hash submitter : Bytes) (timestamp : Int64) (label : String) (signature : Bytes) : Bool :=
  if pubKey.length ≠ 1952 then false
  else verifyDilithium X (Arr.copy 1952 pubKey) (canonicalPayload hash submitter timestamp label) signature

/-! ## Requests -/

/-- `pb.SubmitRequest`. -/
structure SubmitRequest where
  hash : Bytes
  submitter : Bytes
  signature : Bytes
  timestamp : Int64
  label : String
  approver : Bytes
  reference : Bytes
  deriving DecidableEq

/-- The errors of a submission. -/
inductive SubmitError where
  | unknownSubmitter
  | missingSignature
  | signatureMismatch
  | enqueue (err : CallError)
  deriving DecidableEq

/-- `validation.FromError` on the errors of `Enqueue`; only those of `validateEntry` carry a code. -/
def CallError.code : CallError → String
  | .invalidHash => "INVALID_HASH"
  | .invalidSubmitter => "INVALID_SUBMITTER"
  | .labelTooLong => "LABEL_TOO_LONG"
  | _ => ""

/-- `validation.FromError`. -/
def SubmitError.code : SubmitError → String
  | .unknownSubmitter => "SUBMITTER_MISMATCH"
  | .missingSignature => "INVALID_SIGNATURE"
  | .signatureMismatch => "INVALID_SIGNATURE"
  | .enqueue err => err.code

/-- The status of a response: pending, or the error. -/
inductive SubmitStatus where
  | pending
  | failed (err : SubmitError)
  deriving DecidableEq

/-- `pb.SubmitResponse`. -/
structure SubmitResponse where
  txId : Bytes
  accepted : Bool
  status : SubmitStatus
  errorCode : String := ""
  blockIndex : UInt64 := 0
  blockTime : Int64 := 0
  deriving DecidableEq

namespace SubmitRequest

/-- The bytes that the signature of the request is over. -/
def payload (req : SubmitRequest) : Bytes := canonicalPayload req.hash req.submitter req.timestamp req.label

/-- An optional field: absent if it is empty, and otherwise copied into its array. -/
def optional (n : Nat) (bs : Bytes) : Option (Arr n) := if bs.length > 0 then some (Arr.copy n bs) else none

/-- The entry that the request asks to anchor. -/
def entry (req : SubmitRequest) : ProvenanceEntry where
  hash := Arr.copy 32 req.hash
  submitter := Arr.copy 16 req.submitter
  timestamp := req.timestamp
  label := req.label
  approver := optional 16 req.approver
  reference := optional 32 req.reference
  signature := req.signature

/-- The response to a request that is not queued. -/
def refuse (req : SubmitRequest) (err : SubmitError) : SubmitResponse :=
  { txId := req.hash, accepted := false, status := .failed err, errorCode := err.code }

def accept (req : SubmitRequest) : SubmitResponse := { txId := req.hash, accepted := true, status := .pending }

end SubmitRequest

/-- `authenticateSubmit`. -/
def authenticateSubmit (registry : Registry) (req : SubmitRequest) : Except SubmitError Unit :=
  match registry.lookup (hexEncode req.submitter) with
  | none => .error .unknownSubmitter
  | some pubKey =>
    if req.signature.length = 0 then .error .missingSignature
    else if !verifySignature X pubKey req.hash req.submitter req.timestamp req.label req.signature then
      .error .signatureMismatch
    else .ok ()

/-- `SubmitHash`. -/
def submitHash (registry : Registry) (req : SubmitRequest) : EngineM SubmitResponse := do
  match authenticateSubmit X registry req with
  | .error err => return req.refuse err
  | .ok () =>
    match ← enqueue req.entry with
    | .error err => return req.refuse (.enqueue err)
    | .ok () => return req.accept

/-! ## What a request does -/

variable {req : SubmitRequest} {e e' : Engine} {t : Trace} {h₁ h₂ s : Bytes} {ts₁ ts₂ : Int64}

theorem authenticateSubmit_ok {registry : Registry} (h : authenticateSubmit X registry req = .ok ()) :
    ∃ pubKey, registry.lookup (hexEncode req.submitter) = some pubKey ∧
      verifySignature X pubKey req.hash req.submitter req.timestamp req.label req.signature = true := by
  unfold authenticateSubmit at h
  split at h
  · cases h
  · next pubKey hlookup =>
    split at h
    · cases h
    · split at h
      · cases h
      · next hverify => exact ⟨pubKey, hlookup, by simpa using hverify⟩

/-- The ways a request ends. -/
inductive SubmitResult (registry : Registry) (req : SubmitRequest) (e : Engine) : SubmitResponse → Engine → Prop
  | refused (err : SubmitError) {e' : Engine} (hqueue : e'.pending = e.pending) :
      SubmitResult registry req e (req.refuse err) e'
  | accepted {e' : Engine} (hauth : authenticateSubmit X registry req = .ok ())
      (hqueue : e'.pending = e.pending ++ [req.entry]) : SubmitResult registry req e req.accept e'

/-- **A request** is refused and leaves the queue alone, or it was authenticated and queues its entry. -/
theorem runs_submitHash {registry : Registry} {x : Exit SubmitResponse} (h : Runs (submitHash X registry req) e t x e') :
    ∃ r, x = .done r ∧ SubmitResult X registry req e r e' := by
  unfold submitHash at h
  cases hauth : authenticateSubmit X registry req with
  | error err =>
    simp only [hauth] at h
    obtain ⟨-, rfl, rfl⟩ := runs_pure.1 h
    exact ⟨_, rfl, .refused err rfl⟩
  | ok _ =>
    simp only [hauth] at h
    rcases runs_bind.1 h with ⟨t₁, r, e₁, t₂, -, h₁, h₂⟩ | ⟨-, h₁⟩
    · cases runs_enqueue h₁ with
      | refused err rateLimiter ht =>
        obtain ⟨-, rfl, rfl⟩ := runs_pure.1 h₂
        exact ⟨_, rfl, .refused _ rfl⟩
      | accepted a rateLimiter hadmits hu ht =>
        obtain ⟨-, rfl, rfl⟩ := runs_pure.1 h₂
        exact ⟨_, rfl, .accepted hauth rfl⟩
    · cases runs_enqueue h₁

theorem accepted_queues {registry : Registry} {r : SubmitResponse} (h : Runs (submitHash X registry req) e t (.done r) e')
    (haccepted : r.accepted = true) : authenticateSubmit X registry req = .ok () ∧ e'.pending = e.pending ++ [req.entry] := by
  obtain ⟨r', hr, hresult⟩ := runs_submitHash X h
  cases hr
  cases hresult with
  | refused err hqueue => cases haccepted
  | accepted hauth hqueue => exact ⟨hauth, hqueue⟩

/-! ## What a signature binds -/

/-- Two optional fields are read as the same value of `n` bytes. -/
def SameOptional (n : Nat) (a b : Bytes) : Prop := (a = [] ↔ b = []) ∧ Arr.copy n a = Arr.copy n b

theorem optional_eq_iff {n : Nat} {a b : Bytes} :
    SubmitRequest.optional n a = SubmitRequest.optional n b ↔ SameOptional n a b := by
  unfold SubmitRequest.optional SameOptional
  cases a with
  | nil =>
    cases b with
    | nil => simp
    | cons y b => simp
  | cons x a =>
    cases b with
    | nil => simp
    | cons y b => simp

/-- A payload determines its parts, if the length of one is known. -/
theorem canonicalPayload_inj {l₁ l₂ : String} (h : canonicalPayload h₁ s ts₁ l₁ = canonicalPayload h₂ s ts₂ l₂)
    (hlen : h₁.length = h₂.length) : h₁ = h₂ ∧ ts₁ = ts₂ ∧ l₁ = l₂ := by
  simp only [canonicalPayload, List.append_assoc] at h
  obtain ⟨hhash, hrest⟩ := List.append_inj h hlen
  obtain ⟨hts, hlabel⟩ := List.append_inj (List.append_cancel_left hrest) (by simp only [length_le64])
  exact ⟨hhash, congrArg Int64.ofUInt64 (le64_inj hts), utf8_inj hlabel⟩

/-- Payloads over the same label are over hashes of the same length. -/
theorem length_of_canonicalPayload {l : String} (h : canonicalPayload h₁ s ts₁ l = canonicalPayload h₂ s ts₂ l) :
    h₁.length = h₂.length := by
  have hlen := congrArg List.length h
  simp only [canonicalPayload, List.length_append, length_le64] at hlen
  omega

/-- **What the signature binds.** Two accepted requests with the same submitter and the same signature queue one and the
same entry exactly if their hashes are equally long and their approvers and references, which are not signed, agree. -/
theorem binds_iff {registry : Registry} {req₁ req₂ : SubmitRequest} (hsubmitter : req₁.submitter = req₂.submitter)
    (hsignature : req₁.signature = req₂.signature)
    (hone : ∀ pk, X.mldsaVerify pk req₁.payload req₁.signature = true →
      X.mldsaVerify pk req₂.payload req₁.signature = true → req₁.payload = req₂.payload)
    {e₁ e₁' e₂ e₂' : Engine} {t₁ t₂ : Trace} {r₁ r₂ : SubmitResponse}
    (h₁ : Runs (submitHash X registry req₁) e₁ t₁ (.done r₁) e₁') (haccepted₁ : r₁.accepted = true)
    (h₂ : Runs (submitHash X registry req₂) e₂ t₂ (.done r₂) e₂') (haccepted₂ : r₂.accepted = true) :
    e₁'.pending = e₁.pending ++ [req₁.entry] ∧ e₂'.pending = e₂.pending ++ [req₂.entry] ∧
      (req₁.entry = req₂.entry ↔ req₁.hash.length = req₂.hash.length ∧
        SameOptional 16 req₁.approver req₂.approver ∧ SameOptional 32 req₁.reference req₂.reference) := by
  obtain ⟨hauth₁, hqueue₁⟩ := accepted_queues X h₁ haccepted₁
  obtain ⟨hauth₂, hqueue₂⟩ := accepted_queues X h₂ haccepted₂
  obtain ⟨pk₁, hpk₁, hverify₁⟩ := authenticateSubmit_ok X hauth₁
  obtain ⟨pk₂, hpk₂, hverify₂⟩ := authenticateSubmit_ok X hauth₂
  -- both are checked against the one key of the submitter
  obtain rfl : pk₁ = pk₂ := by
    rw [hsubmitter, hpk₂] at hpk₁
    exact (Option.some.inj hpk₁).symm
  have hverified : ∀ req : SubmitRequest,
      verifySignature X pk₁ req.hash req.submitter req.timestamp req.label req.signature = true →
        X.mldsaVerify (Arr.copy 1952 pk₁) req.payload req.signature = true := by
    intro req h
    simp only [verifySignature, verifyDilithium] at h
    split at h
    · cases h
    · split at h
      · cases h
      · exact h
  have hpayload : req₁.payload = req₂.payload :=
    hone _ (hverified req₁ hverify₁) (hsignature ▸ hverified req₂ hverify₂)
  rw [SubmitRequest.payload, SubmitRequest.payload, hsubmitter] at hpayload
  refine ⟨hqueue₁, hqueue₂, ?_⟩
  simp only [SubmitRequest.entry, ProvenanceEntry.mk.injEq, optional_eq_iff, hsubmitter, hsignature, and_true, true_and]
  constructor
  · rintro ⟨-, -, hlabel, happrover, hreference⟩
    rw [hlabel] at hpayload
    exact ⟨length_of_canonicalPayload hpayload, happrover, hreference⟩
  · rintro ⟨hlen, happrover, hreference⟩
    obtain ⟨hhash, hts, hlabel⟩ := canonicalPayload_inj hpayload hlen
    exact ⟨by rw [hhash], hts, hlabel, happrover, hreference⟩

namespace Sample

/-- A signature that holds its message, with the length in front. -/
def enclose (k : UInt8) (msg : Bytes) : Bytes :=
  k :: le64 (UInt64.ofNat msg.length) ++ msg ++ List.replicate (3300 - msg.length) 0

/-- The instance with signatures that each verify for one message only. -/
def enclosing : Prims :=
  { prims with mldsaVerify := fun pk msg sig => msg.length ≤ 3300 && sig == enclose (pk.toList.headD 0) msg }

theorem enclosing_one (pk : Arr 1952) (m m' sig : Bytes) (h : enclosing.mldsaVerify pk m sig = true)
    (h' : enclosing.mldsaVerify pk m' sig = true) : m = m' := by
  simp only [enclosing, Bool.and_eq_true, decide_eq_true_eq, beq_iff_eq] at h h'
  have heq := h.2.symm.trans h'.2
  simp only [enclose, List.cons_append, List.cons.injEq, true_and, List.append_assoc] at heq
  obtain ⟨hlen, hrest⟩ := List.append_inj heq (by simp only [length_le64])
  have hlen := congrArg UInt64.toNat (le64_inj hlen)
  simp only [UInt64.toNat_ofNat'] at hlen
  exact (List.append_inj hrest (by omega)).1

/-- The registry of a node that knows the first validator. -/
def registry : Registry := ⟨fun id => if id = (uid 1).id then some (uid 1).publicKey.toList else none, none⟩

/-- A submission of the first validator; the approver is not signed. -/
def submission (approver : Bytes) : SubmitRequest :=
  let draft : SubmitRequest := {
    hash := (entry 9).hash.toList
    submitter := (uid 1).rootID.toList
    signature := []
    timestamp := 1
    label := "release"
    approver
    reference := [] }
  { draft with signature := enclose 1 draft.payload }

theorem submission_signed (a b : Bytes) : (submission a).submitter = (submission b).submitter ∧
    (submission a).signature = (submission b).signature ∧ (submission a).payload = (submission b).payload :=
  ⟨rfl, rfl, rfl⟩

/-- The result of the submission at the node of the first validator. -/
def submitted (approver : Bytes) : (Exit SubmitResponse × Engine) × Trace × MemoryBus :=
  serveOn MemoryBus.new (submitHash enclosing registry (submission approver) (two 1))

theorem runs_submitted {approver : Bytes} {r : SubmitResponse} (h : (submitted approver).1.1 = .done r) :
    Runs (submitHash enclosing registry (submission approver)) (two 1) (submitted approver).2.1 (.done r)
      (submitted approver).1.2 := by
  unfold submitted at h ⊢
  exact runs_serveOn _ _ _ h

def bareAccepted : Computed (submitted []) fun x => x.1.1 = .done (submission []).accept :=
  computed _ (by decide +kernel)

def approvedAccepted : Computed (submitted [7]) fun x => x.1.1 = .done (submission [7]).accept :=
  computed _ (by decide +kernel)

def paddedAccepted : Computed (submitted [7, 0]) fun x => x.1.1 = .done (submission [7, 0]).accept :=
  computed _ (by decide +kernel)

/-- An approver and the same one with a zero byte after it are queued as one entry. -/
theorem padded_approver : (submitted [7]).1.2.pending = (two 1).pending ++ [(submission [7]).entry] ∧
    (submitted [7, 0]).1.2.pending = (two 1).pending ++ [(submission [7, 0]).entry] ∧
    (submission [7]).entry = (submission [7, 0]).entry := by
  obtain ⟨x, hx, h₁⟩ := approvedAccepted
  obtain ⟨y, hy, h₂⟩ := paddedAccepted
  rw [hx] at h₁
  rw [hy] at h₂
  obtain ⟨hsubmitter, hsignature, hpayload⟩ := submission_signed [7] [7, 0]
  obtain ⟨hqueue₁, hqueue₂, hentry⟩ :=
    binds_iff enclosing hsubmitter hsignature (fun _ _ _ => hpayload) (runs_submitted h₁) rfl (runs_submitted h₂) rfl
  exact ⟨hqueue₁, hqueue₂, hentry.2 ⟨rfl, ⟨by simp [submission], rfl⟩, ⟨Iff.rfl, rfl⟩⟩⟩

/-- The approver can be changed under the signature. -/
theorem approver_unbound : (∀ pk m m' sig, enclosing.mldsaVerify pk m sig = true →
      enclosing.mldsaVerify pk m' sig = true → m = m') ∧
    ∃ registry req₁ req₂ e₁ e₁' e₂ e₂' t₁ t₂ r₁ r₂,
      Runs (submitHash enclosing registry req₁) e₁ t₁ (.done r₁) e₁' ∧ r₁.accepted = true ∧
      Runs (submitHash enclosing registry req₂) e₂ t₂ (.done r₂) e₂' ∧ r₂.accepted = true ∧
      req₁.submitter = req₂.submitter ∧ req₁.signature = req₂.signature ∧
      e₁'.pending = e₁.pending ++ [req₁.entry] ∧ e₂'.pending = e₂.pending ++ [req₂.entry] ∧
      req₁.entry.approver ≠ req₂.entry.approver := by
  obtain ⟨x, hx, h₁⟩ := bareAccepted
  obtain ⟨y, hy, h₂⟩ := approvedAccepted
  rw [hx] at h₁
  rw [hy] at h₂
  have hruns₁ := runs_submitted h₁
  have hruns₂ := runs_submitted h₂
  obtain ⟨hsubmitter, hsignature, -⟩ := submission_signed [] [7]
  exact ⟨enclosing_one, registry, submission [], submission [7], _, _, _, _, _, _, _, _, hruns₁, rfl, hruns₂, rfl,
    hsubmitter, hsignature, (accepted_queues enclosing hruns₁ rfl).2, (accepted_queues enclosing hruns₂ rfl).2,
    fun h => by cases h⟩

end Sample

end Gleipnir
