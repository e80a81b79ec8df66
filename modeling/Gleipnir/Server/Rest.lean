import Gleipnir.Server.Submit

/-!
# Submissions over HTTP

The authentication and the submit handler of `rest/server.go`, and who is accountable for what a client submits through
either interface.

* `runs_authenticate`: the requests that are authenticated, check by check.
* `accountable_iff`: whether a queued entry is attributed to the identity whose key verified the request. Over gRPC the
  signed submitter is the one that is looked up; over HTTP the submitter is whatever the body says.
-/

namespace Gleipnir

open Atomic Atomic.Body

variable (X : Prims)

/-! ## The server -/

/-- `perRootLimiter`: the times of the requests of each root, in seconds. -/
structure PerRootLimiter where
  windows : String → List Int
  maxReq : Int
  windowDur : Int

/-- `perRootLimiter.Allow` at the time `now`. -/
def PerRootLimiter.allow (rl : PerRootLimiter) (rootID : String) (now : Int) : Bool × PerRootLimiter :=
  let valid := (rl.windows rootID).filter fun t => now - rl.windowDur ≤ t
  if rl.maxReq ≤ valid.length then (false, { rl with windows := Function.update rl.windows rootID valid })
  else (true, { rl with windows := Function.update rl.windows rootID (valid ++ [now]) })

/-- `rest.Server`. Each identity is filed under its own name. -/
structure RestServer where
  keys : String → Option UIDZeroSoulbound
  named : ∀ name uid, keys name = some uid → uid.id = name
  allowedRoots : List String
  rateLimiter : PerRootLimiter

namespace RestServer

/-- File an identity under its name. -/
def register (s : RestServer) (uid : UIDZeroSoulbound) : RestServer where
  keys := Function.update s.keys uid.id (some uid)
  named := by
    intro name u h
    by_cases hname : name = uid.id
    · rw [hname, Function.update_self] at h
      rw [hname, ← Option.some.inj h]
    · rw [Function.update_of_ne hname] at h
      exact s.named name u h
  allowedRoots := s.allowedRoots
  rateLimiter := s.rateLimiter

@[simp] theorem register_keys (s : RestServer) (uid : UIDZeroSoulbound) : (s.register uid).keys uid.id = some uid := by
  simp [register]

/-- `NewServer` for the node `nodeUID`, with the identities that `loadKeysDir` admits. -/
def new (nodeUID : UIDZeroSoulbound) (loaded : List UIDZeroSoulbound) (allowedRoots : List String) (maxReq : Int) :
    RestServer :=
  loaded.foldl register (register {
    keys := fun _ => none
    named := fun _ _ h => by cases h
    allowedRoots
    rateLimiter := ⟨fun _ => [], maxReq, 60⟩ } nodeUID)

end RestServer

/-! ## Authentication -/

/-- An HTTP request; an absent header is empty, and a body that cannot be read is `none`. -/
structure HTTPRequest where
  method : String
  path : String
  rootID : String
  signature : String
  timestamp : String
  body : Option Bytes

/-- The text that the client signs. -/
def HTTPRequest.signed (r : HTTPRequest) (body : Bytes) : Bytes :=
  body ++ utf8 "||" ++ utf8 r.method ++ utf8 "||" ++ utf8 r.path ++ utf8 "||" ++ utf8 r.timestamp

/-- The number that decimal digits write, after `acc`. -/
def digitsValue : List Char → Nat → Option Nat
  | [], acc => some acc
  | c :: cs, acc => if '0' ≤ c ∧ c ≤ '9' then digitsValue cs (10 * acc + (c.toNat - 48)) else none

/-- `strconv.ParseInt(s, 10, 64)`. -/
def parseInt (s : String) : Option Int64 :=
  let parse (negative : Bool) (digits : List Char) : Option Int64 :=
    if digits = [] then none
    else match digitsValue digits 0 with
      | none => none
      | some n =>
        if negative then if n ≤ 2 ^ 63 then some (Int64.ofInt (-n)) else none
        else if n < 2 ^ 63 then some (Int64.ofInt n) else none
  match s.toList with
  | '-' :: digits => parse true digits
  | '+' :: digits => parse false digits
  | digits => parse false digits

/-- `time.Unix` of a time in nanoseconds. -/
def unixSeconds (now : Int) : Int := now / 1000000000

/-- The distance of a timestamp from the time `now`, in seconds; the difference wraps around. -/
def timestampSkew (now : Int) (ts : Int64) : Nat := (Int64.ofInt now - ts).toInt.natAbs

def maxTimestampSkew : Nat := 30

/-- The errors of `authenticate`. -/
inductive AuthError where
  | missingHeaders
  | invalidTimestamp
  | staleTimestamp
  | unknownRoot
  | unreadableBody
  | signatureEncoding
  | invalidSignature
  deriving DecidableEq

/-- The checks of `authenticate` on a request with the timestamp `ts`, at the time `now` in seconds. -/
def RestServer.checkRequest (s : RestServer) (r : HTTPRequest) (ts : Int64) (now : Int) : Except AuthError Bytes :=
  if maxTimestampSkew < timestampSkew now ts then .error .staleTimestamp
  else match s.keys r.rootID with
    | none => .error .unknownRoot
    | some uid =>
      if s.allowedRoots ≠ [] ∧ r.rootID ∉ s.allowedRoots then .error .unknownRoot
      else match r.body with
        | none => .error .unreadableBody
        | some body =>
          match hexDecode r.signature with
          | none => .error .signatureEncoding
          | some sig =>
            if verifyDilithium X uid.publicKey (r.signed body) sig then .ok body else .error .invalidSignature

/-- `authenticate`: the body is read once and handed on. -/
def RestServer.authenticate (s : RestServer) (r : HTTPRequest) : EngineM (Except AuthError Bytes) := do
  if r.rootID = "" ∨ r.signature = "" ∨ r.timestamp = "" then return .error .missingHeaders
  else match parseInt r.timestamp with
    | none => return .error .invalidTimestamp
    | some ts =>
      let now ← ask .now
      return s.checkRequest X r ts (unixSeconds now)

/-- An error response: `writeJSON` of an `apiError`, with the header `Retry-After: 60` if `retry`. -/
structure APIError where
  httpStatus : Nat
  code : String
  message : String
  retry : Bool := false
  deriving DecidableEq

/-- The response of `withAuth` to a request that is not authenticated. -/
def AuthError.response : AuthError → APIError
  | .missingHeaders => ⟨401, "INVALID_SIGNATURE", "missing authentication headers", false⟩
  | .invalidTimestamp => ⟨401, "INVALID_SIGNATURE", "invalid X-Timestamp", false⟩
  | .staleTimestamp => ⟨401, "STALE_TIMESTAMP", "request timestamp is too old or in the future", false⟩
  | .unknownRoot => ⟨401, "UNKNOWN_ROOT", "unknown RootID", false⟩
  | .unreadableBody => ⟨401, "INVALID_SIGNATURE", "cannot read body", false⟩
  | .signatureEncoding => ⟨401, "INVALID_SIGNATURE", "invalid signature encoding", false⟩
  | .invalidSignature => ⟨401, "INVALID_SIGNATURE", "INVALID_SIGNATURE", false⟩

/-- `withAuth`. -/
def RestServer.withAuth {α : Type} (s : RestServer) (r : HTTPRequest) (next : Bytes → EngineM (Except APIError α)) :
    EngineM (RestServer × Except APIError α) := do
  match ← s.authenticate X r with
  | .error err => return (s, .error err.response)
  | .ok body =>
    let now ← ask .now
    let verdict := s.rateLimiter.allow r.rootID (unixSeconds now)
    let s := { s with rateLimiter := verdict.2 }
    if verdict.1 then do
      let out ← next body
      return (s, out)
    else return (s, .error ⟨429, "RATE_LIMITED", "rate limit exceeded for root " ++ r.rootID, true⟩)

/-! ## The submit handler -/

/-- `submitRequest`. -/
structure RestSubmit where
  hash : String
  submitter : String
  label : String
  deriving DecidableEq

/-- What `json.Decoder` can find wrong with a body. -/
inductive DecodeError where
  | malformed
  | fieldType
  | other
  deriving DecidableEq

def DecodeError.response : DecodeError → APIError
  | .malformed => ⟨400, "INVALID_JSON", "invalid JSON syntax", false⟩
  | .fieldType => ⟨400, "INVALID_JSON", "invalid field type", false⟩
  | .other => ⟨400, "EXTRA_FIELDS", "unknown field in JSON body", false⟩

/-- The checks of `handleSubmit`, with the hash they leave. -/
def RestSubmit.check (req : RestSubmit) : Except APIError Hash :=
  if req.hash.utf8ByteSize ≠ 64 then .error ⟨400, "INVALID_HASH", "hash must be 64 hex characters", false⟩
  else match hexDecode req.hash with
    | none => .error ⟨400, "INVALID_HASH", "hash is not valid hex", false⟩
    | some hashBytes =>
      let h := Arr.copy 32 hashBytes
      if h = Arr.zero 32 then .error ⟨400, "INVALID_HASH", "zero hash not allowed", false⟩
      else if req.submitter = "" then .error ⟨400, "EMPTY_SUBMITTER", "submitter must not be empty", false⟩
      else if 1024 < req.label.utf8ByteSize then .error ⟨400, "LABEL_TOO_LONG", "label exceeds maximum length", false⟩
      else .ok h

/-- The entry that `handleSubmit` makes of a request: the submitter is the text of the body, cut to its array. -/
def RestSubmit.entry (req : RestSubmit) (h : Hash) (now : Int) : ProvenanceEntry where
  hash := h
  submitter := Arr.copy 16 (utf8 req.submitter)
  timestamp := Int64.ofInt now
  label := req.label

/-- The message of the validation error in an error of `Enqueue`. -/
def CallError.message : CallError → String
  | .invalidHash => "invalid hash"
  | .invalidSubmitter => "invalid submitter"
  | .labelTooLong => "label too long"
  | _ => ""

/-- The response to an error of `Enqueue`. The limits of the queue are no validation errors, so that the case of
`handleSubmit` for `RATE_LIMITED` never applies. -/
def CallError.response (err : CallError) : APIError :=
  if err.code = "" then ⟨500, "INTERNAL_ERROR", "internal error", false⟩ else ⟨400, err.code, err.message, false⟩

def maxBodyBytes : Nat := 4096

variable (decode : Bytes → Except DecodeError RestSubmit)

/-- `handleSubmit` as far as the queue; it then waits for the hash to be anchored. -/
def handleSubmit (body : Bytes) : EngineM (Except APIError Hash) := do
  match decode (body.take maxBodyBytes) with
  | .error err => return .error err.response
  | .ok req =>
    match req.check with
    | .error err => return .error err
    | .ok h =>
      let now ← ask .now
      match ← enqueue (req.entry h now) with
      | .error err => return .error err.response
      | .ok () => return .ok h

/-! ## The requests that are authenticated -/

/-- What a request that is authenticated at the time `now`, in seconds, has passed. -/
structure RestServer.Authentic (s : RestServer) (r : HTTPRequest) (now : Int) (body : Bytes) : Prop where
  headers : ¬ (r.rootID = "" ∨ r.signature = "" ∨ r.timestamp = "")
  recent : ∃ ts, parseInt r.timestamp = some ts ∧ ¬ maxTimestampSkew < timestampSkew now ts
  allowed : ¬ (s.allowedRoots ≠ [] ∧ r.rootID ∉ s.allowedRoots)
  readable : r.body = some body
  signed : ∃ uid sig, s.keys r.rootID = some uid ∧ hexDecode r.signature = some sig ∧
    verifyDilithium X uid.publicKey (r.signed body) sig = true

variable {s : RestServer} {r : HTTPRequest} {body : Bytes} {e e' : Engine} {t : Trace}

theorem checkRequest_ok {ts : Int64} {now : Int} (h : s.checkRequest X r ts now = .ok body) :
    ¬ maxTimestampSkew < timestampSkew now ts ∧ ¬ (s.allowedRoots ≠ [] ∧ r.rootID ∉ s.allowedRoots) ∧
      r.body = some body ∧ ∃ uid sig, s.keys r.rootID = some uid ∧ hexDecode r.signature = some sig ∧
        verifyDilithium X uid.publicKey (r.signed body) sig = true := by
  unfold RestServer.checkRequest at h
  split at h
  · cases h
  next hskew =>
  split at h
  · cases h
  next uid hkey =>
  split at h
  · cases h
  next hallowed =>
  split at h
  · cases h
  next body' hbody =>
  split at h
  · cases h
  next sig hsig =>
  split at h
  · next hverify =>
    cases h
    exact ⟨hskew, hallowed, hbody, uid, sig, hkey, hsig, hverify⟩
  · cases h

/-- **Authentication** reads the clock once and hands the body on exactly if every check passes. -/
theorem runs_authenticate :
    Runs (s.authenticate X r) e t (.done (.ok body)) e' ↔
      e' = e ∧ ∃ now, t = [⟨.now, now⟩] ∧ s.Authentic X r (unixSeconds now) body := by
  unfold RestServer.authenticate
  constructor
  · intro h
    split at h
    · cases (runs_pure.1 h).2.1
    next hheaders =>
    split at h
    · cases (runs_pure.1 h).2.1
    next ts hts =>
    obtain ⟨now, t', ht, hcheck⟩ := runs_perform_bind.1 h
    obtain ⟨rfl, hdone, rfl⟩ := runs_pure.1 hcheck
    obtain ⟨hskew, hallowed, hbody, hsigned⟩ := checkRequest_ok X (Exit.done.inj hdone).symm
    exact ⟨rfl, now, ht, hheaders, ⟨ts, hts, hskew⟩, hallowed, hbody, hsigned⟩
  · rintro ⟨rfl, now, rfl, h⟩
    obtain ⟨ts, hts, hskew⟩ := h.recent
    obtain ⟨uid, sig, hkey, hsig, hverify⟩ := h.signed
    have hcheck : s.checkRequest X r ts (unixSeconds now) = .ok body := by
      rw [RestServer.checkRequest, if_neg hskew]
      simp only [hkey, h.readable, hsig, hverify, if_true]
      exact if_neg h.allowed
    rw [if_neg h.headers]
    simp only [hts]
    exact runs_perform_bind.2 ⟨now, [], rfl, runs_pure.2 ⟨rfl, by rw [hcheck], rfl⟩⟩

/-- An authenticated request within its rate is handed on. -/
theorem runs_withAuth {α : Type} {next : Bytes → EngineM (Except APIError α)} {now now' : Int}
    (hauth : s.Authentic X r (unixSeconds now) body) (hallow : (s.rateLimiter.allow r.rootID (unixSeconds now')).1 = true)
    {out : Except APIError α} (h : Runs (next body) e t (.done out) e') :
    ∃ s', Runs (s.withAuth X r next) e (⟨.now, now⟩ :: ⟨.now, now'⟩ :: t) (.done (s', out)) e' := by
  refine ⟨{ s with rateLimiter := (s.rateLimiter.allow r.rootID (unixSeconds now')).2 }, ?_⟩
  unfold RestServer.withAuth
  refine runs_bind.2 (.inl ⟨_, _, _, _, rfl, (runs_authenticate X).2 ⟨rfl, now, rfl, hauth⟩, ?_⟩)
  refine runs_perform_bind.2 ⟨now', t, rfl, ?_⟩
  simp only [hallow, if_true]
  exact runs_bind.2 (.inl ⟨t, out, e', [], (List.append_nil t).symm, h, runs_pure.2 ⟨rfl, rfl, rfl⟩⟩)

/-! ## The requests that queue an entry -/

/-- What an authenticated submission does: the queue stays, or it grows by the entry of the body. -/
theorem runs_handleSubmit {x : Exit (Except APIError Hash)} (h : Runs (handleSubmit decode body) e t x e') :
    e'.pending = e.pending ∨ ∃ req hash now, decode (body.take maxBodyBytes) = .ok req ∧ req.check = .ok hash ∧
      e'.pending = e.pending ++ [req.entry hash now] := by
  unfold handleSubmit at h
  split at h
  · obtain ⟨-, -, rfl⟩ := runs_pure.1 h
    exact .inl rfl
  next req hreq =>
  split at h
  · obtain ⟨-, -, rfl⟩ := runs_pure.1 h
    exact .inl rfl
  next hash hhash =>
  obtain ⟨now, t', -, h⟩ := runs_perform_bind.1 h
  rcases runs_bind.1 h with ⟨t₁, r, e₁, t₂, -, h₁, h₂⟩ | ⟨-, h₁⟩
  · cases runs_enqueue h₁ with
    | refused err rateLimiter ht =>
      obtain ⟨-, -, rfl⟩ := runs_pure.1 h₂
      exact .inl rfl
    | accepted a rateLimiter hadmits hu ht =>
      obtain ⟨-, -, rfl⟩ := runs_pure.1 h₂
      exact .inr ⟨req, hash, now, hreq, hhash, rfl⟩
  · cases runs_enqueue h₁

/-- `authenticate` never panics and leaves the engine alone. -/
theorem authenticate_reads {x : Exit (Except AuthError Bytes)} (h : Runs (s.authenticate X r) e t x e') :
    e' = e ∧ ∃ verdict, x = .done verdict := by
  unfold RestServer.authenticate at h
  split at h
  · obtain ⟨-, rfl, rfl⟩ := runs_pure.1 h
    exact ⟨rfl, _, rfl⟩
  · split at h
    · obtain ⟨-, rfl, rfl⟩ := runs_pure.1 h
      exact ⟨rfl, _, rfl⟩
    · obtain ⟨now, t', -, h⟩ := runs_perform_bind.1 h
      obtain ⟨-, rfl, rfl⟩ := runs_pure.1 h
      exact ⟨rfl, _, rfl⟩

/-- **A submission over HTTP** leaves the queue alone, or it was authenticated and queues the entry of its body. -/
theorem runs_restSubmit {x : Exit (RestServer × Except APIError Hash)}
    (h : Runs (s.withAuth X r (handleSubmit decode)) e t x e') :
    e'.pending = e.pending ∨ ∃ seconds body req hash now, s.Authentic X r seconds body ∧
      decode (body.take maxBodyBytes) = .ok req ∧ req.check = .ok hash ∧
      e'.pending = e.pending ++ [req.entry hash now] := by
  unfold RestServer.withAuth at h
  rcases runs_bind.1 h with ⟨t₁, verdict, e₁, t₂, -, h₁, h₂⟩ | ⟨-, h₁⟩
  · obtain ⟨rfl, -⟩ := authenticate_reads X h₁
    cases verdict with
    | error err =>
      obtain ⟨-, -, rfl⟩ := runs_pure.1 h₂
      exact .inl rfl
    | ok body =>
      obtain ⟨-, seconds, -, hauth⟩ := (runs_authenticate X).1 h₁
      obtain ⟨now, t', -, h₂⟩ := runs_perform_bind.1 h₂
      simp only at h₂
      split at h₂
      · have hnext : ∃ t y, Runs (handleSubmit decode body) e₁ t y e' := by
          rcases runs_bind.1 h₂ with ⟨t₃, out, e₃, t₄, -, h₃, h₄⟩ | ⟨-, h₃⟩
          · obtain ⟨-, -, rfl⟩ := runs_pure.1 h₄
            exact ⟨_, _, h₃⟩
          · exact ⟨_, _, h₃⟩
        obtain ⟨t₃, y, h₃⟩ := hnext
        rcases runs_handleSubmit decode h₃ with hsame | ⟨req, hash, now, hreq, hcheck, hqueue⟩
        · exact .inl hsame
        · exact .inr ⟨_, body, req, hash, now, hauth, hreq, hcheck, hqueue⟩
      · obtain ⟨-, -, rfl⟩ := runs_pure.1 h₂
        exact .inl rfl
  · obtain ⟨-, verdict, hdone⟩ := authenticate_reads X h₁
    cases hdone

/-! ## Accountability -/

/-- A submission through one of the interfaces of a node. -/
inductive ClientRequest where
  | grpc (req : SubmitRequest)
  | rest (r : HTTPRequest)

/-- The two interfaces in front of an engine. -/
structure Frontend where
  registry : Registry
  rest : RestServer

/-- Serve a submission. -/
def Frontend.handle (f : Frontend) : ClientRequest → EngineM Unit
  | .grpc req => do let _ ← submitHash X f.registry req
  | .rest r => do let _ ← f.rest.withAuth X r (handleSubmit decode)

/-- The signature of the request verifies under the key that is registered under `name`. -/
inductive VerifiedBy (f : Frontend) : ClientRequest → String → Prop
  | grpc {req : SubmitRequest} {pubKey : Bytes} (hkey : f.registry.lookup (hexEncode req.submitter) = some pubKey)
      (hverify : verifySignature X pubKey req.hash req.submitter req.timestamp req.label req.signature = true) :
      VerifiedBy f (.grpc req) (hexEncode req.submitter)
  | rest {r : HTTPRequest} {uid : UIDZeroSoulbound} {body sig : Bytes} (hkey : f.rest.keys r.rootID = some uid)
      (hname : uid.id = r.rootID) (hbody : r.body = some body) (hsig : hexDecode r.signature = some sig)
      (hverify : verifyDilithium X uid.publicKey (r.signed body) sig = true) : VerifiedBy f (.rest r) r.rootID

/-- Over gRPC the submitter has the length of a root identity; over HTTP the text in the body, cut to that length, is the
root identity of the header. -/
def Attributable : ClientRequest → Prop
  | .grpc req => req.submitter.length = 16
  | .rest r => ∃ body req, r.body = some body ∧ decode (body.take maxBodyBytes) = .ok req ∧
      hexEncode (Arr.copy 16 (utf8 req.submitter)).toList = r.rootID

theorem hexEncode_copy_iff (bs : Bytes) : hexEncode (Arr.copy 16 bs).toList = hexEncode bs ↔ bs.length = 16 := by
  constructor
  · intro h
    rw [← hexEncode_inj h, List.Vector.toList_length]
  · intro h
    exact congrArg (fun a : Arr 16 => hexEncode a.toList) (Arr.copy_toList (⟨bs, h⟩ : Arr 16))

/-- **Accountability.** A submission that queues an entry was signed under a registered key, and the entry is attributed to
the root identity with that key exactly if the request is attributable. -/
theorem accountable_iff {f : Frontend} {req : ClientRequest} {e e' : Engine} {t : Trace} {x : Exit Unit}
    {entry : ProvenanceEntry} (h : Runs (f.handle X decode req) e t x e') (hqueued : e'.pending = e.pending ++ [entry]) :
    ∃ name, VerifiedBy X f req name ∧ (hexEncode entry.submitter.toList = name ↔ Attributable decode req) := by
  have hgrew : e'.pending ≠ e.pending := by
    rw [hqueued]
    exact fun h => by simpa using congrArg List.length h
  cases req with
  | grpc req =>
    obtain ⟨y, hy⟩ := runs_ignore h
    obtain ⟨r, -, hresult⟩ := runs_submitHash X hy
    cases hresult with
    | refused err hsame => exact absurd hsame hgrew
    | accepted hauth hqueue =>
      obtain ⟨pubKey, hkey, hverify⟩ := authenticateSubmit_ok X hauth
      obtain rfl : entry = req.entry := List.singleton_inj.1 (List.append_cancel_left (hqueued.symm.trans hqueue))
      exact ⟨_, .grpc hkey hverify, hexEncode_copy_iff req.submitter⟩
  | rest r =>
    obtain ⟨y, hy⟩ := runs_ignore h
    rcases runs_restSubmit X decode hy with hsame | ⟨seconds, body, req, hash, now, hauth, hreq, hcheck, hqueue⟩
    · exact absurd hsame hgrew
    · obtain ⟨uid, sig, hkey, hsig, hverify⟩ := hauth.signed
      obtain rfl : entry = req.entry hash now :=
        List.singleton_inj.1 (List.append_cancel_left (hqueued.symm.trans hqueue))
      refine ⟨_, .rest hkey (f.rest.named _ _ hkey) hauth.readable hsig hverify, ?_⟩
      constructor
      · exact fun hname => ⟨body, req, hauth.readable, hreq, hname⟩
      · rintro ⟨body', req', hbody', hreq', hname⟩
        obtain rfl : body = body' := Option.some.inj (hauth.readable.symm.trans hbody')
        obtain rfl : req = req' := Except.ok.inj (hreq.symm.trans hreq')
        exact hname

namespace Sample

/-- The clients of a node: the identities whose root identities start with the letters `a` and `b`. -/
def clients : RestServer := RestServer.new (uid 1) [uid 98, uid 97] [] 5000

/-- The body that names `submitter`. -/
def submitText (submitter : String) : Bytes :=
  utf8 ("\x7b\"hash\":\"" ++ hexEncode (entry 9).hash.toList ++ "\",\"submitter\":\"" ++ submitter ++
    "\",\"label\":\"release\"\x7d")

/-- A decoder for the bodies that name one of the two clients. -/
def decodeText (bs : Bytes) : Except DecodeError RestSubmit :=
  if bs = submitText "a" then .ok ⟨hexEncode (entry 9).hash.toList, "a", "release"⟩
  else if bs = submitText "b" then .ok ⟨hexEncode (entry 9).hash.toList, "b", "release"⟩
  else .error .malformed

/-- A submission that the first client signs, naming `submitter` in the body. -/
def restSubmission (submitter : String) : HTTPRequest :=
  let draft : HTTPRequest := {
    method := "POST"
    path := "/v1/submit"
    rootID := (uid 97).id
    signature := ""
    timestamp := "1"
    body := some (submitText submitter) }
  { draft with signature := hexEncode (signDilithium prims (uid 97).secretKey (draft.signed (submitText submitter))) }

theorem hexEncode_ne_empty {bs : Bytes} (h : bs ≠ []) : hexEncode bs ≠ "" := fun hempty => h (hexEncode_inj hempty)

theorem clients_keys : clients.keys (uid 97).id = some (uid 97) := RestServer.register_keys _ _

theorem restSubmission_authentic (submitter : String) :
    clients.Authentic prims (restSubmission submitter) (unixSeconds 1) (submitText submitter) := by
  have hverify := (verify_stamp 97 (uid 97).publicKey ((restSubmission submitter).signed (submitText submitter))).2 rfl
  refine ⟨?_, ⟨1, ?_, ?_⟩, fun h => h.1 rfl, rfl, uid 97, _, clients_keys, hexDecode_hexEncode _, hverify⟩
  · rintro (h | h | h)
    · exact hexEncode_ne_empty (fun h => by cases h) h
    · refine hexEncode_ne_empty (fun hnil => ?_) h
      rw [sign_stamp] at hnil
      exact List.cons_ne_nil _ _ hnil
    · exact absurd (show "1" = "" from h) (by decide)
  · show parseInt "1" = some 1
    decide +kernel
  · decide +kernel

/-- What the handler does with the body of the submission. -/
def handled (submitter : String) : (Exit (Except APIError Hash) × Engine) × Trace × MemoryBus :=
  serveOn MemoryBus.new (handleSubmit decodeText (submitText submitter) (two 1))

def ownHandled : Computed (handled "a") fun x =>
    x.1.1 = .done (.ok (entry 9).hash) ∧ x.1.2.pending.map (·.submitter) = [(uid 97).rootID] :=
  computed _ (by decide +kernel)

def foreignHandled : Computed (handled "b") fun x =>
    x.1.1 = .done (.ok (entry 9).hash) ∧ x.1.2.pending.map (·.submitter) = [(uid 98).rootID] :=
  computed _ (by decide +kernel)

/-- The interfaces of the node. -/
def frontend : Frontend := ⟨registry, clients⟩

/-- The submission that names `submitter` is served. -/
theorem runs_restSubmission {submitter : String} (h : (handled submitter).1.1 = .done (.ok (entry 9).hash)) :
    ∃ t, Runs (frontend.handle prims decodeText (.rest (restSubmission submitter))) (two 1) t (.done ())
      (handled submitter).1.2 := by
  unfold handled at h ⊢
  have hallow : (clients.rateLimiter.allow (restSubmission submitter).rootID (unixSeconds 1)).1 = true := rfl
  obtain ⟨s', hruns⟩ := runs_withAuth prims (restSubmission_authentic submitter) hallow (runs_serveOn _ _ _ h)
  exact ⟨_, runs_bind.2 (.inl ⟨_, _, _, [], (List.append_nil _).symm, hruns, runs_pure.2 ⟨rfl, rfl, rfl⟩⟩)⟩

theorem queued_of_submitters {e : Engine} {id : RootID} (h : e.pending.map (·.submitter) = [id]) :
    ∃ entry, e.pending = (two 1).pending ++ [entry] ∧ entry.submitter = id := by
  obtain ⟨entry, hpending, hid⟩ := List.map_eq_singleton_iff.1 h
  exact ⟨entry, hpending, hid⟩

def ownDecoded : Computed (submitText "a") fun body =>
    decodeText (body.take maxBodyBytes) = .ok ⟨hexEncode (entry 9).hash.toList, "a", "release"⟩ ∧
      Arr.copy 16 (utf8 "a") = (uid 97).rootID :=
  computed _ (by decide +kernel)

theorem own_attributable : Attributable decodeText (.rest (restSubmission "a")) := by
  obtain ⟨body, hbody, hdecoded, hid⟩ := ownDecoded
  refine ⟨body, _, congrArg some hbody.symm, hdecoded, ?_⟩
  show hexEncode (Arr.copy 16 (utf8 "a")).toList = _
  rw [hid]
  rfl

/-- The client that names itself is accountable for its entry. -/
theorem own_accountable : ∃ entry, (handled "a").1.2.pending = (two 1).pending ++ [entry] ∧
    ∃ name, VerifiedBy prims frontend (.rest (restSubmission "a")) name ∧ hexEncode entry.submitter.toList = name := by
  obtain ⟨x, hx, hdone, hsubmitter⟩ := ownHandled
  rw [hx] at hdone hsubmitter
  obtain ⟨entry, hqueued, hid⟩ := queued_of_submitters hsubmitter
  obtain ⟨t, hruns⟩ := runs_restSubmission hdone
  obtain ⟨name, hverified, hiff⟩ := accountable_iff prims decodeText hruns hqueued
  exact ⟨entry, hqueued, name, hverified, hiff.2 own_attributable⟩

/-- The first client queues an entry in the name of the second one. -/
theorem foreign_unaccountable : ∃ f decode req e t x e' entry, Runs (Frontend.handle prims decode f req) e t x e' ∧
    e'.pending = e.pending ++ [entry] ∧ entry.submitter = (uid 98).rootID ∧
    ∀ name, VerifiedBy prims f req name → hexEncode entry.submitter.toList ≠ name := by
  obtain ⟨x, hx, hdone, hsubmitter⟩ := foreignHandled
  rw [hx] at hdone hsubmitter
  obtain ⟨entry, hqueued, hid⟩ := queued_of_submitters hsubmitter
  obtain ⟨t, hruns⟩ := runs_restSubmission hdone
  refine ⟨frontend, decodeText, _, _, t, _, _, entry, hruns, hqueued, hid, fun name hverified hname => ?_⟩
  cases hverified with
  | rest hkey hid' hbody hsig hverify =>
    -- the names of the two clients differ in the first letter
    rw [hid] at hname
    have hsame : (uid 98).rootID = (uid 97).rootID := UIDZeroSoulbound.id_inj hname
    exact absurd (congrArg (fun id : RootID => id.toList.head?) hsame) (by decide)

end Sample

end Gleipnir
