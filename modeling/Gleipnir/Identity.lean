import Gleipnir.Types

/-!
# Identities and the primitives they rest on

`Prims` collects what the repository takes from cryptographic, encoding and numerical libraries. Every definition of
the model that needs one takes it as the parameter `X`; nothing is assumed of its members here.

* `signDilithium`, `verifyDilithium` — `identity/dilithium.go` with its length checks.
* `vrfProve`, `vrfVerifyProof`, `marshalVRFProof`, `unmarshalVRFProof` — `identity/vrf.go`.
* `unmarshal_marshalVRFProof` — a proof survives the wire.
-/

namespace Gleipnir

/-- The library functions the program calls. -/
structure Prims where
  blake3 : Bytes → Hash
  sha256 : Bytes → Hash
  /-- Deterministic ML-DSA-65 signing from a seed; `none` when the library returns an error. -/
  mldsaSign : Bytes → Bytes → Option Bytes
  mldsaVerify : Arr 1952 → Bytes → Bytes → Bool
  /-- The proof of a secret scalar for an input; `none` when a point is the identity. -/
  ecvrfProve : Bytes → Bytes → Option VRFProof
  /-- The DLEQ equations and the point checks of `VRFPublicKey.Verify`. -/
  ecvrfVerify : Arr 32 → Bytes → VRFProof → Bool
  cborEntries : List ProvenanceEntry → Bytes
  cborQuorum : QuorumConfig → Bytes
  cborRotation : KeyRotationEntry → Option Bytes
  cborRotationPayload : KeyRotationPayload → Option Bytes
  /-- `none` when a rule carries a value the encoder refuses. -/
  cborMandate : MandateEntry → Option Bytes
  /-- The encoding of `networkStateForRoot`: cycle, nodes, graph and lambda1. -/
  cborState : UInt64 → AList (fun _ : String => NodeState) → List Edge → ℚ → Bytes
  /-- The second smallest eigenvalue of the Laplacian, as the numerical library computes it. -/
  fiedler : AList (fun _ : String => NodeState) → List Edge → ℚ

variable (X : Prims)

/-! ## ML-DSA-65 -/

def dilithium3SecretKeySize : Nat := 32

def dilithium3SignatureSize : Nat := 3309

/-- `SignDilithium`; the nil signature is the empty one. -/
def signDilithium (sk msg : Bytes) : Bytes :=
  if sk.length ≠ dilithium3SecretKeySize then [] else (X.mldsaSign sk msg).getD []

/-- `VerifyDilithium`; the length of the key is in its type. -/
def verifyDilithium (pk : Arr 1952) (msg sig : Bytes) : Bool :=
  if sig.length ≠ dilithium3SignatureSize then false else X.mldsaVerify pk msg sig

variable {X} in
theorem length_of_verifyDilithium {pk : Arr 1952} {msg sig : Bytes} (h : verifyDilithium X pk msg sig = true) :
    sig.length = dilithium3SignatureSize := by
  by_contra hne
  rw [verifyDilithium, if_pos hne] at h
  cases h

/-! ## The verifiable random function -/

def vrfProofSize : Nat := 96

/-- `UIDZeroSoulbound.VRFProve`. -/
def UIDZeroSoulbound.vrfProve (u : UIDZeroSoulbound) (alpha : Bytes) : Option VRFProof :=
  if u.vrfSecretKey.length ≠ 32 then none else X.ecvrfProve u.vrfSecretKey alpha

/-- `UIDZeroSoulbound.VRFVerifyProof`: the output of an accepted proof is its `gamma`. -/
def UIDZeroSoulbound.vrfVerifyProof (u : UIDZeroSoulbound) (alpha : Bytes) (proof : VRFProof) : Option (Arr 32) :=
  if X.ecvrfVerify u.vrfPublicKey alpha proof then some proof.gamma else none

theorem vrfVerifyProof_gamma {u : UIDZeroSoulbound} {alpha : Bytes} {proof : VRFProof} {g : Arr 32}
    (h : u.vrfVerifyProof X alpha proof = some g) : g = proof.gamma := by
  unfold UIDZeroSoulbound.vrfVerifyProof at h
  split at h
  · exact (Option.some.inj h).symm
  · cases h

/-- `MarshalVRFProof`. -/
def marshalVRFProof (proof : VRFProof) : Bytes :=
  proof.gamma.toList ++ proof.c.toList ++ proof.s.toList

/-- `UnmarshalVRFProof`. -/
def unmarshalVRFProof (data : Bytes) : Option VRFProof :=
  if data.length ≠ vrfProofSize then none
  else some ⟨Arr.copy 32 data, Arr.copy 32 (data.drop 32), Arr.copy 32 (data.drop 64)⟩

/-- A proof survives the wire. -/
theorem unmarshal_marshalVRFProof (proof : VRFProof) : unmarshalVRFProof (marshalVRFProof proof) = some proof := by
  have hlen : (marshalVRFProof proof).length = vrfProofSize := by simp [marshalVRFProof, vrfProofSize]
  have hs : (marshalVRFProof proof).drop 64 = proof.s.toList := by
    simp [marshalVRFProof, List.drop_append]
  have hc : (marshalVRFProof proof).drop 32 = proof.c.toList ++ proof.s.toList := by
    simp [marshalVRFProof]
  rw [unmarshalVRFProof, if_neg (by simpa using hlen), hs, hc]
  simp [marshalVRFProof, Arr.copy_toList_append, Arr.copy_toList]

end Gleipnir
