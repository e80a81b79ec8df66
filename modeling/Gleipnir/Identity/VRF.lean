import Gleipnir.Identity
import Gleipnir.Lib.Dleq
import Gleipnir.Lib.Guard
import Mathlib.Algebra.Field.ZMod
import Mathlib.SetTheory.Cardinal.Finite

/-!
# The verifiable random function

`identity/vrf.go` over an abstract group. `VRFSuite` is what the code takes from the Ristretto255 library and the hash functions: a
group of prime order, canonical encodings of its points and of the scalars, and functions of which nothing is assumed.

* `verify_prove`: what `Prove` makes is accepted under the public key, on the wire too.
* `accepted_challenge`: for a wrong `Gamma`, the challenge hash has to hit one value.
* `vrfVerifyProof_of_vrfProve`: an identity's proofs verify, with this function in the place of the one of `Prims`.
-/

namespace Gleipnir

open Guard Dleq

/-- `ErrVRFVerifyFailed` and `ErrVRFIdentityPoint`, and the library's error for bytes that are no point. -/
inductive VRFError where
  | verifyFailed
  | identityPoint
  | notPoint
  deriving DecidableEq

/-- The group, its encodings and the hash functions. -/
structure VRFSuite (l : ℕ) (Point : Type) [AddCommGroup Point] [Module (ZMod l) Point] where
  base : Point
  order : Nat.card Point = l
  generates : ∀ p : Point, ∃ x : ZMod l, x • base = p
  /-- `Point.Bytes`. -/
  pointBytes : Point → Arr 32
  /-- `Point.UnmarshalBinary`. -/
  unmarshalBinary : Arr 32 → Option Point
  unmarshalBinary_iff : ∀ {data p}, unmarshalBinary data = some p ↔ pointBytes p = data
  /-- `Scalar.Bytes`. -/
  scalarBytes : ZMod l → Arr 32
  /-- `Scalar.SetBytesStrict`, which takes reduced encodings only. -/
  setBytesStrict : Arr 32 → Option (ZMod l)
  setBytesStrict_iff : ∀ {buf x}, setBytesStrict buf = some x ↔ scalarBytes x = buf
  /-- `Scalar.SetBytes`, which reduces. -/
  setBytes : Arr 32 → ZMod l
  setBytes_scalarBytes : ∀ x, setBytes (scalarBytes x) = x
  hashToCurve : Bytes → Point
  deriveNonce : Bytes → Bytes → ZMod l
  /-- `hashToScalar` of the concatenated inputs. -/
  expandScalar : Bytes → ZMod l

namespace VRFSuite

variable {l : ℕ} {Point : Type} [AddCommGroup Point] [Module (ZMod l) Point] (S : VRFSuite l Point)

/-- `hashToScalar`. -/
def hashToScalar (inputs : List (Arr 32)) : ZMod l := S.expandScalar (inputs.flatMap List.Vector.toList)

/-- `VRFPrivateKey.PublicKey`. -/
def publicKey (sk : ZMod l) : Point := sk • S.base

variable [DecidableEq Point]

/-- `VRFPublicKeyFromBytes`. -/
def publicKeyFromBytes (data : Arr 32) : Except VRFError Point :=
  match S.unmarshalBinary data with
  | none => .error .notPoint
  | some pk => if pk = 0 then .error .identityPoint else .ok pk

/-- `VRFPrivateKey.Prove`. -/
def prove (sk : ZMod l) (alpha : Bytes) : Except VRFError VRFProof := do
  let h := S.hashToCurve alpha
  if h = 0 then throw .identityPoint
  let y := sk • S.base
  if y = 0 then throw .identityPoint
  let gamma := sk • h
  if gamma = 0 then throw .identityPoint
  let k := S.deriveNonce alpha (S.scalarBytes sk).toList
  let u := k • S.base
  let v := k • h
  if u = 0 ∨ v = 0 then throw .identityPoint
  let c := S.hashToScalar [S.pointBytes y, S.pointBytes h, S.pointBytes gamma, S.pointBytes u, S.pointBytes v]
  let s := c * sk + k
  return ⟨S.pointBytes gamma, S.scalarBytes c, S.scalarBytes s⟩

/-- `VRFPublicKey.Verify`; the lengths of the parts of a proof are in their types. -/
def verify (pk : Point) (alpha : Bytes) (proof : VRFProof) : Except VRFError (Arr 32) := do
  if pk = 0 then throw .verifyFailed
  let some c := S.setBytesStrict proof.c | throw .verifyFailed
  let some s := S.setBytesStrict proof.s | throw .verifyFailed
  let some gammaPoint := S.unmarshalBinary proof.gamma | throw .verifyFailed
  if gammaPoint = 0 then throw .verifyFailed
  let h := S.hashToCurve alpha
  if h = 0 then throw .verifyFailed
  let u := s • S.base - c • pk
  let v := s • h - c • gammaPoint
  if u = 0 ∨ v = 0 then throw .verifyFailed
  let expectedC := S.hashToScalar [S.pointBytes pk, S.pointBytes h, proof.gamma, S.pointBytes u, S.pointBytes v]
  if c ≠ expectedC then throw .verifyFailed
  return proof.gamma

/-! ## What the two functions accept -/

/-- The challenge for two commitments. -/
def challenge (pk h gamma u v : Point) : ZMod l :=
  S.hashToScalar [S.pointBytes pk, S.pointBytes h, S.pointBytes gamma, S.pointBytes u, S.pointBytes v]

variable {S}

/-- The encoded parts of a proof. -/
structure Decodes (S : VRFSuite l Point) (proof : VRFProof) (gamma : Point) (c s : ZMod l) : Prop where
  gamma : S.pointBytes gamma = proof.gamma
  c : S.scalarBytes c = proof.c
  s : S.scalarBytes s = proof.s

/-- The checks of `Verify` on decoded values, `u` and `v` being the commitments that it recomputes. -/
structure Checks (S : VRFSuite l Point) (pk h gamma u v : Point) (c s : ZMod l) : Prop where
  key_ne : pk ≠ 0
  curve_ne : h ≠ 0
  gamma_ne : gamma ≠ 0
  u_ne : u ≠ 0
  v_ne : v ≠ 0
  answers : Answers S.base pk h gamma u v c s
  challenge : c = S.challenge pk h gamma u v

variable {alpha : Bytes} {proof : VRFProof} {sk x : ZMod l}

theorem verify_ok_iff {pk : Point} {out : Arr 32} :
    S.verify pk alpha proof = .ok out ↔ out = proof.gamma ∧ ∃ gamma c s u v, S.Decodes proof gamma c s ∧
      S.Checks pk (S.hashToCurve alpha) gamma u v c s := by
  constructor
  · intro h
    unfold verify at h
    simp only [↓throw_bind, ite_throw_eq_ok] at h
    obtain ⟨hpk, h⟩ := h
    split at h
    · next c hc =>
      split at h
      · next s hs =>
        split at h
        · next gamma hgamma =>
          simp only [ite_throw_eq_ok, pure_eq_ok, not_or, ne_eq, not_not] at h
          obtain ⟨hgamma0, hcurve, huv, hchallenge, rfl⟩ := h
          have hbytes := S.unmarshalBinary_iff.1 hgamma
          rw [← hbytes] at hchallenge
          exact ⟨rfl, gamma, c, s, _, _, ⟨hbytes, S.setBytesStrict_iff.1 hc, S.setBytesStrict_iff.1 hs⟩,
            hpk, hcurve, hgamma0, huv.1, huv.2, ⟨rfl, rfl⟩, hchallenge⟩
        · cases h
      · cases h
    · cases h
  · rintro ⟨rfl, gamma, c, s, u, v, hd, hk⟩
    obtain ⟨rfl, rfl⟩ := hk.answers
    have hchallenge := hk.challenge
    rw [challenge, hd.gamma] at hchallenge
    unfold verify
    rw [S.setBytesStrict_iff.2 hd.c, S.setBytesStrict_iff.2 hd.s, S.unmarshalBinary_iff.2 hd.gamma]
    simp only [↓throw_bind, ite_throw_eq_ok, pure_eq_ok, not_or, ne_eq, not_not]
    exact ⟨hk.key_ne, hk.gamma_ne, hk.curve_ne, ⟨hk.u_ne, hk.v_ne⟩, hchallenge, trivial⟩

/-- A proof that `Prove` returns decodes to values that `Verify` accepts. -/
theorem checks_of_prove (h : S.prove sk alpha = .ok proof) :
    ∃ gamma c s u v, S.Decodes proof gamma c s ∧ S.Checks (S.publicKey sk) (S.hashToCurve alpha) gamma u v c s := by
  unfold prove at h
  simp only [↓throw_bind, ite_throw_eq_ok, pure_eq_ok, not_or] at h
  obtain ⟨hcurve, hy, hgamma, huv, rfl⟩ := h
  exact ⟨_, _, _, _, _, ⟨rfl, rfl, rfl⟩, hy, hcurve, hgamma, huv.1, huv.2, answers_honest _ _ _ _ _, rfl⟩

/-! ## Completeness -/

theorem verify_of_prove (h : S.prove sk alpha = .ok proof) : S.verify (S.publicKey sk) alpha proof = .ok proof.gamma :=
  verify_ok_iff.2 ⟨rfl, checks_of_prove h⟩

/-- **Completeness.** A proof that `Prove` returns is accepted under the public key, and so is what arrives of it over the wire;
the output is its `Gamma`. -/
theorem verify_prove {sk : ZMod l} {alpha : Bytes} {proof : VRFProof} (h : S.prove sk alpha = .ok proof) :
    S.verify (S.publicKey sk) alpha proof = .ok proof.gamma ∧
      ∃ received, unmarshalVRFProof (marshalVRFProof proof) = some received ∧
        S.verify (S.publicKey sk) alpha received = .ok proof.gamma :=
  ⟨verify_of_prove h, proof, unmarshal_marshalVRFProof proof, verify_of_prove h⟩

/-! ## Soundness -/

omit [DecidableEq Point] in
theorem base_ne_zero [hl : Fact l.Prime] (S : VRFSuite l Point) : S.base ≠ 0 := by
  intro hbase
  have hzero : ∀ p : Point, p = 0 := by
    intro p
    obtain ⟨x, rfl⟩ := S.generates p
    rw [hbase, smul_zero]
  have hone : Nat.card Point = 1 := Nat.card_eq_one_iff_exists.2 ⟨0, hzero⟩
  exact hl.out.one_lt.ne' (S.order.symm.trans hone)

omit [DecidableEq Point] in
theorem pointBytes_inj {p q : Point} (h : S.pointBytes p = S.pointBytes q) : p = q :=
  Option.some.inj ((S.unmarshalBinary_iff.2 h).symm.trans (S.unmarshalBinary_iff.2 rfl))

/-- The challenges that can be answered for two commitments. -/
def answerable (S : VRFSuite l Point) (pk h gamma u v : Point) : Set (ZMod l) := {c | ∃ s, Answers S.base pk h gamma u v c s}

omit [DecidableEq Point] in
theorem subsingleton_answerable [Fact l.Prime] {h gamma : Point} (hgamma : gamma ≠ x • h) (u v : Point) :
    (S.answerable (S.publicKey x) h gamma u v).Subsingleton := by
  rintro c ⟨s, hs⟩ c' ⟨s', hs'⟩
  exact challenge_unique S.base_ne_zero hgamma hs hs'

/-- **Soundness.** If `Gamma` is not the one that belongs to the key, any two commitments leave one challenge at most that can be
answered. So a proof with a wrong `Gamma` is accepted only if the hash of what it is computed from is that one challenge. -/
theorem accepted_challenge [Fact l.Prime] (S : VRFSuite l Point) (x : ZMod l) :
    (∀ h gamma u v : Point, h ≠ 0 → gamma ≠ x • h → (S.answerable (S.publicKey x) h gamma u v).Subsingleton) ∧
    ∀ alpha proof out gamma, S.verify (S.publicKey x) alpha proof = .ok out → S.pointBytes gamma = proof.gamma →
      gamma ≠ x • S.hashToCurve alpha →
      ∃ u v, S.answerable (S.publicKey x) (S.hashToCurve alpha) gamma u v =
          {S.challenge (S.publicKey x) (S.hashToCurve alpha) gamma u v} ∧
        S.scalarBytes (S.challenge (S.publicKey x) (S.hashToCurve alpha) gamma u v) = proof.c := by
  refine ⟨fun h gamma u v _ hgamma => subsingleton_answerable hgamma u v, ?_⟩
  intro alpha proof out gamma hverify hbytes hgamma
  obtain ⟨-, gamma', c, s, u, v, hd, hk⟩ := verify_ok_iff.1 hverify
  obtain rfl : gamma' = gamma := pointBytes_inj (hd.gamma.trans hbytes.symm)
  have hanswered : c ∈ S.answerable (S.publicKey x) (S.hashToCurve alpha) gamma' u v := ⟨s, hk.answers⟩
  rw [hk.challenge] at hanswered
  refine ⟨u, v, (subsingleton_answerable hgamma u v).eq_singleton_of_mem hanswered, ?_⟩
  rw [← hk.challenge, hd.c]

/-! ## The proofs of an identity -/

/-- Whether the proof verifies under an encoded key. -/
def verifies (S : VRFSuite l Point) (pk : Arr 32) (alpha : Bytes) (proof : VRFProof) : Bool :=
  match S.publicKeyFromBytes pk with
  | .error _ => false
  | .ok pk => (S.verify pk alpha proof).toBool

/-- The primitives with this function as their VRF. -/
def withVRF (S : VRFSuite l Point) (X : Prims) : Prims :=
  { X with
    ecvrfProve := fun sk alpha => (S.prove (S.setBytes (Arr.copy 32 sk)) alpha).toOption
    ecvrfVerify := S.verifies }

/-- An identity with a key pair of the group makes proofs that verify. -/
theorem vrfVerifyProof_of_vrfProve (X : Prims) {uid : UIDZeroSoulbound} (hsecret : uid.vrfSecretKey = (S.scalarBytes x).toList)
    (hpublic : uid.vrfPublicKey = S.pointBytes (S.publicKey x)) (h : uid.vrfProve (S.withVRF X) alpha = some proof) :
    uid.vrfVerifyProof (S.withVRF X) alpha proof = some proof.gamma := by
  have hprove : S.prove x alpha = .ok proof := by
    have hlen : uid.vrfSecretKey.length = 32 := by rw [hsecret, List.Vector.toList_length]
    rw [UIDZeroSoulbound.vrfProve, if_neg (not_not.2 hlen)] at h
    change (S.prove (S.setBytes (Arr.copy 32 uid.vrfSecretKey)) alpha).toOption = some proof at h
    rw [hsecret, Arr.copy_toList, S.setBytes_scalarBytes] at h
    cases hp : S.prove x alpha with
    | error err =>
      rw [hp] at h
      cases h
    | ok proof' =>
      rw [hp] at h
      rw [Option.some.inj h]
  have hverify := verify_of_prove hprove
  obtain ⟨-, gamma, c, s, u, v, -, hk⟩ := verify_ok_iff.1 hverify
  have hkey : S.publicKeyFromBytes uid.vrfPublicKey = .ok (S.publicKey x) := by
    rw [publicKeyFromBytes, hpublic, S.unmarshalBinary_iff.2 rfl]
    exact if_neg hk.key_ne
  have haccepts : S.verifies uid.vrfPublicKey alpha proof = true := by
    simp only [verifies, hkey, hverify]
    rfl
  exact if_pos haccepts

end VRFSuite

namespace Sample

/-- The encoding of a number below three. -/
def tinyBytes (x : ZMod 3) : Arr 32 := Arr.copy 32 [UInt8.ofNat x.val]

def tinyDecode (data : Arr 32) : Option (ZMod 3) := [(0 : ZMod 3), 1, 2].find? fun x => tinyBytes x = data

theorem tinyDecode_iff {data : Arr 32} {x : ZMod 3} : tinyDecode data = some x ↔ tinyBytes x = data := by
  have hinj : ∀ x y : ZMod 3, tinyBytes x = tinyBytes y → x = y := by decide
  have hall : ∀ x : ZMod 3, x ∈ [(0 : ZMod 3), 1, 2] := by decide
  have hsound : ∀ {data y}, tinyDecode data = some y → tinyBytes y = data := by
    intro data y h
    have hy := List.find?_some h
    exact of_decide_eq_true hy
  refine ⟨hsound, ?_⟩
  rintro rfl
  cases hfound : tinyDecode (tinyBytes x) with
  | none => exact absurd (List.find?_eq_none.1 hfound x (hall x)) (by simp)
  | some y => rw [hinj y x (hsound hfound)]

/-- The group with three elements, and hash functions with one value. -/
def tinySuite : VRFSuite 3 (ZMod 3) where
  base := 1
  order := Nat.card_zmod 3
  generates p := ⟨p, mul_one p⟩
  pointBytes := tinyBytes
  unmarshalBinary := tinyDecode
  unmarshalBinary_iff := tinyDecode_iff
  scalarBytes := tinyBytes
  setBytesStrict := tinyDecode
  setBytesStrict_iff := tinyDecode_iff
  setBytes data := (tinyDecode data).getD 0
  setBytes_scalarBytes x := by rw [tinyDecode_iff.2 rfl, Option.getD_some]
  hashToCurve _ := 1
  deriveNonce _ _ := 1
  expandScalar _ := 1

/-- The proof of the secret key `2`. -/
def tinyProof : VRFProof := ⟨tinyBytes 2, tinyBytes 1, tinyBytes 0⟩

theorem tiny_proof_verifies : tinySuite.prove 2 [7] = .ok tinyProof ∧
    tinySuite.verify (tinySuite.publicKey 2) [7] tinyProof = .ok (tinyBytes 2) ∧
    ∃ received, unmarshalVRFProof (marshalVRFProof tinyProof) = some received ∧
      tinySuite.verify (tinySuite.publicKey 2) [7] received = .ok (tinyBytes 2) := by
  have hprove : tinySuite.prove 2 [7] = .ok tinyProof := by decide
  exact ⟨hprove, VRFSuite.verify_prove hprove⟩

/-- The same proof under the key `1`, for which its `Gamma` is wrong: the hash happens to be the challenge that it answers. -/
theorem tiny_forgery_challenge : tinySuite.verify (tinySuite.publicKey 1) [7] tinyProof = .ok (tinyBytes 2) ∧
    (2 : ZMod 3) ≠ (1 : ZMod 3) • tinySuite.hashToCurve [7] ∧
    ∃ u v, tinySuite.answerable (tinySuite.publicKey 1) (tinySuite.hashToCurve [7]) 2 u v =
        {tinySuite.challenge (tinySuite.publicKey 1) (tinySuite.hashToCurve [7]) 2 u v} ∧
      tinySuite.scalarBytes (tinySuite.challenge (tinySuite.publicKey 1) (tinySuite.hashToCurve [7]) 2 u v) = tinyProof.c := by
  have hverify : tinySuite.verify (tinySuite.publicKey 1) [7] tinyProof = .ok (tinyBytes 2) := by decide
  have hwrong : (2 : ZMod 3) ≠ (1 : ZMod 3) • tinySuite.hashToCurve [7] := by decide
  exact ⟨hverify, hwrong, (VRFSuite.accepted_challenge tinySuite 1).2 [7] tinyProof _ 2 hverify rfl hwrong⟩

end Sample

end Gleipnir
