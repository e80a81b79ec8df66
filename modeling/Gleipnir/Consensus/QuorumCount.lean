import Gleipnir.Chain
import Gleipnir.Lib.Matching
import Gleipnir.Sample

/-!
# Counting M of N signatures

`consensus/quorum.go`: `VerifyQuorum` matches signatures with public keys greedily, and counts each key once. If a signature
verifies under one key at most, what it counts is the set of keys with a signature (`verifyQuorum_ok_iff`), whatever the order of
the two lists and however often something is listed.
-/

namespace Gleipnir

open Matching

variable (X : Prims)

/-- `VerifyDilithiumBytes`: nothing verifies under a key of another length. -/
def verifyDilithiumBytes (pkBytes msg sig : Bytes) : Bool :=
  if h : pkBytes.length = 1952 then verifyDilithium X ⟨pkBytes, h⟩ msg sig else false

/-- `ErrQuorumNotMet`. -/
inductive QuorumError where
  | notMet
  deriving DecidableEq

/-- What the loops of `VerifyQuorum` keep. -/
structure QuorumTally where
  used : List Bytes
  validCount : Int

/-- The body of the loop over the signatures; the inner loop stops at the first key that verifies. -/
def QuorumTally.addSig (blockHash : Bytes) (pubKeys : List Bytes) (t : QuorumTally) (sig : Bytes) : QuorumTally :=
  if sig.length = 0 then t
  else match pubKeys.find? fun pk => !(pk.length == 0 || t.used.contains pk) && verifyDilithiumBytes X pk blockHash sig with
    | none => t
    | some pk => ⟨pk :: t.used, t.validCount + 1⟩

/-- `VerifyQuorum`. -/
def verifyQuorum (blockHash : Bytes) (sigs pubKeys : List Bytes) (quorum : QuorumConfig) : Except QuorumError Unit :=
  if !quorum.isValid then .error .notMet
  else
    let t := sigs.foldl (QuorumTally.addSig X blockHash pubKeys) ⟨[], 0⟩
    if t.validCount < quorum.requiredSigs then .error .notMet else .ok ()

/-! ## The keys that sign -/

/-- Neither the key nor the signature is empty, and the signature verifies. -/
def signsFor (blockHash pk sig : Bytes) : Bool := !pk.isEmpty && !sig.isEmpty && verifyDilithiumBytes X pk blockHash sig

/-- The keys of a list under which a signature of another list verifies. -/
def quorumSigners (blockHash : Bytes) (sigs pubKeys : List Bytes) : Finset Bytes :=
  pubKeys.toFinset.filter fun pk => pk ≠ [] ∧ ∃ sig ∈ sigs, sig ≠ [] ∧ verifyDilithiumBytes X pk blockHash sig = true

variable {X} {blockHash : Bytes} {sigs pubKeys : List Bytes}

theorem wanted_signsFor : wanted (signsFor X blockHash) pubKeys sigs = quorumSigners X blockHash sigs pubKeys := by
  ext pk
  simp only [mem_wanted, quorumSigners, Finset.mem_filter, List.mem_toFinset, signsFor, Bool.and_eq_true,
    Bool.not_eq_true', List.isEmpty_eq_false_iff]
  refine and_congr_right fun _ => ⟨?_, ?_⟩
  · rintro ⟨sig, hsig, ⟨hpk, hne⟩, hverify⟩
    exact ⟨hpk, sig, hsig, hne, hverify⟩
  · rintro ⟨hpk, sig, hsig, hne, hverify⟩
    exact ⟨sig, hsig, ⟨hpk, hne⟩, hverify⟩

/-- An empty signature takes no key. -/
theorem take_empty (used : List Bytes) : take (signsFor X blockHash) pubKeys used [] = used := by
  have htest : ∀ pk, false = true ↔ pk ∉ used ∧ signsFor X blockHash pk [] = true := fun pk => by simp [signsFor]
  exact (take_eq_of_find? pubKeys htest).2 (by simp)

/-- The condition of the inner loop. -/
theorem free_and_verifies_iff (used : List Bytes) (blockHash : Bytes) {sig : Bytes} (hsig : sig.length ≠ 0) (pk : Bytes) :
    (!(pk.length == 0 || used.contains pk) && verifyDilithiumBytes X pk blockHash sig) = true ↔
      pk ∉ used ∧ signsFor X blockHash pk sig = true := by
  have hne : sig ≠ [] := fun h => hsig (by rw [h]; rfl)
  simp only [signsFor, Bool.and_eq_true, Bool.not_eq_true', Bool.or_eq_false_iff, beq_eq_false_iff_ne, ne_eq,
    List.length_eq_zero_iff, List.contains_eq_mem, decide_eq_false_iff_not, List.isEmpty_eq_false_iff, hne,
    not_false_eq_true, and_true]
  tauto

/-- The counter counts the keys in use, and the loop takes them greedily. -/
theorem addSig_eq_take {t : QuorumTally} (hcount : t.validCount = t.used.length) (sig : Bytes) :
    (t.addSig X blockHash pubKeys sig).used = take (signsFor X blockHash) pubKeys t.used sig ∧
      (t.addSig X blockHash pubKeys sig).validCount = (t.addSig X blockHash pubKeys sig).used.length := by
  unfold QuorumTally.addSig
  split
  · next hempty =>
    rw [List.length_eq_zero_iff.1 hempty, take_empty]
    exact ⟨rfl, hcount⟩
  · next hsig =>
    have htest := fun pk => free_and_verifies_iff (X := X) t.used blockHash hsig pk
    obtain ⟨hsome, hnone⟩ := take_eq_of_find? pubKeys htest
    split
    · next hfound =>
      rw [hnone hfound]
      exact ⟨rfl, hcount⟩
    · next pk hfound =>
      rw [hsome pk hfound]
      refine ⟨rfl, ?_⟩
      rw [hcount, List.length_cons]
      rfl

theorem foldl_addSig {t : QuorumTally} (hcount : t.validCount = t.used.length) :
    (sigs.foldl (QuorumTally.addSig X blockHash pubKeys) t).validCount =
      (takeAll (signsFor X blockHash) pubKeys sigs t.used).length := by
  induction sigs generalizing t with
  | nil => exact hcount
  | cons sig sigs ih =>
    obtain ⟨hused, hnext⟩ := addSig_eq_take hcount sig
    rw [List.foldl_cons, ih hnext, hused]
    rfl

/-- No listed signature verifies the block hash under two of the listed keys. -/
def OneKeyEach (X : Prims) (blockHash : Bytes) (sigs pubKeys : List Bytes) : Prop :=
  ∀ sig ∈ sigs, ∀ pk ∈ pubKeys, ∀ pk' ∈ pubKeys, verifyDilithiumBytes X pk blockHash sig = true →
    verifyDilithiumBytes X pk' blockHash sig = true → pk = pk'

theorem OneKeyEach.unambiguous (h : OneKeyEach X blockHash sigs pubKeys) : Unambiguous (signsFor X blockHash) pubKeys sigs := by
  intro sig hsig pk hpk pk' hpk' hfits hfits'
  exact h sig hsig pk hpk pk' hpk' (Bool.and_eq_true_iff.1 hfits).2 (Bool.and_eq_true_iff.1 hfits').2

theorem verifyQuorum_eq (hone : OneKeyEach X blockHash sigs pubKeys) (quorum : QuorumConfig) :
    verifyQuorum X blockHash sigs pubKeys quorum =
      if quorum.isValid = true ∧ quorum.requiredSigs ≤ (quorumSigners X blockHash sigs pubKeys).card then .ok ()
      else .error .notMet := by
  unfold verifyQuorum
  dsimp only
  rw [foldl_addSig (t := ⟨[], 0⟩) rfl, length_takeAll hone.unambiguous, wanted_signsFor]
  cases quorum.isValid with
  | false => simp
  | true =>
    by_cases hfew : ((quorumSigners X blockHash sigs pubKeys).card : Int) < quorum.requiredSigs
    · simp [hfew]
    · simp [hfew, not_lt.1 hfew]

/-- **The verdict of `VerifyQuorum`.** With signatures that verify under one key at most, it is positive exactly if the
configuration is valid and enough keys have signed; so only what is in the two lists matters, not where or how often. -/
theorem verifyQuorum_ok_iff (hone : OneKeyEach X blockHash sigs pubKeys) (quorum : QuorumConfig) :
    (verifyQuorum X blockHash sigs pubKeys quorum = .ok () ↔
      quorum.isValid = true ∧ quorum.requiredSigs ≤ (quorumSigners X blockHash sigs pubKeys).card) ∧
    ∀ sigs' pubKeys', (∀ sig, sig ∈ sigs' ↔ sig ∈ sigs) → (∀ pk, pk ∈ pubKeys' ↔ pk ∈ pubKeys) →
      verifyQuorum X blockHash sigs' pubKeys' quorum = verifyQuorum X blockHash sigs pubKeys quorum := by
  refine ⟨?_, fun sigs' pubKeys' hsigs hkeys => ?_⟩
  · rw [verifyQuorum_eq hone]
    split
    · next h => simp [h]
    · next h => simp [h]
  · have hone' : OneKeyEach X blockHash sigs' pubKeys' := by
      simp only [OneKeyEach, hsigs, hkeys]
      exact hone
    have hsigners : quorumSigners X blockHash sigs' pubKeys' = quorumSigners X blockHash sigs pubKeys := by
      ext pk
      simp only [quorumSigners, Finset.mem_filter, List.mem_toFinset, hsigs, hkeys]
    rw [verifyQuorum_eq hone', verifyQuorum_eq hone, hsigners]

namespace Sample

/-- The public key of the validator `k`, and its signature. -/
def keyOf (k : UInt8) : Bytes := (uid k).publicKey.toList

def sigOf (k : UInt8) (msg : Bytes) : Bytes := signDilithium prims (uid k).secretKey msg

theorem verify_sigOf (k k' : UInt8) (msg : Bytes) : verifyDilithiumBytes prims (keyOf k') msg (sigOf k msg) = true ↔ k' = k := by
  have hlen : (keyOf k').length = 1952 := List.Vector.toList_length _
  rw [verifyDilithiumBytes, dif_pos hlen]
  exact verify_stamp k (uid k').publicKey msg

/-- Two signers, with a signature and a key listed twice and an empty one of each. -/
def listedSigs : List Bytes := [sigOf 2 [7], sigOf 1 [7], [], sigOf 1 [7]]

def listedKeys : List Bytes := [keyOf 1, [], keyOf 2, keyOf 1]

theorem signer_of_listed {pk : Bytes} (hpk : pk ∈ listedKeys) {k : UInt8}
    (h : verifyDilithiumBytes prims pk [7] (sigOf k [7]) = true) : pk = keyOf k := by
  have hlisted : pk = [] ∨ ∃ k', pk = keyOf k' := by
    simp only [listedKeys, List.mem_cons, List.not_mem_nil, or_false] at hpk
    rcases hpk with rfl | rfl | rfl | rfl
    · exact .inr ⟨1, rfl⟩
    · exact .inl rfl
    · exact .inr ⟨2, rfl⟩
    · exact .inr ⟨1, rfl⟩
  rcases hlisted with rfl | ⟨k', rfl⟩
  · rw [verifyDilithiumBytes, dif_neg (by simp)] at h
    cases h
  · rw [(verify_sigOf k k' [7]).1 h]

theorem oneKeyEach_listed : OneKeyEach prims [7] listedSigs listedKeys := by
  intro sig hsig pk hpk pk' hpk' hverify hverify'
  have hlisted : sig = [] ∨ ∃ k, sig = sigOf k [7] := by
    simp only [listedSigs, List.mem_cons, List.not_mem_nil, or_false] at hsig
    rcases hsig with rfl | rfl | rfl | rfl
    · exact .inr ⟨2, rfl⟩
    · exact .inr ⟨1, rfl⟩
    · exact .inl rfl
    · exact .inr ⟨1, rfl⟩
  rcases hlisted with rfl | ⟨k, rfl⟩
  · unfold verifyDilithiumBytes at hverify
    split at hverify
    · have hlen := length_of_verifyDilithium hverify
      cases hlen
    · cases hverify
  · rw [signer_of_listed hpk hverify, signer_of_listed hpk' hverify']

theorem ne_nil_of_length {n : Nat} {bs : Bytes} (h : bs.length = n + 1) : bs ≠ [] := by
  rintro rfl
  cases h

/-- Validators with a listed key and a listed signature are signers. -/
theorem signer_listed {k : UInt8} (hkey : keyOf k ∈ listedKeys) (hsig : sigOf k [7] ∈ listedSigs) :
    keyOf k ∈ quorumSigners prims [7] listedSigs listedKeys := by
  have hkeyLen : (keyOf k).length = 1952 := List.Vector.toList_length _
  have hsigLen : (sigOf k [7]).length = dilithium3SignatureSize := by rw [sigOf, sign_stamp, length_stamp]
  exact Finset.mem_filter.2 ⟨List.mem_toFinset.2 hkey, ne_nil_of_length hkeyLen, sigOf k [7], hsig,
    ne_nil_of_length hsigLen, (verify_sigOf k k [7]).2 rfl⟩

theorem keyOf_inj {k k' : UInt8} (h : keyOf k = keyOf k') : k = k' := by
  have hverify := (verify_sigOf k k [7]).2 rfl
  rw [h, verify_sigOf] at hverify
  exact hverify.symm

/-- The two signers are a quorum of two. -/
theorem two_signers_met : OneKeyEach prims [7] listedSigs listedKeys ∧
    verifyQuorum prims [7] listedSigs listedKeys ⟨3, 2⟩ = .ok () := by
  refine ⟨oneKeyEach_listed, (verifyQuorum_ok_iff oneKeyEach_listed ⟨3, 2⟩).1.2 ⟨rfl, ?_⟩⟩
  have hne : keyOf 1 ≠ keyOf 2 := fun h => absurd (keyOf_inj h) (by decide)
  have hpair : {keyOf 1, keyOf 2} ⊆ quorumSigners prims [7] listedSigs listedKeys := by
    intro pk hpk
    rcases Finset.mem_insert.1 hpk with rfl | hpk
    · exact signer_listed (by simp [listedKeys]) (by simp [listedSigs])
    · rw [Finset.mem_singleton.1 hpk]
      exact signer_listed (by simp [listedKeys]) (by simp [listedSigs])
  have hcard := Finset.card_le_card hpair
  rw [Finset.card_pair hne] at hcard
  exact Int.ofNat_le.2 hcard

end Sample

end Gleipnir
