import Gleipnir.Consensus.Triad
import Gleipnir.Sample

/-!
# Agreement on the proposer

`selectProposer` walks the peers in the order of its list and reads a map of collected proofs. Neither matters to the
outcome: it succeeds when every peer has a verifying proof (`selectProposerVRF_ok_iff`), and then it elects the peer whose
VRF output is smallest (`smallest_of_selectProposerVRF`). This uses of the VRF that a key has one output for an input, and of
the peers that their outputs differ.
-/

namespace Gleipnir

variable (X : Prims)

/-- `gamma` is an output of the peer's VRF key for the input `alpha`: some proof of it verifies. -/
def VRFOutput (alpha : Bytes) (p : Peer) (gamma : Arr 32) : Prop :=
  ∃ proof, p.uid.vrfVerifyProof X alpha proof = some gamma

/-- The map holds a verifying proof of the peer. -/
def HasProof (alpha : Bytes) (peerProofs : VRFProofs) (p : Peer) : Prop :=
  ∃ proof gamma, peerProofs.lookup p.uid.id = some (some proof) ∧ p.uid.vrfVerifyProof X alpha proof = some gamma

/-- The VRF output of `p` comes before that of every other peer, as byte strings. -/
def Smallest (alpha : Bytes) (peers : List Peer) (p : Peer) : Prop :=
  p ∈ peers ∧ ∃ gamma, VRFOutput X alpha p gamma ∧
    ∀ q ∈ peers, q ≠ p → ∀ gamma', VRFOutput X alpha q gamma' → byteValues gamma.toList < byteValues gamma'.toList

/-- No peer has a smaller VRF output than `p`, as byte strings. -/
def Least (alpha : Bytes) (peers : List Peer) (p : Peer) : Prop :=
  p ∈ peers ∧ ∃ gamma, VRFOutput X alpha p gamma ∧
    ∀ q ∈ peers, ∀ gamma', VRFOutput X alpha q gamma' → byteValues gamma.toList ≤ byteValues gamma'.toList

variable {X} {alpha : Bytes} {peers peers' : List Peer} {peerProofs : VRFProofs}

theorem hasProof_iff {p : Peer} : HasProof X alpha peerProofs p ↔ ∃ b, ballot X alpha peerProofs p = .ok b := by
  constructor
  · rintro ⟨proof, gamma, hl, hv⟩
    exact ⟨⟨p, proof, gamma⟩, (ballot_ok X).2 ⟨rfl, hl, hv⟩⟩
  · rintro ⟨b, hb⟩
    obtain ⟨-, hl, hv⟩ := (ballot_ok X).1 hb
    exact ⟨b.proof, b.gamma, hl, hv⟩

theorem exists_ballots : ∀ {peers : List Peer}, (∀ p ∈ peers, HasProof X alpha peerProofs p) →
    ∃ bs, Ballots X alpha peerProofs peers bs
  | [], _ => ⟨[], .nil⟩
  | p :: ps, h => by
    obtain ⟨b, hb⟩ := hasProof_iff.1 (h p List.mem_cons_self)
    obtain ⟨bs, hbs⟩ := exists_ballots fun q hq => h q (List.mem_cons_of_mem _ hq)
    exact ⟨b :: bs, .cons hb hbs⟩

/-- The selection succeeds when there are peers and the map holds a verifying proof of each. -/
theorem selectProposerVRF_ok_iff : (∃ r, selectProposerVRF X peers alpha peerProofs = .ok r) ↔
    peers ≠ [] ∧ ∀ p ∈ peers, HasProof X alpha peerProofs p := by
  constructor
  · rintro ⟨r, hr⟩
    obtain ⟨b, bs, hbs, -⟩ := (selectProposerVRF_ok X).1 hr
    refine ⟨?_, fun p hp => ?_⟩
    · rintro rfl
      cases hbs
    · obtain ⟨b', -, hb'⟩ := hbs.of_peer hp
      exact hasProof_iff.2 ⟨b', hb'⟩
  · rintro ⟨hne, hall⟩
    obtain ⟨bs, hbs⟩ := exists_ballots hall
    cases bs with
    | nil =>
      cases hbs
      exact absurd rfl hne
    | cons b bs => exact ⟨_, (selectProposerVRF_ok X).2 ⟨b, bs, hbs, rfl⟩⟩

theorem Smallest.unique {p q : Peer} (hp : Smallest X alpha peers p) (hq : Smallest X alpha peers q) : p = q := by
  by_contra hne
  obtain ⟨hpm, g, hg, hpq⟩ := hp
  obtain ⟨hqm, g', hg', hqp⟩ := hq
  exact lt_asymm (hpq q hqm (Ne.symm hne) g' hg') (hqp p hpm hne g hg)

theorem Smallest.perm (hperm : peers.Perm peers') {p : Peer} (h : Smallest X alpha peers p) :
    Smallest X alpha peers' p := by
  obtain ⟨hp, gamma, hgamma, hmin⟩ := h
  exact ⟨hperm.mem_iff.1 hp, gamma, hgamma, fun q hq => hmin q (hperm.mem_iff.2 hq)⟩

/-- The peer that is selected has the least output. -/
theorem least_of_selectProposerVRF {r : Peer × VRFProof}
    (hone : ∀ p ∈ peers, ∀ g g', VRFOutput X alpha p g → VRFOutput X alpha p g' → g = g')
    (h : selectProposerVRF X peers alpha peerProofs = .ok r) : Least X alpha peers r.1 := by
  obtain ⟨b, bs, hbs, rfl⟩ := (selectProposerVRF_ok X).1 h
  obtain ⟨p, hp, hbp⟩ := hbs.of_ballot (Argmin.minBy_mem Ballot.key b bs)
  obtain ⟨rfl, -, hv⟩ := (ballot_ok X).1 hbp
  refine ⟨hp, _, ⟨_, hv⟩, fun q hq gamma' hgamma' => ?_⟩
  obtain ⟨c, hc, hcq⟩ := hbs.of_peer hq
  obtain ⟨-, -, hcv⟩ := (ballot_ok X).1 hcq
  obtain rfl := hone q hq _ _ ⟨_, hcv⟩ hgamma'
  exact Argmin.minBy_le Ballot.key b bs c hc

/-- The peer that is selected has the smallest output. -/
theorem smallest_of_selectProposerVRF {r : Peer × VRFProof}
    (hone : ∀ p ∈ peers, ∀ g g', VRFOutput X alpha p g → VRFOutput X alpha p g' → g = g')
    (hapart : ∀ p ∈ peers, ∀ q ∈ peers, ∀ g, VRFOutput X alpha p g → VRFOutput X alpha q g → p = q)
    (h : selectProposerVRF X peers alpha peerProofs = .ok r) : Smallest X alpha peers r.1 := by
  obtain ⟨hp, gamma, hgamma, hmin⟩ := least_of_selectProposerVRF hone h
  refine ⟨hp, gamma, hgamma, fun q hq hne gamma' hgamma' => lt_of_le_of_ne (hmin q hq gamma' hgamma') fun heq => hne ?_⟩
  obtain rfl : gamma = gamma' := List.Vector.toList_injective (byteValues_inj heq)
  exact (hapart _ hp q hq _ hgamma hgamma').symm

/-- **Agreement on the proposer.** Two selections over the same peers, in any order and from any two maps of proofs, elect
the one peer with the smallest VRF output; a selection succeeds when there are peers and its map has a verifying proof of
every one. -/
theorem selectProposer_agrees (cycle : UInt64) (stateRoot : Bytes) (hperm : peers.Perm peers')
    (hone : ∀ p ∈ peers, ∀ g g', VRFOutput X (makeAlpha cycle stateRoot) p g →
      VRFOutput X (makeAlpha cycle stateRoot) p g' → g = g')
    (hapart : ∀ p ∈ peers, ∀ q ∈ peers, ∀ g, VRFOutput X (makeAlpha cycle stateRoot) p g →
      VRFOutput X (makeAlpha cycle stateRoot) q g → p = q) (proofs proofs' : VRFProofs) :
    ((∃ r, selectProposer X peers cycle stateRoot proofs = .ok r) ↔
        peers ≠ [] ∧ ∀ p ∈ peers, HasProof X (makeAlpha cycle stateRoot) proofs p) ∧
      ∀ r r', selectProposer X peers cycle stateRoot proofs = .ok r →
        selectProposer X peers' cycle stateRoot proofs' = .ok r' →
        r.1 = r'.1 ∧ Smallest X (makeAlpha cycle stateRoot) peers r.1 ∧
          ∀ p, Smallest X (makeAlpha cycle stateRoot) peers p → p = r.1 := by
  refine ⟨selectProposerVRF_ok_iff, fun r r' hr hr' => ?_⟩
  have hsmall := smallest_of_selectProposerVRF hone hapart hr
  have hsmall' : Smallest X (makeAlpha cycle stateRoot) peers' r'.1 := by
    refine smallest_of_selectProposerVRF (fun p hp => hone p (hperm.mem_iff.2 hp)) (fun p hp q hq => ?_) hr'
    exact hapart p (hperm.mem_iff.2 hp) q (hperm.mem_iff.2 hq)
  exact ⟨hsmall.unique (hsmall'.perm hperm.symm), hsmall, fun p hp => hp.unique hsmall⟩

namespace Sample

theorem vrfOutput_eq {p : Peer} {gamma : Arr 32} (h : VRFOutput prims alpha p gamma) : gamma = p.uid.vrfPublicKey := by
  obtain ⟨proof, hv⟩ := h
  rw [vrfVerifyProof_gamma prims hv]
  unfold UIDZeroSoulbound.vrfVerifyProof at hv
  split at hv
  · next hverify => exact eq_of_beq (Bool.and_eq_true_iff.1 hverify).1
  · cases hv

/-- The proof of a validator for the first cycle. -/
def firstProof (k : UInt8) : VRFProof := ⟨(uid k).vrfPublicKey, digest (makeAlpha 0 []), Arr.zero 32⟩

/-- The proofs of the first two validators. -/
def twoProofs : VRFProofs :=
  (AList.singleton (uid 1).id (some (firstProof 1))).insert (uid 2).id (some (firstProof 2))

/-- Both orders of two validators elect the first one. -/
theorem two_agree : selectProposer prims [peer 1, peer 2] 0 [] twoProofs = .ok (peer 1, firstProof 1) ∧
    selectProposer prims [peer 2, peer 1] 0 [] twoProofs = .ok (peer 1, firstProof 1) ∧
    Smallest prims (makeAlpha 0 []) [peer 1, peer 2] (peer 1) := by
  have hkeys : ∀ p ∈ [peer 1, peer 2], ∀ q ∈ [peer 1, peer 2], p.uid.vrfPublicKey = q.uid.vrfPublicKey → p = q := by
    decide +kernel
  have h₁ : selectProposer prims [peer 1, peer 2] 0 [] twoProofs = .ok (peer 1, firstProof 1) := by decide +kernel
  have h₂ : selectProposer prims [peer 2, peer 1] 0 [] twoProofs = .ok (peer 1, firstProof 1) := by decide +kernel
  have h := selectProposer_agrees (X := prims) 0 [] (List.Perm.swap (peer 2) (peer 1) [])
    (fun p _ g g' hg hg' => (vrfOutput_eq hg).trans (vrfOutput_eq hg').symm)
    (fun p hp q hq g hg hg' => hkeys p hp q hq ((vrfOutput_eq hg).symm.trans (vrfOutput_eq hg'))) twoProofs twoProofs
  exact ⟨h₁, h₂, (h.2 _ _ h₁ h₂).2.1⟩

end Sample

end Gleipnir
