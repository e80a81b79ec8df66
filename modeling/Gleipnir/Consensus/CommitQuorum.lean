import Gleipnir.Consensus.CommitSpec
import Gleipnir.Lib.Quorum
import Gleipnir.Sample

/-!
# The quorum behind a committed block

What the certificate of a block accepted by a non-leader proves. The bitmap attributes the signatures of the payload to
the peers, and `verifyPrepareQuorum` checks every attributed signature (`verifyPrepareQuorum_iff`); but it reads the
number it requires off the metadata of the block, which nothing signs. `commit_quorum_iff` says when the quorum of
signatures is there.
-/

namespace Gleipnir

open Atomic Atomic.Body Quorum

variable (X : Prims)

/-! ## Signatures in a block -/

/-- The signature the bitmap attributes to the peer at position `i` is an active signature of the block hash. -/
def Engine.SignedAt (e : Engine) (cycle : UInt64) (block : Block) (p : Peer) (i : Nat) : Prop :=
  ∃ sig, block.prepareSigs[countBitsBefore block.prepareSigsBitmap i]? = some sig ∧
    e.ActiveSignature X cycle p.uid.rootID block.blockHash sig

/-- At least `⌈2N/3⌉` validators have a signature inside the block, wherever it stands. -/
def Engine.QuorumSigned (e : Engine) (cycle : UInt64) (block : Block) : Prop :=
  ∃ S : Finset RootID, quorumRequired e.peers.length ≤ S.card ∧
    ∀ id ∈ S, (∃ p ∈ e.peers, p.uid.rootID = id) ∧
      ∃ sig ∈ block.prepareSigs, e.ActiveSignature X cycle id block.blockHash sig

/-- At least `⌈2N/3⌉` validators have a signature inside the block that the bitmap attributes to them. -/
def Engine.Certified (e : Engine) (cycle : UInt64) (block : Block) : Prop :=
  ∃ S : Finset RootID, quorumRequired e.peers.length ≤ S.card ∧
    ∀ id ∈ S, ∃ i p, e.peers[i]? = some p ∧ p.uid.rootID = id ∧ bitSet block.prepareSigsBitmap i = true ∧
      e.SignedAt X cycle block p i

variable {e e' : Engine} {cycle : UInt64} {block : Block}

theorem Engine.Certified.quorumSigned (h : e.Certified X cycle block) : e.QuorumSigned X cycle block := by
  obtain ⟨S, hS, hsigned⟩ := h
  refine ⟨S, hS, fun id hid => ?_⟩
  obtain ⟨i, p, hp, rfl, -, sig, hsig, hactive⟩ := hsigned id hid
  exact ⟨⟨p, List.mem_of_getElem? hp, rfl⟩, sig, List.mem_of_getElem? hsig, hactive⟩

/-! ## What the verification establishes -/

/-- The loop counts the marks it passes, and gives up at the first one without a valid signature. -/
theorem countVerified_iff {ps : List (Peer × Nat)} {n m : Nat} : e.countVerified X cycle block ps n = some m ↔
    m = n + ps.countP (fun pi => bitSet block.prepareSigsBitmap pi.2) ∧
      ∀ pi ∈ ps, bitSet block.prepareSigsBitmap pi.2 = true → e.SignedAt X cycle block pi.1 pi.2 := by
  induction ps generalizing n with
  | nil =>
    simp only [Engine.countVerified, Option.some.injEq, List.countP_nil, Nat.add_zero, List.not_mem_nil]
    exact ⟨fun h => ⟨h.symm, fun _ h => absurd h not_false⟩, fun h => h.1.symm⟩
  | cons pi ps ih =>
    obtain ⟨p, i⟩ := pi
    unfold Engine.countVerified
    rw [List.forall_mem_cons]
    cases hb : bitSet block.prepareSigsBitmap i with
    | false =>
      rw [List.countP_cons_of_neg (by simp [hb])]
      simp [ih]
    | true =>
      rw [List.countP_cons_of_pos (by exact hb)]
      cases hsig : block.prepareSigs[countBitsBefore block.prepareSigsBitmap i]? with
      | none => simp [Engine.SignedAt, hsig]
      | some sig =>
        have hsigned : e.SignedAt X cycle block p i ↔
            e.verifySignatureWithOverlap X p.uid.rootID block.blockHash sig cycle = true := by
          simp [Engine.SignedAt, hsig, verifySignatureWithOverlap_iff]
        cases hv : e.verifySignatureWithOverlap X p.uid.rootID block.blockHash sig cycle with
        | false => simp [hsigned, hv]
        | true => simp [hsigned, hv, ih, Nat.add_assoc, Nat.add_comm 1]

/-- **What `verifyPrepareQuorum` accepts**: every mark is backed by a signature, and the marks are as many as the regime of
the block's own metadata asks for. -/
theorem verifyPrepareQuorum_iff : e.verifyPrepareQuorum X cycle block = true ↔
    (block.prepareSigsBitmap ≠ [] ∧ block.prepareSigs ≠ []) ∧
      (∀ i p, e.peers[i]? = some p → bitSet block.prepareSigsBitmap i = true → e.SignedAt X cycle block p i) ∧
      (if block.labelledDegraded then 1 else quorumRequired e.peers.length) ≤
        countBitsBefore block.prepareSigsBitmap e.peers.length := by
  have hall : (∀ pi ∈ e.peers.zipIdx, bitSet block.prepareSigsBitmap pi.2 = true → e.SignedAt X cycle block pi.1 pi.2) ↔
      ∀ i p, e.peers[i]? = some p → bitSet block.prepareSigsBitmap i = true → e.SignedAt X cycle block p i := by
    simp only [Prod.forall, List.mem_zipIdx_iff_getElem?]
    exact forall_comm
  unfold Engine.verifyPrepareQuorum
  split
  · next hnil =>
    refine ⟨fun h => (by cases h), fun h => ?_⟩
    exact absurd hnil (not_or.2 h.1)
  · next hnil =>
    rw [and_iff_right (not_or.1 hnil)]
    cases hcount : e.countVerified X cycle block e.peers.zipIdx 0 with
    | none =>
      refine ⟨fun h => (by cases h), fun h => ?_⟩
      rw [(countVerified_iff X).2 ⟨rfl, hall.2 h.1⟩] at hcount
      cases hcount
    | some n =>
      obtain ⟨hn, hsigned⟩ := (countVerified_iff X).1 hcount
      rw [Nat.zero_add, countP_zipIdx] at hn
      rw [and_iff_right (hall.1 hsigned), decide_eq_true_eq, hn]
      rfl

theorem certified_iff (hd : (e.peers.map fun p => p.uid.rootID).Nodup)
    (hall : ∀ i p, e.peers[i]? = some p → bitSet block.prepareSigsBitmap i = true → e.SignedAt X cycle block p i) :
    e.Certified X cycle block ↔
      quorumRequired e.peers.length ≤ countBitsBefore block.prepareSigsBitmap e.peers.length := by
  have hcard := card_named (m := bitSet block.prepareSigsBitmap) hd
  constructor
  · rintro ⟨S, hS, hsigned⟩
    have hsub : S ⊆ named (fun p : Peer => p.uid.rootID) e.peers (bitSet block.prepareSigsBitmap) := by
      intro id hid
      obtain ⟨i, p, hp, hpid, hbit, -⟩ := hsigned id hid
      exact mem_named.2 ⟨i, p, hp, hbit, hpid⟩
    exact hS.trans ((Finset.card_le_card hsub).trans hcard.le)
  · intro hmarks
    refine ⟨_, hmarks.trans hcard.ge, fun id hid => ?_⟩
    obtain ⟨i, p, hp, hbit, hpid⟩ := mem_named.1 hid
    exact ⟨i, p, hp, hpid, hbit, hall i p hp hbit⟩

/-! ## The committed block -/

/-- A final block that passes the checks is committed as soon as it is read. -/
theorem runs_followed {pr : PrepareResult} (hq : pr.quorumReached = true) (hl : pr.leaderID ≠ e.node.uid.id)
    (hg : e.hasGossip = true) (hcheck : e.checkFinal X cycle pr.leaderID block = .ok block) :
    Runs (runCommitPhase X cycle pr) e [⟨.patience, ⟨0, false⟩⟩, ⟨.getFinal cycle, some block⟩] (.done (.ok block)) e := by
  have hwait : Runs (waitForFinal cycle) e [⟨.patience, ⟨0, false⟩⟩, ⟨.getFinal cycle, some block⟩]
      (.done (some block)) e := .call _ (.call _ (.ret _))
  unfold runCommitPhase acceptFinal
  rw [runs_get_bind]
  simp only [hq, hl, Bool.not_true, Bool.false_eq_true, if_false]
  rw [runs_get_bind]
  simp only [hg, if_true]
  refine runs_bind_done.2 ⟨_, _, _, [], (List.append_nil _).symm, hwait, ?_⟩
  simp only [hcheck]
  exact runs_pure.2 ⟨rfl, rfl, rfl⟩

/-- **The quorum behind a commit.** A block that a non-leader commits carries the signatures of a quorum exactly when it
is not labelled degraded or marks a quorum all the same; the label alone takes the requirement away. -/
theorem commit_quorum_iff {pr : PrepareResult} {t : Trace} (hd : (e.peers.map fun p => p.uid.rootID).Nodup)
    (hl : pr.leaderID ≠ e.node.uid.id) (h : Runs (runCommitPhase X cycle pr) e t (.done (.ok block)) e') :
    (e.Certified X cycle block ↔ block.labelledDegraded = false ∨
        quorumRequired e.peers.length ≤ countBitsBefore block.prepareSigsBitmap e.peers.length) ∧
      (e.Certified X cycle block → e.QuorumSigned X cycle block) := by
  refine ⟨?_, Engine.Certified.quorumSigned X⟩
  obtain ⟨-, hfinal⟩ := runs_commitPhase X h
  cases hfinal with
  | led hq hl' ht => exact absurd hl' hl
  | followed hq hl' hg ht hread hcheck =>
    obtain ⟨-, hall, hmarks⟩ := (verifyPrepareQuorum_iff X).1 (checkFinal_ok X hcheck).2.1
    rw [certified_iff X hd hall]
    refine ⟨Or.inr, fun hor => hor.elim (fun hlabel => ?_) id⟩
    rwa [hlabel, if_neg (by simp)] at hmarks

namespace Sample

/-- A PREPARE result that names the first validator as the leader. -/
def ledByFirst : PrepareResult where
  block := bareBlock 0 1 [] [] ⟨4, 3⟩
  prepareSigs := ∅
  prepareBitmap := []
  leaderID := (uid 1).id
  quorumReached := true

/-- A final block of the first validator, with its own and the listed validators' signatures. -/
def final (signers : List UInt8) (bitmap : Bytes) (metadata : AList fun _ : String => Bytes) : Block :=
  let b := bareBlock 0 1 [] [] ⟨4, 3⟩
  let commitSig := stamp 1 b.blockHash
  { b with
    prepareSigsBitmap := bitmap
    prepareSigs := signers.map fun k => stamp k b.blockHash
    commitSig, metadata }

/-- The second validator commits a block that passes its checks when it reads it at once. -/
theorem runs_four {b : Block} (h : (four.checkFinal prims 0 ledByFirst.leaderID b).isOk = true) :
    Runs (runCommitPhase prims 0 ledByFirst) four [⟨.patience, ⟨0, false⟩⟩, ⟨.getFinal 0, some b⟩] (.done (.ok b)) four := by
  refine runs_followed prims rfl (by decide +kernel) rfl ?_
  cases hc : four.checkFinal prims 0 ledByFirst.leaderID b with
  | error err =>
    rw [hc] at h
    cases h
  | ok b' => rw [(checkFinal_ok prims hc).1]

/-- Three signatures and no label: the block is certified. -/
theorem four_certified : four.Certified prims 0 (final [1, 2, 3] [7] ∅) :=
  (commit_quorum_iff prims (by decide +kernel) (by decide +kernel)
    (runs_four (b := final [1, 2, 3] [7] ∅) (by decide +kernel))).1.2 (.inl (by decide +kernel))

/-- One signature and the label: the block is committed by a fresh engine of four validators outside degraded mode, and no
quorum signed it. -/
theorem four_commits_unsigned : ∃ t e', four.Fresh ∧ 4 ≤ four.peers.length ∧
    (four.peers.map fun p => p.uid.rootID).Nodup ∧ four.degraded.inDegraded = false ∧
    ledByFirst.leaderID ≠ four.node.uid.id ∧
    Runs (runCommitPhase prims 0 ledByFirst) four t (.done (.ok (final [1] [1] degradedMetadata))) e' ∧
    ¬ four.QuorumSigned prims 0 (final [1] [1] degradedMetadata) := by
  refine ⟨_, _, .inr ⟨_, _, _, rfl⟩, by decide +kernel, by decide +kernel, rfl, by decide +kernel,
    runs_four (b := final [1] [1] degradedMetadata) (by decide +kernel), ?_⟩
  rintro ⟨S, hS, hsigned⟩
  -- the one signature verifies for the first validator only
  have hone : ∀ p ∈ four.peers, ∀ sig ∈ (final [1] [1] degradedMetadata).prepareSigs,
      four.verifySignatureWithOverlap prims p.uid.rootID (final [1] [1] degradedMetadata).blockHash sig 0 = true →
      p.uid.rootID = (uid 1).rootID := by decide +kernel
  have hsub : S ⊆ {(uid 1).rootID} := by
    intro id hid
    obtain ⟨⟨p, hp, rfl⟩, sig, hsig, hactive⟩ := hsigned id hid
    exact Finset.mem_singleton.2 (hone p hp sig hsig ((verifySignatureWithOverlap_iff prims).2 hactive))
  have hcard := Finset.card_le_card hsub
  have hq : quorumRequired four.peers.length = 3 := by decide +kernel
  rw [Finset.card_singleton] at hcard
  omega

end Sample

end Gleipnir
