import Gleipnir.Consensus.Acceptance
import Gleipnir.Consensus.ChainLinks
import Gleipnir.Consensus.Election
import Gleipnir.Transport.History

/-!
# Messages under someone else's name

Nothing authenticates the `SignerID` of a PREPARE signature or of a VRF proof, and the first message of each signer is chosen
before any of them is verified. So the name of a validator can be taken by whoever is faster.

* `counted_iff`: the validators that a proposer counts are those with a verifying message exactly if no name is shadowed.
* `elects_least_iff`: when every peer has published a valid proof, an election elects the least output exactly if the first
  proof under the name of each other peer is valid.

Both are about either bus after any history (`Holds`).
-/

namespace Gleipnir

open Atomic Atomic.Body FirstWins

variable {X : Prims} {e e' : Engine} {t : Trace} {n : UInt64}

/-! ## What is read -/

/-- Whenever the signatures of a cycle are read, `ms` have reached the bus. -/
def ShowsSigs (ms : List BlockSig) (n : UInt64) (t : Trace) : Prop :=
  ∀ msgs, ⟨.getSigs n, msgs⟩ ∈ t → ∃ os sigs proofs, Holds os sigs proofs ∧ sigsFor n os = ms ∧ msgs = sigs n

/-- Whenever the VRF proofs of a cycle are read, `ms` have reached the bus, and possibly more after them. -/
def ShowsProofs (ms : List VRFProofMsg) (n : UInt64) (t : Trace) : Prop :=
  ∀ msgs, ⟨.getVRFProofs n, msgs⟩ ∈ t → ∃ os sigs proofs, Holds os sigs proofs ∧ ms <+: proofsFor n os ∧ msgs = proofs n

/-- A bus in memory on which nobody publishes signatures meanwhile shows those that have reached it. -/
theorem MemoryBus.showsSigs {os : List Op} {b' : MemoryBus}
    (h : Served (fun b b' : MemoryBus => ∃ o r, b.Serves o r b' ∧ o.sigFor n = none)
      (fun _ b ev b' => b.Serves ev.op ev.res b') (MemoryBus.new.after os) t b')
    (ht : ∀ ev ∈ t, ev.op.sigFor n = none) : ShowsSigs (sigsFor n os) n t := by
  have hafter : ∀ {t : Trace} {b' : MemoryBus},
      Served (fun b b' : MemoryBus => ∃ o r, b.Serves o r b' ∧ o.sigFor n = none)
        (fun _ b ev b' => b.Serves ev.op ev.res b') (MemoryBus.new.after os) t b' → (∀ ev ∈ t, ev.op.sigFor n = none) →
      ∃ os', b' = MemoryBus.new.after os' ∧ sigsFor n os' = sigsFor n os := by
    intro t b' h ht
    induction h with
    | nil => exact ⟨os, rfl, rfl⟩
    | foreign _ hf ih =>
      obtain ⟨os', rfl, hos'⟩ := ih ht
      obtain ⟨o, r, ⟨now, wait, hanswer⟩, ho⟩ := hf
      refine ⟨os' ++ [o], by rw [after_concat, ← answer_snd now wait, hanswer], ?_⟩
      rw [sigsFor_concat, ho, hos']
      exact List.append_nil _
    | @own _ _ _ ev _ ho ih =>
      obtain ⟨os', rfl, hos'⟩ := ih fun ev' hev' => ht ev' (List.mem_append_left _ hev')
      obtain ⟨now, wait, hanswer⟩ := ho
      refine ⟨os' ++ [ev.op], by rw [after_concat, ← answer_snd now wait, hanswer], ?_⟩
      rw [sigsFor_concat, ht ev (List.mem_append_right _ List.mem_cons_self), hos']
      exact List.append_nil _
  intro msgs hread
  obtain ⟨u, v, rfl⟩ := List.append_of_mem hread
  obtain ⟨b₁, b₂, h₁, ⟨now, wait, hanswer⟩, -⟩ := h.at_call
  obtain ⟨os', rfl, hos'⟩ := hafter h₁ fun ev hev => ht ev (List.mem_append_left _ hev)
  exact ⟨os', _, _, .memory _, hos', (congrArg Prod.fst hanswer).symm⟩

/-- A bus in memory that others use as they like shows the proofs that have reached it. -/
theorem MemoryBus.showsProofs {os : List Op} {b' : MemoryBus} (h : (MemoryBus.new.after os).ServedBy t b') :
    ShowsProofs (proofsFor n os) n t := by
  intro msgs hread
  obtain ⟨u, v, rfl⟩ := List.append_of_mem hread
  obtain ⟨b₁, b₂, h₁, ⟨now, wait, hanswer⟩, -⟩ := h.at_call
  obtain ⟨os', rfl⟩ := servedBy_after h₁
  refine ⟨os ++ os', _, _, .memory _, ?_, ?_⟩
  · rw [proofsFor_append]
    exact List.prefix_append _ _
  · rw [after, List.foldl_append]
    exact (congrArg Prod.fst hanswer).symm

/-! ## PREPARE signatures -/

section Signatures

variable {block : Block} {own : Bytes} {ms : List BlockSig}

/-- The signatures a proposer looks at: its own, then the messages. -/
def Engine.considered (e : Engine) (cycle : UInt64) (own : Bytes) (ms : List BlockSig) : List BlockSig :=
  ⟨cycle, own, e.node.uid.id⟩ :: ms

theorem first_considered (id : String) : first BlockSig.signerID id (e.considered n own ms) =
    if e.node.uid.id = id then some ⟨n, own, e.node.uid.id⟩ else first BlockSig.signerID id ms := by
  unfold Engine.considered first
  rw [List.find?_cons]
  by_cases hid : e.node.uid.id = id
  · simp [hid]
  · simp [hid]

theorem lookup_considered (id : String) :
    (ms.foldl addSig (AList.singleton e.node.uid.id own)).lookup id =
      (first BlockSig.signerID id (e.considered n own ms)).map BlockSig.sig := by
  rw [lookup_foldl_addSig, first_considered]
  split
  · next hid =>
    subst hid
    rw [lookup_singleton]
    rfl
  · next hid =>
    rw [lookup_singleton_ne (Ne.symm hid), Option.none_or]

/-- A proposer counts a peer if the first signature under its name verifies. -/
theorem mem_counts_iff {id : String} : id ∈ e.counts X n block own ms ↔ ∃ p ∈ e.peers, p.uid.id = id ∧
    ∃ m, first BlockSig.signerID id (e.considered n own ms) = some m ∧
      e.ActiveSignature X n p.uid.rootID block.blockHash m.sig := by
  rw [Engine.counts, mem_validSigs_iff]
  simp only [lookup_considered (n := n), Option.map_eq_some_iff]
  constructor
  · rintro ⟨_, ⟨m, hm, rfl⟩, p, hp, hver⟩
    exact ⟨p, List.mem_of_find?_eq_some hp, by simpa using List.find?_some hp, m, hm, hver⟩
  · rintro ⟨p, hp, rfl, m, hm, hver⟩
    cases hfind : e.peers.find? fun q => q.uid.id == p.uid.id with
    | none => simpa using List.find?_eq_none.1 hfind p hp
    | some q =>
      have hid : q.uid.id = p.uid.id := by simpa using List.find?_some hfind
      exact ⟨m.sig, ⟨m, hm, rfl⟩, q, rfl, by rwa [UIDZeroSoulbound.id_inj hid]⟩

theorem considered_congr {ms ms' : List BlockSig} {id : String}
    (h : first BlockSig.signerID id ms = first BlockSig.signerID id ms') :
    first BlockSig.signerID id (e.considered n own ms) = first BlockSig.signerID id (e.considered n own ms') := by
  rw [first_considered, first_considered, h]

/-- **Who a proposer counts.** It counts exactly the peers with a verifying message under their name, and itself if its own
signature verifies, exactly if the first signature it considers under each peer's name verifies when any of them does. -/
theorem counted_iff {leaderID : String} {cq : Bool} {q : Nat} {pr : PrepareResult} {rest : List Bytes}
    (hg : e.hasGossip = true) (hown : block.prepareSigs = own :: rest) (hbus : ShowsSigs ms n t)
    (h : Runs (tally X n true leaderID block cq q) e t (.done pr) e') :
    (∀ id, id ∈ pr.prepareSigs ↔ ∃ p ∈ e.peers, p.uid.id = id ∧
        ((∃ m ∈ ms, m.signerID = id ∧ e.ActiveSignature X n p.uid.rootID block.blockHash m.sig) ∨
          id = e.node.uid.id ∧ e.ActiveSignature X n p.uid.rootID block.blockHash own)) ↔
      ∀ p ∈ e.peers, Unshadowed BlockSig.signerID (fun m => e.ActiveSignature X n p.uid.rootID block.blockHash m.sig)
        p.uid.id (e.considered n own ms) := by
  obtain ⟨-, sig, rest', msgs, hs, hcounts, hread⟩ := runs_tally_certificate h
  obtain ⟨rfl, -⟩ := List.cons.inj (hown.symm.trans hs)
  obtain ⟨os, sigs, proofs, hholds, rfl, rfl⟩ := hbus _ (hread hg)
  have hcounted : ∀ id, id ∈ pr.prepareSigs ↔ ∃ p ∈ e.peers, p.uid.id = id ∧
      ∃ m, first BlockSig.signerID id (e.considered n own (sigsFor n os)) = some m ∧
        e.ActiveSignature X n p.uid.rootID block.blockHash m.sig := by
    intro id
    rw [hcounts, mem_counts_iff (n := n), considered_congr (hholds.first_sig id)]
  have hsome : ∀ (p : Peer) (id : String), ((∃ m ∈ sigsFor n os, m.signerID = id ∧
        e.ActiveSignature X n p.uid.rootID block.blockHash m.sig) ∨
      id = e.node.uid.id ∧ e.ActiveSignature X n p.uid.rootID block.blockHash own) ↔
      ∃ m ∈ e.considered n own (sigsFor n os), m.signerID = id ∧
        e.ActiveSignature X n p.uid.rootID block.blockHash m.sig := by
    intro p id
    rw [Engine.considered, List.exists_mem_cons_iff, or_comm]
    exact or_congr_left (and_congr_left' eq_comm)
  simp only [hcounted, hsome]
  constructor
  · intro hall p hp hvalid m hm
    obtain ⟨p', hp', hid, m', hm', hver⟩ := (hall p.uid.id).2 ⟨p, hp, rfl, hvalid⟩
    rw [hm] at hm'
    cases hm'
    rwa [UIDZeroSoulbound.id_inj hid] at hver
  · intro hunshadowed id
    refine exists_congr fun p => and_congr_right fun hp => and_congr_right fun hid => ?_
    subst hid
    exact valid_first_iff.2 (hunshadowed p hp)

end Signatures

/-! ## VRF proofs -/

section Proofs

variable {alpha : Bytes} {ms : List VRFProofMsg} {localProof : VRFProof}

variable (X) in
/-- The message carries a proof that verifies for the peer. -/
def ValidProof (alpha : Bytes) (p : Peer) (m : VRFProofMsg) : Prop :=
  ∃ proof gamma, unmarshalVRFProof m.proof = some proof ∧ p.uid.vrfVerifyProof X alpha proof = some gamma

/-- The proof that counts for another node is the first under its name, if it can be read. -/
theorem lookup_proofsFrom_other {me id : String} (hid : id ≠ me) (ms : List VRFProofMsg) :
    (proofsFrom me localProof (firsts VRFProofMsg.signerID ms)).lookup id =
      (first VRFProofMsg.signerID id ms).bind fun m => (unmarshalVRFProof m.proof).map some := by
  rw [proofsFrom, addProof_eq, lookup_foldl_offer, lookup_singleton_ne hid, Option.none_or, findSome?_firsts]

/-- **Who is elected.** Every peer has published a valid proof, and the engine's own proof is valid. Its PREPARE phase elects
a peer, one with the least VRF output, exactly if there are peers and the first proof that came under the name of each other
peer is valid for it. -/
theorem elects_least_iff {root : Hash} {x : Exit (Except PrepareError Peer)} (hg : e.hasGossip = true)
    (hprove : e.node.uid.vrfProve X (makeAlpha n root.toList) = some localProof)
    (hown : ∀ p ∈ e.peers, p.uid.id = e.node.uid.id →
      ∃ gamma, p.uid.vrfVerifyProof X (makeAlpha n root.toList) localProof = some gamma)
    (hall : ∀ p ∈ e.peers, ∃ m ∈ ms, m.signerID = p.uid.id ∧ ValidProof X (makeAlpha n root.toList) p m)
    (hone : ∀ p ∈ e.peers, ∀ g g', VRFOutput X (makeAlpha n root.toList) p g →
      VRFOutput X (makeAlpha n root.toList) p g' → g = g')
    (hbus : ShowsProofs ms n t) (h : Runs (elect X n root) e t x e') :
    (∃ p, x = .done (.ok p) ∧ Least X (makeAlpha n root.toList) e.peers p) ↔
      e.peers ≠ [] ∧ ∀ p ∈ e.peers, p.uid.id ≠ e.node.uid.id → ∀ m, first VRFProofMsg.signerID p.uid.id ms = some m →
        ValidProof X (makeAlpha n root.toList) p m := by
  obtain ⟨-, -, msgs, hread, rfl⟩ := runs_elect_outcome X hprove h
  obtain ⟨os, sigs, proofs, hholds, hprefix, rfl⟩ := hbus _ (hread hg).1
  have hpeers : e.proposerPeers = e.peers := if_pos hg
  rw [hpeers, hholds.proofs_eq]
  generalize hmap : proofsFrom e.node.uid.id localProof (firsts VRFProofMsg.signerID (proofsFor n os)) = peerProofs
  -- a peer has a verifying proof in the map if the first one under its name is valid
  have hproof : ∀ p ∈ e.peers, HasProof X (makeAlpha n root.toList) peerProofs p ↔ (p.uid.id ≠ e.node.uid.id →
      ∀ m, first VRFProofMsg.signerID p.uid.id ms = some m → ValidProof X (makeAlpha n root.toList) p m) := by
    intro p hp
    obtain ⟨m₀, hm₀, hid₀, -⟩ := hall p hp
    obtain ⟨m, hm⟩ := exists_first hm₀ hid₀
    by_cases hid : p.uid.id = e.node.uid.id
    · obtain ⟨gamma, hv⟩ := hown p hp hid
      refine ⟨fun _ hne => absurd hid hne, fun _ => ⟨localProof, gamma, ?_, hv⟩⟩
      rw [← hmap, hid]
      exact lookup_proofsFrom_self _ _ _
    · unfold HasProof ValidProof
      rw [← hmap, lookup_proofsFrom_other hid, first_of_prefix hprefix hm, hm]
      simp only [Option.bind_some, Option.map_eq_some_iff, Option.some.injEq, exists_eq_right, ne_eq, hid, not_false_eq_true,
        true_imp_iff, forall_eq']
  have helect : (∃ p, (Exit.done (electionOutcome (selectProposer X e.peers n root.toList peerProofs)) :
        Exit (Except PrepareError Peer)) = .done (.ok p) ∧ Least X (makeAlpha n root.toList) e.peers p) ↔
      ∃ r, selectProposerVRF X e.peers (makeAlpha n root.toList) peerProofs = .ok r := by
    unfold selectProposer
    cases hs : selectProposerVRF X e.peers (makeAlpha n root.toList) peerProofs with
    | error err => simp [electionOutcome]
    | ok r =>
      refine ⟨fun _ => ⟨r, rfl⟩, fun _ => ⟨r.1, rfl, least_of_selectProposerVRF hone hs⟩⟩
  rw [helect, selectProposerVRF_ok_iff]
  exact and_congr_right fun _ => forall₂_congr hproof

end Proofs

namespace Sample

/-- What a phase ended with. -/
def finished {α : Type} : Exit α → Option α
  | .done a => some a
  | .panic => none

/-- Engine code on a bus that ends. -/
theorem runs_finished {α : Type} {m : EngineM α} {e : Engine} {b : MemoryBus} {x : (Exit α × Engine) × Trace × MemoryBus}
    (hx : serveOn b (m e) = x) {a : α} (h : finished x.1.1 = some a) : Runs m e x.2.1 (.done a) x.1.2 := by
  subst hx
  have hdone : (serveOn b (m e)).1.1 = .done a := by
    generalize (serveOn b (m e)).1.1 = y at h
    cases y with
    | done a' => exact congrArg Exit.done (Option.some.inj h)
    | panic => cases h
  rw [← hdone]
  exact run_serveOn b (m e)

/-- The vote of the validator `k` for the candidate. -/
def voteOf (k : UInt8) : BlockSig := ⟨0, stamp k candidate.blockHash, (uid k).id⟩

/-- The first of four validators counts the signatures on a bus that `ms` have reached. -/
def tallying (ms : List BlockSig) : (Exit PrepareResult × Engine) × Trace × MemoryBus :=
  serveOn (MemoryBus.new.after (ms.map .publishSig)) (tally prims 0 true (uid 1).id candidate true 3 leader)

theorem showsSigs_tallying (ms : List BlockSig) :
    ShowsSigs (sigsFor 0 (ms.map .publishSig)) 0 (tallying ms).2.1 := by
  have hrun : Runs (tally prims 0 true (uid 1).id candidate true 3) leader (tallying ms).2.1 (tallying ms).1.1
      (tallying ms).1.2 := run_serveOn _ _
  have hreads := (reads_tally prims 0 true candidate (uid 1).id true 3 _ _ _ _ hrun).2.1
  have hserved : Served (fun b b' : MemoryBus => ∃ o r, b.Serves o r b' ∧ o.sigFor 0 = none)
      (fun _ b ev b' => b.Serves ev.op ev.res b') (MemoryBus.new.after (ms.map .publishSig)) (tallying ms).2.1
      (tallying ms).2.2 := by
    have h := Served.append_serve (F := fun b b' : MemoryBus => ∃ o r, b.Serves o r b' ∧ o.sigFor 0 = none)
      (O := fun _ b ev b' => b.Serves ev.op ev.res b') (MemoryBus.answer 1 ⟨0, false⟩) (fun _ b o => ⟨1, ⟨0, false⟩, rfl⟩)
      (tally prims 0 true (uid 1).id candidate true 3 leader) (Served.nil (b := MemoryBus.new.after (ms.map .publishSig)))
    rwa [List.nil_append] at h
  refine MemoryBus.showsSigs hserved fun ev hev => ?_
  have hop : ev.op.counting = true := hreads ev hev
  generalize ev.op = o at hop
  cases o <;> first | rfl | cases hop

/-- The votes of the second and the third validator. -/
def votes : List BlockSig := [voteOf 2, voteOf 3]

/-- The same after a message under the name of the second validator. -/
def forgedVotes : List BlockSig := ⟨0, [], (uid 2).id⟩ :: votes

/-- With the votes alone there is a quorum of three; the message keeps the second validator out of the count. -/
def talliedVotes : Computed (tallying votes, tallying forgedVotes) fun x =>
    (finished x.1.1.1).any (·.quorumReached) = true ∧
      (finished x.2.1.1).any (fun pr => !pr.quorumReached && decide ((uid 2).id ∉ pr.prepareSigs)) = true ∧
      leader.peers.all (fun p => (leader.considered 0 (stamp 1 candidate.blockHash) votes).all fun m =>
        m.signerID != p.uid.id || leader.verifySignatureWithOverlap prims p.uid.rootID candidate.blockHash m.sig 0) = true :=
  computed _ (by decide +kernel)

/-- The votes alone are counted as they should be. -/
theorem votes_counted : ∃ pr, finished (tallying votes).1.1 = some pr ∧ ∀ id, id ∈ pr.prepareSigs ↔
    ∃ p ∈ leader.peers, p.uid.id = id ∧
      ((∃ m ∈ votes, m.signerID = id ∧ leader.ActiveSignature prims 0 p.uid.rootID candidate.blockHash m.sig) ∨
        id = leader.node.uid.id ∧
          leader.ActiveSignature prims 0 p.uid.rootID candidate.blockHash (stamp 1 candidate.blockHash)) := by
  obtain ⟨x, hx, hquorum, -, hvalid⟩ := talliedVotes
  obtain ⟨pr, hpr, -⟩ := (Option.any_eq_true _ _).1 hquorum
  rw [hx] at hpr
  have hrun := runs_finished (m := tally prims 0 true (uid 1).id candidate true 3) (e := leader)
    (b := MemoryBus.new.after (votes.map .publishSig)) (x := tallying votes) rfl hpr
  refine ⟨pr, hpr, (counted_iff rfl rfl (showsSigs_tallying votes) hrun).2 fun p hp _ m hm => ?_⟩
  obtain ⟨hmem, hid⟩ := key_of_first hm
  have hver := List.all_eq_true.1 (List.all_eq_true.1 hvalid p hp) m hmem
  rw [hid, bne_self_eq_false, Bool.false_or] at hver
  exact (verifySignatureWithOverlap_iff prims).1 hver

/-- The second validator has voted, its vote verifies, and it is not counted; the quorum is lost. -/
theorem vote_shadowed : ∃ e block own rest ms t pr e', e.hasGossip = true ∧ block.prepareSigs = own :: rest ∧
    ShowsSigs ms 0 t ∧ Runs (tally prims 0 true e.node.uid.id block true 3) e t (.done pr) e' ∧ pr.quorumReached = false ∧
    ∃ p ∈ e.peers, (∃ m ∈ ms, m.signerID = p.uid.id ∧ e.ActiveSignature prims 0 p.uid.rootID block.blockHash m.sig) ∧
      p.uid.id ∉ pr.prepareSigs := by
  obtain ⟨x, hx, -, hforged, hvalid⟩ := talliedVotes
  obtain ⟨pr, hpr, hfacts⟩ := (Option.any_eq_true _ _).1 hforged
  rw [hx] at hpr
  have hrun := runs_finished (m := tally prims 0 true (uid 1).id candidate true 3) (e := leader)
    (b := MemoryBus.new.after (forgedVotes.map .publishSig)) (x := tallying forgedVotes) rfl hpr
  simp only [Bool.and_eq_true, Bool.not_eq_true', decide_eq_true_eq] at hfacts
  have hmember : member 2 "b" ∈ leader.peers := List.mem_cons_of_mem _ List.mem_cons_self
  have hver := List.all_eq_true.1 (List.all_eq_true.1 hvalid _ hmember) (voteOf 2)
    (List.mem_cons_of_mem _ List.mem_cons_self)
  refine ⟨leader, candidate, _, _, _, _, pr, _, rfl, rfl, showsSigs_tallying forgedVotes, hrun, hfacts.1, member 2 "b",
    hmember, ⟨voteOf 2, List.mem_cons_of_mem _ List.mem_cons_self, rfl, ?_⟩, hfacts.2⟩
  rw [show (voteOf 2).signerID = (member 2 "b").uid.id from rfl, bne_self_eq_false, Bool.false_or] at hver
  exact (verifySignatureWithOverlap_iff prims).1 hver

/-! ## An election -/

/-- The first of two validators holds the election of the first cycle on a bus that `ms` have reached. -/
def electing (ms : List VRFProofMsg) : (Exit (Except PrepareError Peer) × Engine) × Trace × MemoryBus :=
  serveOn (MemoryBus.new.after (ms.map .publishVRFProof)) (elect prims 0 (Arr.zero 32) (two 1))

/-- The proofs of both validators. -/
def bothProofs : List VRFProofMsg := [vrfMsg 1 0 (Arr.zero 32).toList, vrfMsg 2 0 (Arr.zero 32).toList]

/-- The same after the proof of the first validator, sent under the name of the second. -/
def stolenName : List VRFProofMsg := { vrfMsg 1 0 (Arr.zero 32).toList with signerID := (uid 2).id } :: bothProofs

theorem run_electing (ms : List VRFProofMsg) :
    Runs (elect prims 0 (Arr.zero 32)) (two 1) (electing ms).2.1 (electing ms).1.1 (electing ms).1.2 := run_serveOn _ _

theorem verify_proof (k : UInt8) (alpha : Bytes) :
    prims.ecvrfVerify (uid k).vrfPublicKey alpha ⟨Arr.copy 32 [k], digest alpha, Arr.zero 32⟩ = true :=
  Bool.and_eq_true_iff.2 ⟨beq_self_eq_true _, beq_self_eq_true _⟩

theorem validProof_vrfMsg (k : UInt8) (n : UInt64) (root : Bytes) :
    ValidProof prims (makeAlpha n root) (peer k) (vrfMsg k n root) :=
  ⟨_, _, unmarshal_marshalVRFProof _, if_pos (verify_proof k _)⟩

theorem valid_bothProofs : ∀ p ∈ (two 1).peers, ∃ m ∈ bothProofs, m.signerID = p.uid.id ∧
    ValidProof prims (makeAlpha 0 (Arr.zero 32).toList) p m := by
  intro p hp
  rcases List.mem_cons.1 hp with rfl | hp
  · exact ⟨_, List.mem_cons_self, rfl, validProof_vrfMsg 1 0 _⟩
  · obtain rfl := List.mem_singleton.1 hp
    exact ⟨_, List.mem_cons_of_mem _ List.mem_cons_self, rfl, validProof_vrfMsg 2 0 _⟩

theorem shows_electing (ms : List VRFProofMsg) :
    ShowsProofs (proofsFor 0 (ms.map .publishVRFProof)) 0 (electing ms).2.1 :=
  MemoryBus.showsProofs (servedBy_serveOn _ _)

/-- The node's own proof. -/
def ownProof : VRFProof := ⟨Arr.copy 32 [1], digest (makeAlpha 0 (Arr.zero 32).toList), Arr.zero 32⟩

theorem vrfProve_ownProof : (two 1).node.uid.vrfProve prims (makeAlpha 0 (Arr.zero 32).toList) = some ownProof := by
  have hgamma : Arr.copy 32 (uid 1).vrfSecretKey = Arr.copy 32 [1] := by decide
  have hlen : ¬ (uid 1).vrfSecretKey.length ≠ 32 := by decide
  change (uid 1).vrfProve prims _ = _
  rw [UIDZeroSoulbound.vrfProve, if_neg hlen, ownProof, ← hgamma]
  rfl

theorem ownProof_valid : ∀ p ∈ (two 1).peers, p.uid.id = (two 1).node.uid.id →
    ∃ gamma, p.uid.vrfVerifyProof prims (makeAlpha 0 (Arr.zero 32).toList) ownProof = some gamma := by
  intro p hp hid
  rcases List.mem_cons.1 hp with rfl | hp
  · exact ⟨_, if_pos (verify_proof 1 _)⟩
  · obtain rfl := List.mem_singleton.1 hp
    have hbyte := congrArg (fun id : RootID => id.toList.headD 0) (UIDZeroSoulbound.id_inj hid)
    exact absurd hbyte (by decide)

theorem one_output {p : Peer} {g g' : Arr 32} {alpha : Bytes} (h : VRFOutput prims alpha p g)
    (h' : VRFOutput prims alpha p g') : g = g' := (vrfOutput_eq h).trans (vrfOutput_eq h').symm

/-- With the proofs of both, one of them is elected. -/
theorem bothProofs_elect : ∃ p, (electing bothProofs).1.1 = .done (.ok p) ∧
    Least prims (makeAlpha 0 (Arr.zero 32).toList) (two 1).peers p := by
  refine (elects_least_iff rfl vrfProve_ownProof ownProof_valid valid_bothProofs (fun p _ _ _ => one_output)
    (shows_electing bothProofs) (run_electing bothProofs)).2 ⟨List.cons_ne_nil _ _, fun p hp hid m hm => ?_⟩
  rcases List.mem_cons.1 hp with rfl | hp
  · exact absurd rfl hid
  · obtain rfl := List.mem_singleton.1 hp
    cases hm
    exact validProof_vrfMsg 2 0 _

/-- With the stolen name nobody is. -/
def nobodyElected : Computed (electing stolenName) fun x => (returned x.1.1).isNone = true := computed _ (by decide +kernel)

/-- Both validators have published their proofs, and the election fails. -/
theorem election_blocked : ∃ e ms t x e', e.hasGossip = true ∧ e.node.uid.vrfProve prims (makeAlpha 0 (Arr.zero 32).toList) =
      some ownProof ∧
    (∀ p ∈ e.peers, p.uid.id = e.node.uid.id →
      ∃ gamma, p.uid.vrfVerifyProof prims (makeAlpha 0 (Arr.zero 32).toList) ownProof = some gamma) ∧
    (∀ p ∈ e.peers, ∃ m ∈ ms, m.signerID = p.uid.id ∧ ValidProof prims (makeAlpha 0 (Arr.zero 32).toList) p m) ∧
    e.peers.length = 2 ∧ ShowsProofs ms 0 t ∧ Runs (elect prims 0 (Arr.zero 32)) e t x e' ∧ ¬ ∃ p, x = .done (.ok p) := by
  have hrun := run_electing stolenName
  have hshows := shows_electing stolenName
  obtain ⟨x, hx, hnone⟩ := nobodyElected
  rw [← hx] at hrun hshows
  refine ⟨two 1, stolenName, _, _, _, rfl, vrfProve_ownProof, ownProof_valid, fun p hp => ?_, rfl, hshows, hrun, ?_⟩
  · obtain ⟨m, hm, hvalid⟩ := valid_bothProofs p hp
    exact ⟨m, List.mem_cons_of_mem _ hm, hvalid⟩
  · rintro ⟨p, hp⟩
    rw [hp] at hnone
    cases hnone

end Sample

end Gleipnir
