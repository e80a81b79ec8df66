import Gleipnir.Consensus.Equivocation
import Gleipnir.Consensus.PastKeys
import Gleipnir.Validation.ActiveKeys

/-!
# The key an engine signs with

`RotateKey` announces the rotation of the node's own key, but no call changes the secret key of the node: an engine signs
with the key it was built with for ever. Its PREPARE signatures count as long as that key does, which is up to the end of the
overlap window of its first rotation (`Unretired`). `own_votes_iff` is the exact condition, for every cycle of every run.
-/

namespace Gleipnir

open Atomic Atomic.Body KeyRotationValidator

variable (X : Prims)

/-! ## The pool of a cycle -/

/-- The trace of a cycle tells what the cycle took in. -/
theorem ready_unique {e : Engine} {t : Trace} {pool pool' : List ProvenanceEntry} (h : e.ingestTrace pool <+: t)
    (h' : e.ingestTrace pool' <+: t) : e.ready X pool = e.ready X pool' := by
  have hstart : e.start pool = e.start pool' := by
    by_cases hg : e.hasGossip = true
    · simp only [Engine.ingestTrace, hg, if_true] at h h'
      obtain ⟨v, rfl⟩ := h
      obtain ⟨v', hv'⟩ := h'
      cases hv'
      rfl
    · exact Engine.start_alone (by simpa using hg) pool pool'
  rw [Engine.ready, hstart]
  rfl

theorem cycle_pool {e e' : Engine} {l : Called} (h : EngineStep X e l e') (hc : l.call = .runCycle) :
    ∃ pool, e.ingestTrace pool <+: l.trace ∧ e'.keyRotationValidator = (e.ready X pool).keyRotationValidator := by
  rw [EngineStep, hc] at h
  obtain ⟨x, hcycled⟩ := run_runCycle X h
  obtain ⟨pool, hpool, hkeys, -⟩ := cycle_keys X hcycled
  exact ⟨pool, hpool, hkeys⟩

/-- The key history of a cycle is that from before its phases. -/
theorem cycle_history {e e' : Engine} {l : Called} (h : EngineStep X e l e') (hc : l.call = .runCycle)
    {pool : List ProvenanceEntry} (hpool : e.ingestTrace pool <+: l.trace) :
    e'.keyRotationValidator = (e.ready X pool).keyRotationValidator := by
  obtain ⟨pool', hpool', hkeys⟩ := cycle_pool X h hc
  rw [hkeys, ready_unique X hpool hpool']

/-! ## The signing key -/

/-- The signatures of an identity verify under its public key, and under no other of the keys. -/
structure KeyPair (u : UIDZeroSoulbound) (keys : List (Arr 1952)) : Prop where
  own : ∀ msg, verifyDilithium X u.publicKey msg (signDilithium X u.secretKey msg) = true
  other : ∀ pk ∈ keys, ∀ msg, verifyDilithium X pk msg (signDilithium X u.secretKey msg) = true → pk = u.publicKey

/-- A signature of an identity that is registered with its own key verifies as long as the key is not retired. -/
theorem verify_own_iff {e : Engine} {u : UIDZeroSoulbound} (hasc : AscendingCycles (e.rotations u.rootID))
    (hreg : e.keyRotationValidator.validators.lookup u.rootID = some u.publicKey)
    (hpair : KeyPair X u ((e.rotations u.rootID).map (·.newPublicKey))) (cycle : UInt64) (msg : Bytes) :
    e.verifySignatureWithOverlap X u.rootID msg (signDilithium X u.secretKey msg) cycle = true ↔
      Unretired u.publicKey u.publicKey (e.rotations u.rootID) cycle := by
  rw [verifySignatureWithOverlap_iff, Engine.ActiveSignature, unretired_iff hasc]
  simp only [getActivePublicKey, hreg, Option.map_some, Option.some.injEq, exists_eq_left']
  constructor
  · rintro ⟨pk, hpk, hverify⟩
    rcases mem_keysFrom hpk with rfl | ⟨r, hr, -, rfl⟩
    · exact hpk
    · rwa [hpair.other _ (List.mem_map_of_mem hr) msg hverify] at hpk
  · exact fun hown => ⟨_, hown, hpair.own msg⟩

/-! ## Runs -/

/-- **The PREPARE signatures of a cycle** are votes of the node, and verify for it in the cycle exactly as long as the key
it was built with is not retired. -/
theorem own_votes_iff {e e' : Engine} {τ : List (Transition Engine Called)} (hf : e.Fresh) (h : EngineRun X e τ e')
    (hreg : (validatorKeys e.state.validatorSet).lookup e.node.uid.rootID = some e.node.uid.publicKey)
    (hpair : KeyPair X e.node.uid ((e'.rotations e.node.uid.rootID).map (·.newPublicKey)))
    {x : Transition Engine Called} (hx : x ∈ τ) (hc : x.label.call = .runCycle) {pool : List ProvenanceEntry}
    (hpool : x.pre.ingestTrace pool <+: x.label.trace) :
    (∀ s ∈ votesIn x.label.trace, ∃ b : Block, s = x.pre.vote X x.pre.nextCycle b.blockHash) ∧
      ∀ blockHash, x.post.verifySignatureWithOverlap X e.node.uid.rootID blockHash
          (x.pre.vote X x.pre.nextCycle blockHash).sig x.pre.nextCycle = true ↔
        Unretired e.node.uid.publicKey e.node.uid.publicKey ((x.pre.ready X pool).rotations e.node.uid.rootID)
          x.pre.nextCycle := by
  obtain ⟨τ₁, -, -, h₁, hstep⟩ := h.split hx
  obtain ⟨τ₂, h₂⟩ := h.rest hx
  have hkeys := cycle_history X hstep hc hpool
  obtain ⟨hasc₁, -⟩ := history_run X h₁ (paced_fresh hf).ascending
  obtain ⟨hasc, -⟩ := history_step X hstep hasc₁
  obtain ⟨-, hgrown⟩ := history_run X h₂ hasc
  have hsame := sameEngine_run X h₁
  refine ⟨fun s hs => ?_, fun blockHash => ?_⟩
  · obtain ⟨b, hb, -⟩ := step_vote X hstep hs
    exact ⟨b, hb⟩
  · have hreg' : x.post.keyRotationValidator.validators.lookup e.node.uid.rootID = some e.node.uid.publicKey := by
      rw [hkeys, (admitted_ready X x.pre pool).validators, ← hreg, ← hsame.validatorSet]
      rfl
    have hpair' : KeyPair X e.node.uid ((x.post.rotations e.node.uid.rootID).map (·.newPublicKey)) :=
      ⟨hpair.own, fun pk hpk => hpair.other pk (List.map_subset _ (hgrown _).subset hpk)⟩
    have hsig : (x.pre.vote X x.pre.nextCycle blockHash).sig = signDilithium X e.node.uid.secretKey blockHash := by
      rw [Engine.vote, hsame.node]
    rw [hsig, verify_own_iff X (hasc _) hreg' hpair', Engine.rotations, hkeys]

namespace Sample

theorem headD_copy (k : UInt8) : (Arr.copy 1952 [k]).toList.headD 0 = k := rfl

/-- A validator that is alone on a channel. -/
def alone : Engine := Engine.newWithPeers (node 1) true [peer 1]

/-- It rotates its key to the one that starts with `5`. -/
def ownRotation (effective expiry : UInt64) : Call :=
  let draft := newRotationEntryShell (Arr.copy 16 [1]) (Arr.copy 1952 [5]) (Arr.copy 32 [5]) effective expiry 1
  .rotateKey (Arr.copy 1952 [5]) (Arr.copy 32 [5]) (stamp 5 ((draft.payloadBytes prims).getD [])) effective expiry

theorem registered_alone :
    (validatorKeys alone.state.validatorSet).lookup alone.node.uid.rootID = some alone.node.uid.publicKey := rfl

theorem keyPair_alone : KeyPair prims alone.node.uid [Arr.copy 1952 [5]] := by
  refine ⟨fun msg => (verify_stamp 1 _ msg).2 rfl, fun pk hpk msg hverify => ?_⟩
  rw [List.mem_singleton.1 hpk] at hverify
  have hhead := (verify_stamp 1 _ msg).1 hverify
  rw [headD_copy] at hhead
  exact absurd hhead (by decide)

/-- It commits the rotation. -/
def announced : List (Transition Engine Called) × Engine × MemoryBus :=
  calls [ownRotation 10 20, .runCycle] alone MemoryBus.new

theorem run_announced : EngineRun prims alone announced.1 announced.2.1 := run_calls _ _ _

/-- The rotation is recorded and its window is open, in the cycle that commits it and after it. -/
def announcedOpen : Computed announced fun x =>
    (x.2.1.rotations alone.node.uid.rootID).map (·.newPublicKey) = [Arr.copy 1952 [5]] ∧
      (∃ y ∈ x.1.tail, (votesIn y.label.trace).length = 1 ∧
        closedRotations y.pre.nextCycle (y.post.rotations alone.node.uid.rootID) = []) ∧
      closedRotations x.2.1.state.cycle (x.2.1.rotations alone.node.uid.rootID) = [] :=
  computed _ (by decide +kernel)

theorem announced_keys : (announced.2.1.rotations alone.node.uid.rootID).map (·.newPublicKey) = [Arr.copy 1952 [5]] := by
  obtain ⟨_, hx, hkeys, -⟩ := announcedOpen
  rwa [hx] at hkeys

/-- In that cycle the outgoing key still counts. -/
theorem announced_votes : (announced.2.1.rotations alone.node.uid.rootID).length = 1 ∧
    ∃ x ∈ announced.1, x.label.call = .runCycle ∧ (votesIn x.label.trace).length = 1 ∧ ∀ blockHash,
      x.post.verifySignatureWithOverlap prims alone.node.uid.rootID blockHash
        (x.pre.vote prims x.pre.nextCycle blockHash).sig x.pre.nextCycle = true := by
  have hpair : KeyPair prims alone.node.uid ((announced.2.1.rotations alone.node.uid.rootID).map (·.newPublicKey)) := by
    rw [announced_keys]
    exact keyPair_alone
  have hcycle : ∃ x ∈ announced.1.tail, (votesIn x.label.trace).length = 1 ∧
      closedRotations x.pre.nextCycle (x.post.rotations alone.node.uid.rootID) = [] := by
    obtain ⟨_, hx, -, hcycle, -⟩ := announcedOpen
    rwa [hx] at hcycle
  obtain ⟨x, htail, hvote, hopen⟩ := hcycle
  have hx : x ∈ announced.1 := List.mem_of_mem_tail htail
  have hcall : x.label.call = .runCycle := by
    have hmem : x.label.call ∈ announced.1.tail.map (·.label.call) := List.mem_map_of_mem htail
    exact List.mem_singleton.1 hmem
  obtain ⟨-, -, -, -, hstep⟩ := run_announced.split hx
  obtain ⟨pool, hpool, hkeys⟩ := cycle_pool prims hstep hcall
  refine ⟨?_, x, hx, hcall, hvote, fun blockHash => ?_⟩
  · have hone := congrArg List.length announced_keys
    rwa [List.length_map] at hone
  · have hfresh : alone.Fresh := .inr ⟨_, _, _, rfl⟩
    have hvotes := (own_votes_iff prims hfresh run_announced registered_alone hpair hx hcall hpool).2
    refine (hvotes blockHash).2 (unretired_of_none_closed ?_ _)
    rw [Engine.rotations, ← hkeys]
    exact hopen

/-- Then it commits twenty more blocks, and runs a cycle for the block after the window. -/
def retiring : List (Transition Engine Called) × Engine × MemoryBus :=
  calls ((List.replicate 21 [.enqueue (entry 9), .runCycle]).flatten) announced.2.1 announced.2.2

theorem run_retiring : EngineRun prims alone (announced.1 ++ retiring.1) retiring.2.1 := by
  refine run_announced.append ?_
  unfold retiring
  exact run_calls _ _ _

/-- What can be computed of a cycle with a vote in which only the incoming key counts. -/
def votesRetired (x : Transition Engine Called) : Bool :=
  !(votesIn x.label.trace).isEmpty &&
    x.post.keyRotationValidator.getActivePublicKey alone.node.uid.rootID x.pre.nextCycle == some [Arr.copy 1952 [5]]

/-- There is such a cycle, and no other rotation. -/
def retiringVotes : Computed retiring fun x => x.1.any votesRetired = true ∧
    (x.2.1.rotations alone.node.uid.rootID).map (·.newPublicKey) = [Arr.copy 1952 [5]] :=
  computed _ (by decide +kernel)

/-- The engine publishes a signature that does not verify for it. -/
theorem vote_refused : ∃ e τ e', e.Fresh ∧ EngineRun prims e τ e' ∧
    (validatorKeys e.state.validatorSet).lookup e.node.uid.rootID = some e.node.uid.publicKey ∧
    KeyPair prims e.node.uid ((e'.rotations e.node.uid.rootID).map (·.newPublicKey)) ∧
    (∃ y ∈ τ, y.label.call = ownRotation 10 20) ∧ (e'.rotations e.node.uid.rootID).length = 1 ∧
    ∃ x ∈ τ, ∃ s ∈ votesIn x.label.trace, ∃ b : Block, s = x.pre.vote prims x.pre.nextCycle b.blockHash ∧
      x.post.verifySignatureWithOverlap prims e.node.uid.rootID b.blockHash s.sig x.pre.nextCycle = false := by
  obtain ⟨run, hrun, hvotes, hhistory⟩ := retiringVotes
  obtain ⟨x, hx, hretired⟩ := List.any_eq_true.1 hvotes
  have hreached := run_retiring
  rw [← hrun] at hreached
  simp only [votesRetired, Bool.and_eq_true, beq_iff_eq, Bool.not_eq_true', List.isEmpty_eq_false_iff] at hretired
  obtain ⟨hne, hkeys⟩ := hretired
  obtain ⟨s, hs⟩ := List.exists_mem_of_ne_nil _ hne
  have hmem : x ∈ announced.1 ++ run.1 := List.mem_append_right _ hx
  obtain ⟨τ₁, -, -, h₁, hstep⟩ := hreached.split hmem
  obtain ⟨b, hb, -⟩ := step_vote prims hstep hs
  refine ⟨alone, _, _, .inr ⟨_, _, _, rfl⟩, hreached, registered_alone, hhistory ▸ keyPair_alone,
    ⟨_, List.mem_cons_self, rfl⟩, ?_, x, hmem, s, hs, b, hb, ?_⟩
  · have hone := congrArg List.length hhistory
    rwa [List.length_map] at hone
  · -- only the incoming key counts, and the node has signed with the other one
    have hnode : x.pre.node = node 1 := (sameEngine_run prims h₁).node
    have hsig : s.sig = signDilithium prims (uid 1).secretKey b.blockHash := by
      rw [hb, Engine.vote, hnode]
      rfl
    simp only [Engine.verifySignatureWithOverlap, hkeys, List.any_cons, List.any_nil, Bool.or_false, hsig]
    rw [Bool.eq_false_iff, Ne, verify_stamp, headD_copy]
    decide

end Sample

end Gleipnir
