import Gleipnir.Consensus.Origin
import Gleipnir.SmtSpec

/-!
# A cycle without a channel

A node without a gossip channel asks its environment for the time and for nothing else. Its own identity is the only candidate
of the election, it builds the block from what it awaits, and it counts its own signature.

* `runs_prepare_alone`: a PREPARE phase fails without a call, or reads the clock once and builds a candidate.
* `cycle_alone`: a cycle reads the clock and does not panic.
* `Committing.alone`: what a committed cycle made of the tree and of the block.
* `ownTree_run`: the tree of the node stands for the hashes of its chain, and each block names the root of the tree up to it.
-/

namespace Gleipnir

open Atomic Atomic.Body

variable (X : Prims)

/-- The outcome of an election among the node alone. -/
def Engine.ownElection (e : Engine) (cycle : UInt64) (root : Hash) : Except PrepareError Peer :=
  match e.node.uid.vrfProve X (makeAlpha cycle root.toList) with
  | none => .error .vrfProof
  | some localProof =>
    match selectProposer X [e.node.asPeer] cycle root.toList (proofsFrom e.node.uid.id localProof []) with
    | .error err => .error (.selection err)
    | .ok (proposer, _) => .ok proposer

/-- The signatures that a node alone counts on a block. -/
def Engine.ownSigs (e : Engine) (cycle : UInt64) (block : Block) : Sigs :=
  e.validSigs X cycle block (AList.singleton e.node.uid.id (block.prepareSigs.headD []))

/-- The result of a PREPARE phase of a node alone. -/
def Engine.ownResult (e : Engine) (cycle : UInt64) (leaderID : String) (block : Block) (checkQuorum : Bool)
    (requiredQuorum : Nat) : PrepareResult :=
  let valid := e.ownSigs X cycle block
  ⟨block, valid, e.signerBitmap valid, leaderID, checkQuorum && requiredQuorum ≤ valid.entries.length⟩

/-- The node is elected, active, and has something to propose. -/
structure Engine.OwnTurn (e : Engine) (cycle : UInt64) (root : Hash) (batch : List ProvenanceEntry) (p : Peer) : Prop where
  elected : e.ownElection X cycle root = .ok p
  own : p.uid.id = e.node.uid.id
  active : e.inactive p.uid.id = false
  awaiting : batch ≠ []

section Phase

variable {X} {e : Engine} (hg : e.hasGossip = false)
include hg

theorem returns_announceProof (cycle : UInt64) (localProof : VRFProof) :
    Returns (announceProof cycle localProof) e () e := by
  rw [announceProof, returns_get_bind, if_neg (by simp [hg])]
  exact returns_pure () e

theorem returns_collectVRFProofs (cycle : UInt64) (localProof : VRFProof) :
    Returns (collectVRFProofs cycle localProof) e (proofsFrom e.node.uid.id localProof []) e := by
  rw [collectVRFProofs, returns_get_bind, if_neg (by simp [hg])]
  exact returns_pure _ e

theorem returns_gatherVRFProofs (cycle : UInt64) (localProof : VRFProof) :
    Returns (gatherVRFProofs cycle localProof) e (proofsFrom e.node.uid.id localProof []) e := by
  refine (returns_collectVRFProofs hg cycle localProof).bind ?_
  rw [returns_get_bind, if_neg (by simp [hg])]
  exact returns_pure _ e

theorem returns_elect (cycle : UInt64) (root : Hash) : Returns (elect X cycle root) e (e.ownElection X cycle root) e := by
  rw [elect, returns_get_bind, Engine.ownElection]
  cases e.node.uid.vrfProve X (makeAlpha cycle root.toList) with
  | none => exact returns_pure _ e
  | some localProof =>
    have hpeers : e.proposerPeers = [e.node.asPeer] := by simp [Engine.proposerPeers, hg]
    refine (returns_announceProof hg cycle localProof).bind ((returns_gatherVRFProofs hg cycle localProof).bind ?_)
    dsimp only
    rw [hpeers]
    cases selectProposer X [e.node.asPeer] cycle root.toList (proofsFrom e.node.uid.id localProof []) with
    | error err => exact returns_pure _ e
    | ok r => exact returns_pure _ e

variable {block : Block} {e' : Engine} {t : Trace} {cycle : UInt64} {batch : List ProvenanceEntry} {cq : Bool} {q : Nat}
  {root : Hash} {pr : PrepareResult}

theorem returns_collectValidSigs (cycle : UInt64) (am : Bool) (hsigs : block.prepareSigs ≠ []) :
    Returns (collectValidSigs X cycle am block) e (e.ownSigs X cycle block) e := by
  have hown : Returns (localSig cycle am block) e (AList.singleton e.node.uid.id (block.prepareSigs.headD [])) e := by
    rw [localSig, returns_get_bind, if_pos (by simp [hg])]
    cases hs : block.prepareSigs with
    | nil => exact absurd hs hsigs
    | cons sig sigs => exact returns_pure _ e
  refine hown.bind ?_
  rw [returns_get_bind, if_neg (by simp [hg])]
  exact returns_pure _ e

theorem returns_tally (cycle : UInt64) (am : Bool) (leaderID : String) (block : Block) (hsigs : block.prepareSigs ≠ [])
    (cq : Bool) (q : Nat) :
    Returns (tally X cycle am leaderID block cq q) e (e.ownResult X cycle leaderID block cq q) e := by
  refine (returns_collectValidSigs hg cycle am hsigs).bind ?_
  have hawait : Returns (awaitQuorum X cycle am block cq q (e.ownSigs X cycle block)) e (e.ownSigs X cycle block) e := by
    rw [awaitQuorum, returns_get_bind, if_neg (by simp [hg])]
    exact returns_pure _ e
  refine hawait.bind ?_
  rw [returns_get_bind]
  exact returns_pure _ e

/-- Obtaining a candidate: the proposer with entries reads the clock and builds one, everyone else fails at once. -/
theorem runs_obtain_alone {p : Peer} {am : Bool} {y : Exit (Except PrepareError Block)}
    (h : Runs (obtainCandidate X cycle p batch cq q am) e t y e') :
    (am = true ∧ batch ≠ [] ∧ ∃ now, t = [⟨.now, now⟩] ∧ e' = e.grow X (dedupEntries batch []) ∧
        y = .done (.ok (e.newCandidate X cycle p (dedupEntries batch []) q now))) ∨
      ((am = true → batch = []) ∧ t = [] ∧ e' = e ∧ ∃ err, y = .done (.error err)) := by
  have hnot : ¬ e.hasGossip = true := by simp [hg]
  unfold obtainCandidate at h
  cases am with
  | false =>
    rw [if_neg Bool.false_ne_true, checkCandidate, runs_get_bind, if_neg hnot] at h
    obtain ⟨rfl, rfl, rfl⟩ := runs_pure.1 h
    exact .inr ⟨nofun, rfl, rfl, _, rfl⟩
  | true =>
    rw [if_pos rfl, proposeCandidate, runs_get_bind, if_neg hnot] at h
    unfold buildCandidate at h
    split at h
    · next hbatch =>
      obtain ⟨rfl, rfl, rfl⟩ := runs_pure.1 h
      exact .inr ⟨fun _ => hbatch, rfl, rfl, _, rfl⟩
    · next hbatch =>
      rw [runs_get_bind] at h
      obtain ⟨now, t₁, rfl, h₁⟩ := runs_perform_bind.1 h
      rw [runs_modify_bind, if_neg hnot] at h₁
      obtain ⟨rfl, rfl, rfl⟩ := runs_pure.1 h₁
      exact .inl ⟨rfl, hbatch, now, rfl, rfl, rfl⟩

/-- How a PREPARE phase of a node alone ends. -/
inductive PreparedAlone (X : Prims) (e : Engine) (cycle : UInt64) (root : Hash) (batch : List ProvenanceEntry) (cq : Bool)
    (q : Nat) : Trace → Exit (Except PrepareError PrepareResult) → Engine → Prop
  | failed (err : PrepareError) (hno : ∀ p, ¬ e.OwnTurn X cycle root batch p) :
      PreparedAlone X e cycle root batch cq q [] (.done (.error err)) e
  | built (p : Peer) (now : Int) (hturn : e.OwnTurn X cycle root batch p) :
      PreparedAlone X e cycle root batch cq q [⟨.now, now⟩]
        (.done (.ok ((e.grow X (dedupEntries batch [])).ownResult X cycle p.uid.id
          (e.newCandidate X cycle p (dedupEntries batch []) q now) cq q))) (e.grow X (dedupEntries batch []))

/-- **A PREPARE phase without a channel.** -/
theorem runs_prepare_alone {x : Exit (Except PrepareError PrepareResult)}
    (h : Runs (runPreparePhase X cycle root batch cq q) e t x e') : PreparedAlone X e cycle root batch cq q t x e' := by
  unfold runPreparePhase at h
  rw [(returns_elect hg cycle root).runs_bind] at h
  cases hown : e.ownElection X cycle root with
  | error err =>
    rw [hown] at h
    obtain ⟨rfl, rfl, rfl⟩ := runs_pure.1 h
    exact .failed err fun p hp => nomatch hown.symm.trans hp.elected
  | ok p =>
    have hp : ∀ p', e.OwnTurn X cycle root batch p' → p' = p := fun p' hp' =>
      (Except.ok.inj (hown.symm.trans hp'.elected)).symm
    simp only [hown] at h
    rw [runs_get_bind] at h
    cases hactive : e.inactive p.uid.id with
    | true =>
      rw [if_pos hactive] at h
      obtain ⟨rfl, rfl, rfl⟩ := runs_pure.1 h
      refine .failed _ fun p' hp' => ?_
      obtain rfl := hp p' hp'
      exact absurd (hactive.symm.trans hp'.active) Bool.noConfusion
    | false =>
      rw [if_neg (by simp [hactive])] at h
      rcases runs_bind.1 h with ⟨t₁, y, e₁, t₂, rfl, h₁, h₂⟩ | ⟨-, h₁⟩
      · rcases runs_obtain_alone hg h₁ with ⟨ham, hbatch, now, rfl, rfl, hy⟩ | ⟨hnone, rfl, rfl, err, hy⟩
        · cases hy
          have hg₁ : (e.grow X (dedupEntries batch [])).hasGossip = false := hg
          have htally := returns_tally (X := X) hg₁ cycle (p.uid.id == e.node.uid.id) p.uid.id
            (e.newCandidate X cycle p (dedupEntries batch []) q now) (List.cons_ne_nil _ _) cq q
          dsimp only at h₂
          rw [htally.runs_bind] at h₂
          obtain ⟨rfl, rfl, rfl⟩ := runs_pure.1 h₂
          exact .built p now ⟨hown, eq_of_beq ham, hactive, hbatch⟩
        · cases hy
          obtain ⟨rfl, rfl, rfl⟩ := runs_pure.1 h₂
          refine .failed err fun p' hp' => ?_
          obtain rfl := hp p' hp'
          exact hp'.awaiting (hnone (beq_iff_eq.2 hp'.own))
      · rcases runs_obtain_alone hg h₁ with ⟨-, -, now, -, -, hy⟩ | ⟨-, -, -, err, hy⟩
        · cases hy
        · cases hy

/-- A phase that succeeds has built a candidate. -/
theorem prepare_alone_ok (h : Runs (runPreparePhase X cycle root batch cq q) e t (.done (.ok pr)) e') :
    ∃ p now, t = [⟨.now, now⟩] ∧ e.OwnTurn X cycle root batch p ∧ e' = e.grow X (dedupEntries batch []) ∧
      pr = (e.grow X (dedupEntries batch [])).ownResult X cycle p.uid.id
        (e.newCandidate X cycle p (dedupEntries batch []) q now) cq q := by
  cases runs_prepare_alone hg h with
  | built p now hturn => exact ⟨p, now, rfl, hturn, rfl, rfl⟩

/-- Without a channel only the leader's own block is committed, and nothing is published. -/
theorem finalised_alone (h : Finalised X e cycle pr t (.done (.ok block))) : block = e.finalBlock X pr ∧ t = [] := by
  cases h with
  | led hq hl ht => exact ⟨rfl, by rw [ht, hg]; rfl⟩
  | followed hq hl hg' ht hread hcheck => exact absurd (hg.symm.trans hg') Bool.false_ne_true

/-- Whether the COMMIT phase of a node alone succeeds. -/
def PrepareResult.Led (pr : PrepareResult) (e : Engine) : Prop := pr.quorumReached = true ∧ pr.leaderID = e.node.uid.id

/-- A COMMIT phase without a channel makes no call. -/
theorem returns_commit (cycle : UInt64) (pr : PrepareResult) : ∃ r, Returns (runCommitPhase X cycle pr) e r e ∧
    ((pr.Led e ∧ r = .ok (e.finalBlock X pr)) ∨ (¬ pr.Led e ∧ ∃ err, r = .error err)) := by
  rw [runCommitPhase]
  simp only [returns_get_bind]
  have hnot : ¬ e.hasGossip = true := by simp [hg]
  cases hq : pr.quorumReached with
  | false => exact ⟨_, returns_pure _ e, .inr ⟨fun h => absurd (hq.symm.trans h.1) Bool.false_ne_true, _, rfl⟩⟩
  | true =>
    rw [if_neg (by simp)]
    by_cases hl : pr.leaderID = e.node.uid.id
    · have hpublish : Returns (publishFinal X pr) e (e.finalBlock X pr) e := by
        rw [publishFinal, returns_get_bind, if_neg hnot]
        exact returns_pure _ e
      rw [if_pos hl]
      exact ⟨_, hpublish.bind (returns_pure _ e), .inl ⟨⟨hq, hl⟩, rfl⟩⟩
    · have haccept : Returns (acceptFinal X cycle pr.leaderID) e (.error .noGossip) e := by
        rw [acceptFinal, returns_get_bind, if_neg hnot]
        exact returns_pure _ e
      rw [if_neg hl]
      exact ⟨_, haccept, .inr ⟨fun h => hl h.2, _, rfl⟩⟩

/-! ## The cycle -/

/-- The engine in the quorum check, with the entries in its tree for the first time. -/
abbrev Engine.grown (X : Prims) (e : Engine) (batch : List ProvenanceEntry) : Engine := e.grow X (dedupEntries batch [])

/-- The result of the quorum check of a node alone that reads the time `now`. -/
abbrev Engine.ownCheck (X : Prims) (e : Engine) (cycle : UInt64) (batch : List ProvenanceEntry) (q : Nat) (p : Peer)
    (now : Int) : PrepareResult :=
  ((e.grown X batch).grown X batch).ownResult X cycle p.uid.id
    ((e.grown X batch).newCandidate X cycle p (dedupEntries batch []) q now) true q

/-- How the phases of a node alone end. -/
inductive PhasedAlone (X : Prims) (e : Engine) (cycle : UInt64) (root : Hash) (batch : List ProvenanceEntry) (q : Nat) :
    Trace → Exit (Option (Block × Bool)) → Engine → Prop
  | failed {t : Trace} {e' : Engine} (ht : ∀ ev ∈ t, ev.op = .now)
      (hno : ∀ p, e.OwnTurn X cycle root batch p → ∃ now, (e.ownCheck X cycle batch q p now).quorumReached = false) :
      PhasedAlone X e cycle root batch q t (.done none) e'
  | delivered (p : Peer) (now₁ now₂ : Int) (hturn : e.OwnTurn X cycle root batch p)
      (hq : (e.ownCheck X cycle batch q p now₂).quorumReached = true) :
      PhasedAlone X e cycle root batch q [⟨.now, now₁⟩, ⟨.now, now₂⟩]
        (.done (some (((e.grown X batch).grown X batch).finalBlock X (e.ownCheck X cycle batch q p now₂), true)))
        ((e.grown X batch).grown X batch)

theorem runs_phases_alone {x : Exit (Option (Block × Bool))} (h : Runs (runPhases X cycle root batch q) e t x e') :
    PhasedAlone X e cycle root batch q t x e' := by
  have hgrown : ∀ p, e.OwnTurn X cycle root batch p → (e.grown X batch).OwnTurn X cycle root batch p := fun p hp =>
    ⟨hp.elected, hp.own, hp.active, hp.awaiting⟩
  unfold runPhases at h
  rcases runs_bind.1 h with ⟨t₁, r₁, e₁, u, rfl, h₁, hu⟩ | ⟨rfl, h₁⟩
  · cases runs_prepare_alone hg h₁ with
    | failed err hno =>
      obtain ⟨rfl, rfl, rfl⟩ := runs_pure.1 hu
      exact .failed (by simp) fun p hp => absurd hp (hno p)
    | built p now₁ hturn =>
      rcases runs_bind.1 hu with ⟨t₂, r₂, e₂, v, rfl, h₂, hv⟩ | ⟨rfl, h₂⟩
      · have hg₁ : (e.grown X batch).hasGossip = false := hg
        cases runs_prepare_alone hg₁ h₂ with
        | failed err hno => exact absurd (hgrown p hturn) (hno p)
        | built p' now₂ hturn' =>
          obtain rfl : p' = p := Except.ok.inj (hturn'.elected.symm.trans hturn.elected)
          have hg₂ : ((e.grown X batch).grown X batch).hasGossip = false := hg
          obtain ⟨r, hreturns, hr⟩ := returns_commit (X := X) hg₂ cycle (e.ownCheck X cycle batch q p' now₂)
          dsimp only at hv
          rw [hreturns.runs_bind] at hv
          rcases hr with ⟨⟨hq, -⟩, rfl⟩ | ⟨hled, err, rfl⟩
          · obtain ⟨rfl, rfl, rfl⟩ := runs_pure.1 hv
            rw [hq]
            exact .delivered p' now₁ now₂ hturn hq
          · obtain ⟨rfl, rfl, rfl⟩ := runs_pure.1 hv
            refine .failed (by simp) fun p hp => ⟨now₂, ?_⟩
            obtain rfl : p = p' := Except.ok.inj (hp.elected.symm.trans hturn.elected)
            exact Bool.eq_false_iff.2 fun hq => hled ⟨hq, hp.own⟩
      · cases runs_prepare_alone (show (e.grown X batch).hasGossip = false from hg) h₂
  · cases runs_prepare_alone hg h₁

/-- **Without a channel** a cycle reads the clock and does not panic. -/
theorem cycle_alone {x : Exit Unit} (h : Cycled X e t x e') : x = .done () ∧ ∀ ev ∈ t, ev.op = .now := by
  have hg' : ∀ pool, (e.ready X pool).hasGossip = false := fun pool => by rw [Engine.ready_hasGossip, hg]
  have hingest : ∀ pool, e.ingestTrace pool = [] := fun pool => by simp [Engine.ingestTrace, hg]
  have hremove : ∀ block, e.removeTrace block = [] := fun block => by simp [Engine.removeTrace, hg]
  have hclock : ∀ {pool u y e₂}, e.Phases X pool u y e₂ → y ≠ .panic ∧ ∀ ev ∈ u, ev.op = .now := by
    intro pool u y e₂ hp
    cases runs_phases_alone (hg' pool) hp with
    | failed ht hno => exact ⟨Exit.done_ne_panic _, ht⟩
    | delivered p now₁ now₂ hturn hq => exact ⟨Exit.done_ne_panic _, by simp⟩
  cases h with
  | skipped hs => exact ⟨rfl, by simp [hingest]⟩
  | panicked hs hp => exact absurd rfl (hclock hp).1
  | aborted hs hp => exact ⟨rfl, by simpa [hingest] using (hclock hp).2⟩
  | failed hs hp hc => exact ⟨rfl, by simpa [hingest] using (hclock hp).2⟩
  | committed hs hp hc => exact ⟨rfl, by simpa [hingest, hremove] using (hclock hp).2⟩

/-- A committed cycle reads the clock twice, puts the entries it awaited into its tree twice, and appends the block of the
second time, up to its certificate. -/
theorem Committing.phases_alone (cm : Committing X e t e') : ∃ p now₁ now₂,
    t = [⟨.now, now₁⟩, ⟨.now, now₂⟩] ∧ p.uid.id = e.node.uid.id ∧
      cm.e₂ = ((e.ready X cm.pool).grown X e.allPending).grown X e.allPending ∧
      SameHeader cm.final (((e.ready X cm.pool).grown X e.allPending).newCandidate X e.nextCycle p
        (dedupEntries e.allPending []) (e.ready X cm.pool).requiredQuorum now₂) := by
  have hstart : (e.start cm.pool).allPending = e.allPending := Engine.start_allPending hg cm.pool
  have hg₀ : (e.ready X cm.pool).hasGossip = false := by rw [Engine.ready_hasGossip, hg]
  obtain ⟨p₁, now₁, ht₁, -, h₁, -⟩ := prepare_alone_ok hg₀ cm.prepared
  have hg₁ : cm.e₁.hasGossip = false := by
    rw [h₁]
    exact hg₀
  obtain ⟨p₂, now₂, ht₂, hturn, h₂, hresult⟩ := prepare_alone_ok hg₁ cm.checked
  have hblock := congrArg PrepareResult.block hresult
  rw [hstart] at h₁ h₂ hblock
  have hg₂ : cm.e₂.hasGossip = false := by
    rw [h₂]
    exact hg₁
  obtain ⟨hdelivered, ht₃⟩ := finalised_alone hg₂ cm.finalised
  have htrace : t = [⟨.now, now₁⟩, ⟨.now, now₂⟩] := by
    rw [cm.trace_eq, ht₁, ht₂, ht₃]
    simp [Engine.ingestTrace, Engine.removeTrace, hg]
  have hown : p₂.uid.id = e.node.uid.id := by
    have hnode : cm.e₁.node = e.node := by
      rw [h₁]
      exact e.ready_node X cm.pool
    rw [hturn.own, hnode]
  refine ⟨p₂, now₁, now₂, htrace, hown, by rw [h₂, h₁], ?_⟩
  have hheader := sameHeader_finalBlock X cm.e₂ cm.pr₂
  rw [← hdelivered, hblock, h₁] at hheader
  exact (sameHeader_applyDegradedBlock X cm.applied).1.trans hheader

/-- The block names the root of the tree with its entries. -/
theorem Committing.alone (cm : Committing X e t e') :
    cm.final.anchored = dedupEntries e.allPending [] ∧
      e'.st = (e.st.insertHashes X cm.final.anchored).insertHashes X cm.final.anchored ∧
      cm.final.stateRoot = e'.st.root.toList := by
  obtain ⟨p, now₁, now₂, -, -, h₂, hfinal⟩ := cm.phases_alone hg
  have hst : e'.st = cm.e₂.st := by
    have hpost := congrArg Engine.st cm.post
    rw [hpost]
    rfl
  have hanchored : cm.final.anchored = dedupEntries e.allPending [] := hfinal.anchored
  have htree : cm.e₂.st = (e.st.insertHashes X cm.final.anchored).insertHashes X cm.final.anchored := by
    rw [hanchored, h₂]
    change ((e.ready X cm.pool).st.insertHashes X _).insertHashes X _ = _
    rw [Engine.ready_st]
  refine ⟨hanchored, hst.trans htree, ?_⟩
  rw [hfinal.stateRoot, hst, h₂]
  rfl

end Phase

/-! ## The tree and the chain -/

/-- The entries that blocks anchor, in order. -/
def entriesOf (blocks : List Block) : List ProvenanceEntry := blocks.flatMap (·.anchored)

/-- The tree of a chain: every hash that it anchors, inserted in order. -/
def chainTree (blocks : List Block) : SparseMerkleTree := (SparseMerkleTree.new 256).insertHashes X (entriesOf blocks)

/-- The strings hashed to build it. -/
def chainTexts (blocks : List Block) : Set Bytes := treeTexts X 256 (leavesOfEntries (entriesOf blocks))

/-- The tree of the engine stands for its chain, and the blocks name the roots of the tree as it grew. -/
structure OwnTree (e : Engine) : Prop where
  depth : e.st.depth = 256
  tree : ∀ S, Collisionless X S → chainTexts X e.blocks ⊆ S →
    Represents X S e.st (trieOf X 256 (leavesOfEntries (entriesOf e.blocks)))
  roots : Collisionless X (chainTexts X e.blocks) → ∀ i b, e.blocks[i]? = some b →
    b.stateRoot = (chainTree X (e.blocks.take (i + 1))).root.toList

variable {X}

theorem entriesOf_concat (blocks : List Block) (b : Block) : entriesOf (blocks ++ [b]) = entriesOf blocks ++ b.anchored := by
  simp [entriesOf]

theorem leavesOfEntries_append (as bs : List ProvenanceEntry) :
    leavesOfEntries (as ++ bs) = leavesOfEntries as ++ leavesOfEntries bs := List.map_append

theorem chainTexts_concat (blocks : List Block) (b : Block) : chainTexts X blocks ⊆ chainTexts X (blocks ++ [b]) := by
  rw [chainTexts, chainTexts, entriesOf_concat, leavesOfEntries_append]
  exact treeTexts_mono (List.prefix_append _ _)

theorem depth_chainTree (blocks : List Block) : (chainTree X blocks).depth = 256 := by
  rw [chainTree, insertHashes_eq, depth_insertAll]
  rfl

theorem represents_chainTree {S : Set Bytes} (hS : Collisionless X S) {blocks : List Block} (h : chainTexts X blocks ⊆ S) :
    Represents X S (chainTree X blocks) (trieOf X 256 (leavesOfEntries (entriesOf blocks))) := by
  rw [chainTree, insertHashes_eq]
  exact represents_insertAll (fills_leavesOfEntries _) hS h

theorem ownTree_new (node : Node) : OwnTree X (Engine.new node) where
  depth := rfl
  tree := fun S _ _ => represents_new 256
  roots := fun _ i b hb => absurd hb (by simp [Engine.new, newEngine])

/-- A tree that stands for entries, with further entries inserted twice. -/
theorem represents_insertTwice {S : Set Bytes} (hS : Collisionless X S) {t : SparseMerkleTree}
    {entries more : List ProvenanceEntry} (hdepth : t.depth = 256)
    (h : Represents X S t (trieOf X 256 (leavesOfEntries entries)))
    (htexts : treeTexts X 256 (leavesOfEntries (entries ++ more)) ⊆ S) :
    Represents X S ((t.insertHashes X more).insertHashes X more) (trieOf X 256 (leavesOfEntries (entries ++ more))) := by
  have hfills := fills_leavesOfEntries (entries ++ more)
  rw [insertHashes_eq, insertHashes_eq]
  have honce : Represents X S (t.insertAll X (leavesOfEntries more)) (trieOf X 256 (leavesOfEntries (entries ++ more))) := by
    rw [leavesOfEntries_append] at hfills htexts ⊢
    rw [← hdepth] at h hfills htexts ⊢
    exact h.insertAll hS hfills htexts
  have hdepth' : (t.insertAll X (leavesOfEntries more)).depth = 256 := (depth_insertAll _ _).trans hdepth
  refine honce.insertAgain hS (hdepth'.symm ▸ hasZeroes_of_treeTexts htexts) fun kv hkv => ?_
  obtain ⟨pe, hpe, rfl⟩ := List.mem_map.1 hkv
  refine ⟨maps_leavesOfEntries.2 ⟨rfl, pe, List.mem_append_right _ hpe, rfl⟩, ?_⟩
  rw [hdepth']
  exact (trieOf_spec hfills).apart hfills (by simp)

/-- A committed cycle keeps the tree in step with the chain. -/
theorem ownTree_commit {e e' : Engine} {t : Trace} (hg : e.hasGossip = false) (cm : Committing X e t e') (h : OwnTree X e) :
    OwnTree X e' := by
  obtain ⟨-, hst, hroot⟩ := cm.alone hg
  have hdepth : e'.st.depth = 256 := by
    rw [hst, insertHashes_eq, insertHashes_eq, depth_insertAll, depth_insertAll, h.depth]
  have htree : ∀ S, Collisionless X S → chainTexts X e'.blocks ⊆ S →
      Represents X S e'.st (trieOf X 256 (leavesOfEntries (entriesOf e'.blocks))) := by
    intro S hS htexts
    rw [cm.blocks_eq] at htexts ⊢
    have hold := h.tree S hS ((chainTexts_concat e.blocks cm.final).trans htexts)
    rw [chainTexts, entriesOf_concat] at htexts
    rw [hst, entriesOf_concat]
    exact represents_insertTwice hS h.depth hold htexts
  refine ⟨hdepth, htree, fun hX i b hb => ?_⟩
  rw [cm.blocks_eq] at hb ⊢
  by_cases hi : i < e.blocks.length
  · have hX' := hX.mono (cm.blocks_eq ▸ chainTexts_concat e.blocks cm.final)
    rw [List.getElem?_append_left hi] at hb
    rw [List.take_append_of_le_length (by omega)]
    exact h.roots hX' i b hb
  · -- the new block
    have hlen : i = e.blocks.length := by
      have hlt := (List.getElem?_eq_some_iff.1 hb).1
      simp at hlt
      omega
    subst hlen
    obtain rfl : cm.final = b := by simpa using hb
    rw [List.take_of_length_le (by simp), hroot, ← cm.blocks_eq]
    rw [(htree _ hX subset_rfl).root_eq (represents_chainTree hX subset_rfl) (by rw [hdepth, depth_chainTree])]

theorem ownTree_step {e e' : Engine} {l : Called} (hg : e.hasGossip = false) (hstep : EngineStep X e l e')
    (h : OwnTree X e) : OwnTree X e' := by
  have hquiet : e'.blocks = e.blocks → e'.st = e.st → OwnTree X e' := by
    intro hblocks hst
    refine ⟨hst ▸ h.depth, ?_, ?_⟩
    · rw [hblocks, hst]
      exact h.tree
    · rw [hblocks]
      exact h.roots
  rcases step_blocks X hstep with hblocks | ⟨-, ⟨cm⟩⟩
  · refine hquiet hblocks ?_
    by_cases hc : l.call = .runCycle
    · rw [EngineStep, hc] at hstep
      obtain ⟨x, hcycled⟩ := run_runCycle X hstep
      refine cycle_restores hcycled hblocks ?_
      rw [(cycle_alone hg hcycled).1]
      exact Exit.done_ne_panic ()
    · obtain ⟨⟨x, s⟩, rfl, hrun⟩ := run_map.1 hstep
      exact (call_within X hc _ _ _ _ hrun).1.st
  · exact ownTree_commit hg cm h

/-- **The tree of a single node.** -/
theorem ownTree_run {node : Node} {τ : List (Transition Engine Called)} {e : Engine}
    (h : EngineRun X (Engine.new node) τ e) : OwnTree X e := by
  have hboth : e.hasGossip = false ∧ OwnTree X e := by
    refine h.preserves (I := fun e => e.hasGossip = false ∧ OwnTree X e) ?_ ⟨rfl, ownTree_new node⟩
    rintro s l s' hstep ⟨hg, hs⟩
    exact ⟨(sameEngine_step X hstep).hasGossip.trans hg, ownTree_step hg hstep hs⟩
  exact hboth.2

end Gleipnir
