import Gleipnir.Consensus.SingleNode

/-!
# Rotations and the blocks that anchor them

A cycle records the rotations of its batch before it knows whether it will commit a block. `authority_of_anchoring` gives the
runs in which the authority of keys comes from blocks only. A cycle may find no rotation in its batch that `Validate` lets in;
or the engine is a single node whose own key is active, and then nothing can keep it from committing its batch.
-/

namespace Gleipnir

open Atomic Atomic.Body KeyRotationValidator

variable (X : Prims)

/-- A single node that will commit what it awaits: it signs with an active key, and no rotation of the batch takes effect in the
next block. -/
structure Engine.Anchoring (e : Engine) : Prop where
  solo : Solo e
  complete : CompleteKeys X e.node.uid
  active : e.syncKeyRotationState.OwnKeyActive e.nextCycle
  ahead : e.nextCycle < e.state.cycle + e.keyRotationValidator.cfg.keyRotationLeadTime

/-- A cycle with no admissible rotation in its batch, or of a single node that will commit. -/
def AnchoringStep (x : Transition Engine Called) : Prop :=
  x.label.call = .runCycle → ∀ pool, x.pre.ingestTrace pool <+: x.label.trace →
    (∀ r ∈ rotationsOf x.pre.keyRotationBodies (x.pre.start pool).allPending,
      x.pre.syncKeyRotationState.keyRotationValidator.validate X r ≠ .ok ()) ∨ x.pre.Anchoring X

variable {X}

/-! ## Cycles -/

variable {e e' : Engine} {l : Called}

/-- The rotations of the batch leave the keys of the next block alone. -/
theorem Engine.Anchoring.ready (h : e.Anchoring X) (hasc : ∀ id, AscendingCycles (e.rotations id)) (pool : List ProvenanceEntry) :
    (e.ready X pool).OwnKeyActive e.nextCycle := by
  obtain ⟨keys, hget, hmem⟩ := h.active
  have hasc₀ : ∀ id, AscendingCycles (e.syncKeyRotationState.keyRotationValidator.rotations id) := hasc
  obtain ⟨hgrown, -⟩ := grown_recordAll X (rotationsOf e.keyRotationBodies (e.start pool).allPending) hasc₀
  refine ⟨keys, ?_, by rwa [Engine.ready_node]⟩
  rw [Engine.ready_node, ready_keys, hgrown.activeKeys h.ahead]
  exact hget

/-- **What an anchoring cycle does to the key history**: it only aligns it, or it appends a block with its whole batch. -/
theorem anchoring_cycle (hC : AnchoringStep X ⟨e, l, e'⟩) (hc : l.call = .runCycle) (h : EngineStep X e l e')
    (hasc : ∀ id, AscendingCycles (e.rotations id)) :
    e'.keyRotationValidator = e.syncKeyRotationState.keyRotationValidator ∨
      ∃ pool b, e'.keyRotationValidator = (e.ready X pool).keyRotationValidator ∧ e'.blocks = e.blocks ++ [b] ∧
        b.anchored = dedupEntries (e.start pool).allPending [] := by
  rw [EngineStep, hc] at h
  obtain ⟨x, hcycled⟩ := run_runCycle X h
  obtain ⟨pool, hpool, hkeys, -⟩ := cycle_keys X hcycled
  have haligned : (∀ r ∈ rotationsOf e.keyRotationBodies (e.start pool).allPending,
      e.syncKeyRotationState.keyRotationValidator.validate X r ≠ .ok ()) →
      e'.keyRotationValidator = e.syncKeyRotationState.keyRotationValidator := fun hrefused => by
    rw [hkeys, ready_keys, recordAll_refused X _ hrefused]
  rcases hC hc pool hpool with hrefused | halone
  · exact .inl (haligned hrefused)
  · have hstart : (e.start pool).allPending = e.allPending := halone.solo.start_allPending pool
    rcases solo_cycle halone.solo halone.complete (fun pool => halone.ready hasc pool) hcycled with
      ⟨hnone, -⟩ | ⟨-, ⟨cm⟩⟩
    · refine .inl (haligned ?_)
      rw [hstart, hnone]
      exact fun r hr => absurd hr List.not_mem_nil
    · exact .inr ⟨pool, cm.final, hkeys, cm.blocks_eq, (cm.alone halone.solo.gossip).1.trans (by rw [hstart])⟩

/-- A rotation that a cycle admits is among the entries of the batch. -/
theorem batch_of_new (hfiled : e.BodiesFiled) {pool : List ProvenanceEntry} {id : RootID} {r : KeyRotationEntry}
    (hr : r ∈ (e.ready X pool).rotations id) (hnew : r ∉ e.rotations id) :
    ∃ pe ∈ (e.start pool).allPending, pe.hash = r.hash := by
  rcases (admitted_ready X e pool).rotations id r hr with hr | ⟨pe, hpe, -, hbody⟩
  · exact absurd hr hnew
  · exact ⟨pe, hpe, (hfiled pe.hash r hbody).symm⟩

/-- An anchoring cycle leaves every recorded rotation anchored. -/
theorem anchored_cycle (hC : AnchoringStep X ⟨e, l, e'⟩) (hc : l.call = .runCycle) (h : EngineStep X e l e')
    (hasc : ∀ id, AscendingCycles (e.rotations id)) (ha : Authorised e) : ∀ id, ∀ r ∈ e'.rotations id, e'.Anchors r := by
  intro id r hr
  have hold : r ∈ e.rotations id → e'.Anchors r := by
    intro hr
    obtain ⟨b, hb, hmem⟩ := ha.anchored id r hr
    rcases step_grows X e l e' h with hblocks | ⟨b', hblocks⟩
    · exact ⟨b, by rwa [hblocks], hmem⟩
    · exact ⟨b, by rw [hblocks]; exact List.mem_append_left _ hb, hmem⟩
  rcases anchoring_cycle hC hc h hasc with hkeys | ⟨pool, b, hkeys, hblocks, hanchored⟩
  · rw [Engine.rotations, hkeys] at hr
    exact hold hr
  · by_cases hbefore : r ∈ e.rotations id
    · exact hold hbefore
    · rw [Engine.rotations, hkeys] at hr
      obtain ⟨pe, hpe, hhash⟩ := batch_of_new ha.filed hr hbefore
      refine ⟨b, by rw [hblocks]; simp, ?_⟩
      rw [hanchored, ← hhash]
      exact (hash_mem_dedupEntries hpe []).resolve_left List.not_mem_nil

/-! ## Runs -/

/-- An anchoring step keeps the authority of rotations with blocks. -/
theorem authorised_step (hC : AnchoringStep X ⟨e, l, e'⟩) (h : EngineStep X e l e')
    (hasc : ∀ id, AscendingCycles (e.rotations id)) (ha : Authorised e) : Authorised e' := by
  by_cases hc : l.call = .runCycle
  · have hset := (sameEngine_step X h).validatorSet
    refine ⟨?_, ?_, anchored_cycle hC hc h hasc ha⟩
    all_goals
      rw [EngineStep, hc] at h
      obtain ⟨x, hcycled⟩ := run_runCycle X h
      obtain ⟨pool, -, hkeys, hbodies⟩ := cycle_keys X hcycled
    · rw [Engine.Aligned, hkeys, (admitted_ready X e pool).validators, hset]
      rfl
    · rw [Engine.BodiesFiled, hbodies, (admitted_ready X e pool).bodies]
      exact ha.filed
  · obtain ⟨⟨x, s⟩, rfl, hrun⟩ := run_map.1 h
    exact kept_authorised (call_within X hc _ _ _ _ hrun).1 ha

theorem authorised_run {τ : List (Transition Engine Called)} (hf : e.Fresh) (hp : e.peers ≠ []) (h : EngineRun X e τ e')
    (hC : ∀ x ∈ τ, AnchoringStep X x) : (∀ id, AscendingCycles (e'.rotations id)) ∧ Authorised e' := by
  refine Path.invariant (C := AnchoringStep X) (I := fun e => (∀ id, AscendingCycles (e.rotations id)) ∧ Authorised e) ?_ h hC
    ⟨(paced_fresh hf).ascending, authorised_fresh hf hp⟩
  rintro e l e' hC hstep ⟨hasc, ha⟩
  exact ⟨(history_step X hstep hasc).1, authorised_step hC hstep hasc ha⟩

/-- **Authority comes from blocks** in a run whose cycles are anchoring: every recorded rotation is anchored in the chain, and a
cycle that appends no block changes no active key. -/
theorem authority_of_anchoring {e e' : Engine} {τ : List (Transition Engine Called)} (hf : e.Fresh) (hp : e.peers ≠ [])
    (h : EngineRun X e τ e') (hC : ∀ x ∈ τ, AnchoringStep X x) :
    (∀ id, ∀ r ∈ e'.rotations id, e'.Anchors r) ∧
      ∀ x ∈ τ, x.label.call = .runCycle → x.post.blocks = x.pre.blocks → ∀ id cycle,
        x.post.keyRotationValidator.getActivePublicKey id cycle = x.pre.keyRotationValidator.getActivePublicKey id cycle := by
  refine ⟨(authorised_run hf hp h hC).2.anchored, fun x hx hcall hblocks id cycle => ?_⟩
  obtain ⟨τ₁, τ₂, rfl, h₁, hstep⟩ := h.split hx
  obtain ⟨hasc, hpre⟩ := authorised_run hf hp h₁ fun y hy => hC y (List.mem_append_left _ hy)
  rcases anchoring_cycle (hC x hx) hcall hstep hasc with hkeys | ⟨pool, b, -, hnew, -⟩
  · have haligned : x.post.keyRotationValidator.validators = x.pre.keyRotationValidator.validators := by
      rw [hkeys, hpre.aligned]
      rfl
    have hrotations : x.post.keyRotationValidator.rotations = x.pre.keyRotationValidator.rotations := by
      rw [hkeys]
      rfl
    simp only [getActivePublicKey, haligned, hrotations]
  · rw [hblocks] at hnew
    simp at hnew

namespace Sample

instance (e : Engine) : Decidable (Solo e) :=
  decidable_of_iff (e.hasGossip = false ∧ e.peers = [e.node.asPeer] ∧ e.state.nodes.entries.map (·.1) = [e.node.uid.id] ∧
    (∀ x ∈ e.state.nodes.entries, 0 < x.2.status) ∧ e.state.validatorSet = [e.node.asPeer.validatorInfo] ∧
    e.degraded.minValidators = 4 ∧ e.cfg.skipEmptyCycles = true) <| by
  constructor
  · rintro ⟨hgossip, hpeers, hids, hstatus, hvalidators, hdegraded, hskips⟩
    obtain ⟨⟨id, n⟩, hentries, rfl⟩ := List.map_eq_singleton_iff.1 hids
    exact ⟨hgossip, hpeers, ⟨n, hentries, hstatus ⟨e.node.uid.id, n⟩ (by simp [hentries])⟩, hvalidators, hdegraded, hskips⟩
  · rintro ⟨hgossip, hpeers, ⟨n, hentries, hstatus⟩, hvalidators, hdegraded, hskips⟩
    exact ⟨hgossip, hpeers, by simp [hentries], by simpa [hentries] using hstatus, hvalidators, hdegraded, hskips⟩

/-- Before the cycle the node is alone and its key active; the rotation takes effect ten cycles later. -/
def soloRotationAnchoring : Computed soloRotation fun x =>
    (x.2.1.rotations (Arr.copy 16 [1])).length = 1 ∧ ∀ y ∈ x.1, Solo y.pre ∧
      y.pre.syncKeyRotationState.keyRotationValidator.getActivePublicKey (uid 1).rootID y.pre.nextCycle =
        some [(uid 1).publicKey] ∧
      y.pre.nextCycle < y.pre.state.cycle + y.pre.keyRotationValidator.cfg.keyRotationLeadTime :=
  computed _ (by decide +kernel)

/-- The rotation is in the key history and in the block. -/
theorem soloRotation_anchored : (soloRotation.2.1.rotations (Arr.copy 16 [1])).length = 1 ∧
    (∀ id, ∀ r ∈ soloRotation.2.1.rotations id, soloRotation.2.1.Anchors r) ∧
    ∀ x ∈ soloRotation.1, x.label.call = .runCycle → x.post.blocks = x.pre.blocks → ∀ id cycle,
      x.post.keyRotationValidator.getActivePublicKey id cycle =
        x.pre.keyRotationValidator.getActivePublicKey id cycle := by
  have hrun : EngineRun prims (Engine.new (node 1)) soloRotation.1 soloRotation.2.1 := run_calls _ _ _
  obtain ⟨run, heq, hone, hpre⟩ := soloRotationAnchoring
  rw [← heq] at hrun ⊢
  refine ⟨hone, authority_of_anchoring (.inl ⟨_, rfl⟩) (List.cons_ne_nil _ _) hrun fun x hx _ pool _ => .inr ?_⟩
  obtain ⟨hsolo, hactive, hahead⟩ := hpre x hx
  obtain ⟨τ₁, τ₂, -, h₁, -⟩ := hrun.split hx
  have hnode : x.pre.node = node 1 := (sameEngine_run prims h₁).node
  refine ⟨hsolo, hnode ▸ completeKeys_with prims.blake3, ⟨_, ?_, List.mem_singleton.2 rfl⟩, hahead⟩
  change x.pre.syncKeyRotationState.keyRotationValidator.getActivePublicKey x.pre.node.uid.rootID _ =
    some [x.pre.node.uid.publicKey]
  rw [hnode]
  exact hactive

/-- One of two validators submits a rotation and runs a cycle in which nobody is elected. -/
def abortedRotation : List (Transition Engine Called) × Engine × MemoryBus :=
  calls [.submitKeyRotation (rotation 2), .runCycle] (two 2) MemoryBus.new

/-- The chain is empty, and the keys of the tenth cycle change. -/
def abortedKeys : Computed abortedRotation fun x =>
    x.2.1.blocks.length = 0 ∧ (∃ r ∈ x.2.1.rotations (Arr.copy 16 [2]), r.effectiveCycle = 10) ∧
      ∃ y ∈ x.1, (y.label.call matches .runCycle) = true ∧ y.pre.blocks.length = 0 ∧ y.post.blocks.length = 0 ∧
        y.post.keyRotationValidator.getActivePublicKey (Arr.copy 16 [2]) 10 ≠
          y.pre.keyRotationValidator.getActivePublicKey (Arr.copy 16 [2]) 10 :=
  computed _ (by decide +kernel)

/-- The cycle appends no block, yet the rotation is recorded and gives its validator another key. -/
theorem rotates_unanchored : ∃ e τ e', e.Fresh ∧ e.peers ≠ [] ∧ EngineRun prims e τ e' ∧
    (∃ id, ∃ r ∈ e'.rotations id, ¬ e'.Anchors r) ∧
    ∃ x ∈ τ, x.label.call = .runCycle ∧ x.post.blocks = x.pre.blocks ∧ ∃ id cycle,
      x.post.keyRotationValidator.getActivePublicKey id cycle ≠
        x.pre.keyRotationValidator.getActivePublicKey id cycle := by
  have hrun : EngineRun prims (two 2) abortedRotation.1 abortedRotation.2.1 := run_calls _ _ _
  obtain ⟨run, heq, hempty, ⟨r, hr, -⟩, x, hx, hcall, hpre, hpost, hkeys⟩ := abortedKeys
  rw [← heq] at hrun
  replace hcall : x.label.call = .runCycle := by
    generalize x.label.call = c at hcall
    cases c <;> first | rfl | cases hcall
  refine ⟨two 2, run.1, run.2.1, .inr ⟨_, _, _, rfl⟩, List.cons_ne_nil _ _, hrun, ⟨_, r, hr, ?_⟩, x, hx, hcall, ?_, _, _, hkeys⟩
  · rintro ⟨b, hb, -⟩
    rw [List.length_eq_zero_iff.1 hempty] at hb
    cases hb
  · rw [List.length_eq_zero_iff.1 hpost, List.length_eq_zero_iff.1 hpre]

end Sample

end Gleipnir
