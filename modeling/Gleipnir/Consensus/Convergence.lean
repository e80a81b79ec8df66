import Gleipnir.Consensus.PastKeys

/-!
# The key history and the chain

What a chain says about keys is a function of its blocks and of the rotation bodies they refer to (`replay`). An engine does
not read its keys off the chain: it admits the rotations of its own batch, whatever becomes of the cycle, and judges their
lead time by its own counter of attempts. `converge_of_replaying` gives the runs in which this makes no difference, and two
engines with the same chain have the same keys.
-/

namespace Gleipnir

open Atomic Atomic.Body KeyRotationValidator

variable (X : Prims)

/-! ## The history that a chain tells -/

/-- The hashes under which the rotations of a batch are filed. -/
def rotationHashes (batch : List ProvenanceEntry) : List Hash :=
  (batch.filter fun pe => pe.label = keyRotationLabel).map (·.hash)

/-- The rotations of a block, admitted in the cycle of its index. -/
def replayBlock (bodies : Hash → Option KeyRotationEntry) (v : KeyRotationValidator) (bi : Block × Nat) :
    KeyRotationValidator :=
  recordAll X (rotationsOf bodies bi.1.anchored) (v.setCycle (UInt64.ofNat bi.2))

/-- The key history of a chain. -/
def replay (bodies : Hash → Option KeyRotationEntry) (validators : List ValidatorInfo) (blocks : List Block) :
    KeyRotationValidator :=
  blocks.zipIdx.foldl (replayBlock X bodies) (new validators 0 defaultConfig)

theorem rotationsOf_eq (bodies : Hash → Option KeyRotationEntry) (batch : List ProvenanceEntry) :
    rotationsOf bodies batch = (rotationHashes batch).filterMap bodies := by
  rw [rotationsOf, rotationHashes, List.filterMap_map, List.filterMap_filter]
  simp only [decide_eq_true_eq]
  rfl

theorem replay_concat (bodies : Hash → Option KeyRotationEntry) (validators : List ValidatorInfo) (blocks : List Block)
    (b : Block) : replay X bodies validators (blocks ++ [b]) =
      replayBlock X bodies (replay X bodies validators blocks) (b, blocks.length) := by
  simp [replay, List.zipIdx_append]

/-- Every rotation that a chain anchors has its body registered. -/
def Known (bodies : Hash → Option KeyRotationEntry) (blocks : List Block) : Prop :=
  ∀ b ∈ blocks, ∀ hash ∈ rotationHashes b.anchored, ∃ r, bodies hash = some r

/-- Bodies registered besides do not matter. -/
theorem replay_congr {bodies bodies' : Hash → Option KeyRotationEntry} {blocks : List Block} (hknown : Known bodies blocks)
    (hkept : ∀ hash r, bodies hash = some r → bodies' hash = some r) (validators : List ValidatorInfo) :
    replay X bodies' validators blocks = replay X bodies validators blocks := by
  induction blocks using List.reverseRecOn with
  | nil => rfl
  | append_singleton blocks b ih =>
    have hsame : rotationsOf bodies' b.anchored = rotationsOf bodies b.anchored := by
      rw [rotationsOf_eq, rotationsOf_eq]
      refine List.filterMap_congr fun hash hhash => ?_
      obtain ⟨r, hr⟩ := hknown b (by simp) hash hhash
      rw [hr, hkept hash r hr]
    rw [replay_concat, replay_concat, ih fun b' hb' => hknown b' (List.mem_append_left _ hb'), replayBlock, replayBlock, hsame]

/-- The history of a chain is ascending, over the keys of the validators. -/
theorem replay_ascending (bodies : Hash → Option KeyRotationEntry) (validators : List ValidatorInfo) (blocks : List Block) :
    (replay X bodies validators blocks).validators = validatorKeys validators ∧
      (replay X bodies validators blocks).cfg = defaultConfig ∧
      ∀ id, AscendingCycles ((replay X bodies validators blocks).rotations id) := by
  induction blocks using List.reverseRecOn with
  | nil => exact ⟨rfl, rfl, fun _ => List.Pairwise.nil⟩
  | append_singleton blocks b ih =>
    obtain ⟨hvalidators, hcfg, hasc⟩ := ih
    have hasc₀ : ∀ id, AscendingCycles (((replay X bodies validators blocks).setCycle
        (UInt64.ofNat blocks.length)).rotations id) := hasc
    obtain ⟨hgrown, hasc'⟩ := grown_recordAll X (rotationsOf bodies b.anchored) hasc₀
    rw [replay_concat]
    exact ⟨hgrown.validators.trans hvalidators, hgrown.cfg.trans hcfg, hasc'⟩

/-! ## Cycles that follow the chain -/

/-- The lead time of a rotation has the same verdict for the counter of the engine as for the index of its next block. -/
def SameLead (e : Engine) (r : KeyRotationEntry) : Prop :=
  e.state.cycle + defaultConfig.keyRotationLeadTime ≤ r.effectiveCycle ↔
    e.nextCycle + defaultConfig.keyRotationLeadTime ≤ r.effectiveCycle

/-- A step in which the key history follows the chain: no body is replaced by another one under its hash; a cycle that
appends no block has no admissible rotation in its batch; and a cycle that appends one has the rotations of the block in its
batch and no others, knows their bodies, and judges their lead time as the index of the block does. -/
structure ReplayingStep (x : Transition Engine Called) : Prop where
  bodies : ∀ hash r, x.pre.keyRotationBodies hash = some r → x.post.keyRotationBodies hash = some r
  cycle : x.label.call = .runCycle → ∀ pool, x.pre.ingestTrace pool <+: x.label.trace →
    (x.post.blocks = x.pre.blocks ∧ ∀ r ∈ rotationsOf x.pre.keyRotationBodies (x.pre.start pool).allPending,
      x.pre.syncKeyRotationState.keyRotationValidator.validate X r ≠ .ok ()) ∨
    ∃ b, x.post.blocks = x.pre.blocks ++ [b] ∧
      rotationHashes b.anchored = rotationHashes (x.pre.start pool).allPending ∧
      ∀ hash ∈ rotationHashes b.anchored, ∃ r, x.pre.keyRotationBodies hash = some r ∧ SameLead x.pre r

/-- The key history of the engine is the one its chain tells. -/
structure Derived (e : Engine) : Prop where
  aligned : e.Aligned
  cfg : e.keyRotationValidator.cfg = defaultConfig
  known : Known e.keyRotationBodies e.blocks
  rotations : e.keyRotationValidator.rotations =
    (replay X e.keyRotationBodies e.state.validatorSet e.blocks).rotations

variable {e e' : Engine} {l : Called}

theorem derived_fresh (hf : e.Fresh) (hp : e.peers ≠ []) : Derived X e := by
  refine ⟨(authorised_fresh hf hp).aligned, (paced_fresh hf).cfg, ?_, ?_⟩
  · rw [hf.blank.blocks]
    exact nofun
  · rw [hf.blank.blocks]
    rcases hf with ⟨node, rfl⟩ | ⟨node, hasGossip, peers, rfl⟩
    · rfl
    · simp only [Engine.newWithPeers]
      split <;> rfl

theorem Derived.ascending (hd : Derived X e) : ∀ id, AscendingCycles (e.rotations id) := by
  intro id
  rw [Engine.rotations, hd.rotations]
  exact (replay_ascending X _ _ _).2.2 id

theorem cycle_bodies (h : EngineStep X e l e') (hc : l.call = .runCycle) : e'.keyRotationBodies = e.keyRotationBodies := by
  rw [EngineStep, hc] at h
  obtain ⟨x, hcycled⟩ := run_runCycle X h
  obtain ⟨pool, -, -, hbodies⟩ := cycle_keys X hcycled
  exact hbodies.trans (admitted_ready X e pool).bodies

/-- A cycle that admits nothing and appends nothing. -/
theorem derived_idle (hd : Derived X e) (hset : e'.state.validatorSet = e.state.validatorSet)
    (hbodies : e'.keyRotationBodies = e.keyRotationBodies) (hblocks : e'.blocks = e.blocks)
    (hkeys : e'.keyRotationValidator = e.syncKeyRotationState.keyRotationValidator) : Derived X e' := by
  refine ⟨?_, ?_, ?_, ?_⟩
  · rw [Engine.Aligned, hkeys, hset]
    rfl
  · rw [hkeys]
    exact hd.cfg
  · rw [hbodies, hblocks]
    exact hd.known
  · rw [hkeys, hbodies, hblocks, hset]
    exact hd.rotations

/-- A cycle that appends a block and admits its rotations. -/
theorem derived_commit (hd : Derived X e) {b : Block} {rs : List KeyRotationEntry}
    (hset : e'.state.validatorSet = e.state.validatorSet) (hbodies : e'.keyRotationBodies = e.keyRotationBodies)
    (hblocks : e'.blocks = e.blocks ++ [b])
    (hkeys : e'.keyRotationValidator = recordAll X rs e.syncKeyRotationState.keyRotationValidator)
    (hrs : rs = rotationsOf e.keyRotationBodies b.anchored)
    (hknown : ∀ hash ∈ rotationHashes b.anchored, ∃ r, e.keyRotationBodies hash = some r ∧ SameLead e r) : Derived X e' := by
  have hasc : ∀ id, AscendingCycles (e.syncKeyRotationState.keyRotationValidator.rotations id) := hd.ascending X
  obtain ⟨hgrown, -⟩ := grown_recordAll X rs hasc
  obtain ⟨hvalidators, hcfg, -⟩ := replay_ascending X e.keyRotationBodies e.state.validatorSet e.blocks
  have hsynccfg : e.syncKeyRotationState.keyRotationValidator.cfg = defaultConfig := hd.cfg
  refine ⟨?_, ?_, ?_, ?_⟩
  · rw [Engine.Aligned, hkeys, hgrown.validators, hset]
    rfl
  · rw [hkeys, hgrown.cfg, hsynccfg]
  · rw [hbodies, hblocks]
    intro b' hb' hash hhash
    rcases List.mem_append.1 hb' with hb' | hb'
    · exact hd.known b' hb' hash hhash
    · rw [List.mem_singleton.1 hb'] at hhash
      obtain ⟨r, hr, -⟩ := hknown hash hhash
      exact ⟨r, hr⟩
  · rw [hkeys, hbodies, hblocks, hset, replay_concat, replayBlock, hrs]
    -- the engine admits at its counter, the chain at the index: the verdicts are the same
    refine recordAll_congr X _ hvalidators.symm (hsynccfg.trans hcfg.symm) hd.rotations hasc fun r hr => ?_
    rw [rotationsOf_eq, List.mem_filterMap] at hr
    obtain ⟨hash, hhash, hbody⟩ := hr
    obtain ⟨r', hr', hlead⟩ := hknown hash hhash
    obtain rfl := Option.some.inj (hbody.symm.trans hr')
    rw [hsynccfg]
    exact hlead

/-- A step in which the key history follows the chain. -/
theorem derived_step (hC : ReplayingStep X ⟨e, l, e'⟩) (h : EngineStep X e l e') (hd : Derived X e) : Derived X e' := by
  have hset := (sameEngine_step X h).validatorSet
  by_cases hc : l.call = .runCycle
  · have hbodies := cycle_bodies X h hc
    rw [EngineStep, hc] at h
    obtain ⟨x, hcycled⟩ := run_runCycle X h
    obtain ⟨pool, hpool, hkeys, -⟩ := cycle_keys X hcycled
    rw [ready_keys] at hkeys
    rcases hC.cycle hc pool hpool with ⟨hblocks, hrefused⟩ | ⟨b, hblocks, hhashes, hknown⟩
    · rw [recordAll_refused X _ hrefused] at hkeys
      exact derived_idle X hd hset hbodies hblocks hkeys
    · refine derived_commit X hd hset hbodies hblocks hkeys ?_ hknown
      rw [rotationsOf_eq, rotationsOf_eq]
      exact congrArg (List.filterMap _) hhashes.symm
  · obtain ⟨⟨x, s⟩, rfl, hrun⟩ := run_map.1 h
    obtain ⟨hkept, -⟩ := call_within X hc _ _ _ _ hrun
    have hbodies := hC.bodies
    -- the history is the old one, and further bodies do not change what the chain tells
    have hreplay := replay_congr X hd.known hbodies e.state.validatorSet
    refine ⟨?_, ?_, ?_, ?_⟩
    · rw [Engine.Aligned, hset]
      rcases hkept.keys with hk | hk
      · rw [hk]
        exact hd.aligned
      · rw [hk]
        rfl
    · rcases hkept.keys with hk | hk
      · rw [hk]
        exact hd.cfg
      · rw [hk]
        exact hd.cfg
    · rw [hkept.blocks]
      intro b hb hash hhash
      obtain ⟨r, hr⟩ := hd.known b hb hash hhash
      exact ⟨r, hbodies hash r hr⟩
    · rw [hkept.blocks, hset]
      refine Eq.trans ?_ (hd.rotations.trans (congrArg KeyRotationValidator.rotations hreplay.symm))
      rcases hkept.keys with hk | hk
      · rw [hk]
      · rw [hk]
        rfl

/-! ## Two engines -/

/-- **The keys follow the chain** in a run whose steps do. -/
theorem derived_run {τ : List (Transition Engine Called)} (hf : e.Fresh) (hp : e.peers ≠ []) (h : EngineRun X e τ e')
    (hC : ∀ x ∈ τ, ReplayingStep X x) : Derived X e' :=
  Path.invariant (C := ReplayingStep X) (fun _ _ _ hC hstep hd => derived_step X hC hstep hd) h hC (derived_fresh X hf hp)

/-- **Key-state convergence**: engines over the same validators whose steps all follow the chain, however many attempts each
made, have the same active keys whenever they have the same blocks and the same rotation bodies. -/
theorem converge_of_replaying {e₁ e₁' e₂ e₂' : Engine} {τ₁ τ₂ : List (Transition Engine Called)} (hf₁ : e₁.Fresh)
    (hf₂ : e₂.Fresh) (hp₁ : e₁.peers ≠ []) (hp₂ : e₂.peers ≠ []) (h₁ : EngineRun X e₁ τ₁ e₁') (h₂ : EngineRun X e₂ τ₂ e₂')
    (hC₁ : ∀ x ∈ τ₁, ReplayingStep X x) (hC₂ : ∀ x ∈ τ₂, ReplayingStep X x)
    (hset : e₁'.state.validatorSet = e₂'.state.validatorSet) (hblocks : e₁'.blocks = e₂'.blocks)
    (hbodies : e₁'.keyRotationBodies = e₂'.keyRotationBodies) (id : RootID) (cycle : UInt64) :
    e₁'.keyRotationValidator.getActivePublicKey id cycle = e₂'.keyRotationValidator.getActivePublicKey id cycle := by
  have hd₁ := derived_run X hf₁ hp₁ h₁ hC₁
  have hd₂ := derived_run X hf₂ hp₂ h₂ hC₂
  have hvalidators : e₁'.keyRotationValidator.validators = e₂'.keyRotationValidator.validators := by
    rw [hd₁.aligned, hd₂.aligned, hset]
  have hrotations : e₁'.keyRotationValidator.rotations = e₂'.keyRotationValidator.rotations := by
    rw [hd₁.rotations, hd₂.rotations, hset, hblocks, hbodies]
  simp only [getActivePublicKey, hvalidators, hrotations]

namespace Sample

theorem serveOn_recordRotationBody {r : KeyRotationEntry} (h : r.verifyHash prims = true) (e : Engine) (b : MemoryBus) :
    (serveOn b ((Call.recordRotationBody r).prog prims e)).1 = e.keepRotationBody r := by
  have hbody : recordRotationBody prims r = (do
      modify fun e => e.keepRotationBody r
      return .ok ()) := by
    unfold recordRotationBody
    rw [h]
    rfl
  simp only [Call.prog, Call.body, hbody]
  rfl

/-- The entry that announces a rotation. -/
def announcement (r : KeyRotationEntry) : ProvenanceEntry :=
  { hash := r.hash, submitter := r.submitter, timestamp := r.timestamp, label := r.label }

/-- One of two validators has the body of a rotation and finds the entry in the pool, in a cycle in which nobody is
elected. -/
def attempting : List (Transition Engine Called) × Engine × MemoryBus :=
  calls [.recordRotationBody (rotation 2), .runCycle] (two 2) { MemoryBus.new with entries := [announcement (rotation 2)] }

/-- The other one has the body. -/
def waiting : List (Transition Engine Called) × Engine × MemoryBus :=
  calls [.recordRotationBody (rotation 2)] (two 1) MemoryBus.new

theorem two_validatorSet (k : UInt8) : (two k).state.validatorSet = [peer 1, peer 2].map Peer.validatorInfo := rfl

/-- Their chains are empty and their bodies the same, yet the one that made the attempt has another key for the validator. -/
theorem attempt_diverges : ∃ e₁ τ₁ e₁' e₂ τ₂ e₂', e₁.Fresh ∧ e₂.Fresh ∧ e₁.peers ≠ [] ∧ e₂.peers ≠ [] ∧
    EngineRun prims e₁ τ₁ e₁' ∧ EngineRun prims e₂ τ₂ e₂' ∧ e₁'.state.validatorSet = e₂'.state.validatorSet ∧
    e₁'.blocks = e₂'.blocks ∧ e₁'.keyRotationBodies = e₂'.keyRotationBodies ∧ ∃ id cycle,
      e₁'.keyRotationValidator.getActivePublicKey id cycle ≠ e₂'.keyRotationValidator.getActivePublicKey id cycle := by
  have hvalid : (rotation 2).verifyHash prims = true := by decide +kernel
  have hrun₁ : EngineRun prims (two 2) attempting.1 attempting.2.1 := run_calls _ _ _
  have hrun₂ : EngineRun prims (two 1) waiting.1 waiting.2.1 := run_calls _ _ _
  have hblocks : attempting.2.1.blocks.length = 0 ∧ waiting.2.1.blocks.length = 0 := by decide +kernel
  have hcount : (attempting.2.1.keyRotationValidator.getActivePublicKey (Arr.copy 16 [2]) 10).map List.length = some 2 ∧
      (waiting.2.1.keyRotationValidator.getActivePublicKey (Arr.copy 16 [2]) 10).map List.length = some 1 := by
    decide +kernel
  refine ⟨_, _, _, _, _, _, .inr ⟨_, _, _, rfl⟩, .inr ⟨_, _, _, rfl⟩, by decide +kernel, by decide +kernel, hrun₁, hrun₂,
    ?_, ?_, ?_, Arr.copy 16 [2], 10, fun hsame => ?_⟩
  · rw [(sameEngine_run prims hrun₁).validatorSet, (sameEngine_run prims hrun₂).validatorSet,
      two_validatorSet, two_validatorSet]
  · rw [List.length_eq_zero_iff.1 hblocks.1, List.length_eq_zero_iff.1 hblocks.2]
  · -- the cycle leaves the bodies as the registration made them
    have hbodies : ∀ e b b', (serveOn b' (Call.runCycle.prog prims
        (serveOn b ((Call.recordRotationBody (rotation 2)).prog prims e)).1)).1.keyRotationBodies =
        (e.keepRotationBody (rotation 2)).keyRotationBodies := by
      intro e b b'
      rw [serveOn_recordRotationBody hvalid]
      exact cycle_bodies prims (step_serveOn .runCycle (e.keepRotationBody (rotation 2)) b') rfl
    have hbodies' := congrArg Engine.keyRotationBodies (serveOn_recordRotationBody hvalid (two 1) MemoryBus.new)
    exact (hbodies _ _ _).trans hbodies'.symm
  · rw [hsame, hcount.2] at hcount
    cases hcount.1

/-- A single node that has committed its rotation runs a cycle without entries. -/
def soloLater : List (Transition Engine Called) × Engine × MemoryBus :=
  calls [.runCycle] soloRotation.2.1 soloRotation.2.2

theorem run_soloRotation : EngineRun prims (Engine.new (node 1)) soloRotation.1 soloRotation.2.1 := run_calls _ _ _

theorem run_soloLater : EngineRun prims (Engine.new (node 1)) (soloRotation.1 ++ soloLater.1) soloLater.2.1 :=
  run_soloRotation.append (run_calls _ _ _)

/-- What can be computed of a replaying cycle of a node without a channel. -/
def replaysAlone (x : Transition Engine Called) : Bool :=
  (x.post.blocks.length == x.pre.blocks.length && (x.pre.start []).allPending.isEmpty) ||
    (x.post.blocks.length == x.pre.blocks.length + 1 && x.post.blocks.all fun b =>
      rotationHashes b.anchored == rotationHashes (x.pre.start []).allPending &&
        (rotationHashes b.anchored).all fun hash => (x.pre.keyRotationBodies hash).any fun r =>
          decide (x.pre.state.cycle + defaultConfig.keyRotationLeadTime ≤ r.effectiveCycle) ==
            decide (x.pre.nextCycle + defaultConfig.keyRotationLeadTime ≤ r.effectiveCycle))

theorem replayingStep_alone {e e' : Engine} {l : Called} (h : EngineStep prims e l e') (hc : l.call = .runCycle)
    (hg : e.hasGossip = false) (hx : replaysAlone ⟨e, l, e'⟩ = true) : ReplayingStep prims ⟨e, l, e'⟩ := by
  refine ⟨fun hash r hr => ?_, fun _ pool _ => ?_⟩
  · rw [cycle_bodies prims h hc]
    exact hr
  · rw [Engine.start_alone hg pool []]
    simp only [replaysAlone, Bool.or_eq_true, Bool.and_eq_true, beq_iff_eq, List.isEmpty_iff, List.all_eq_true] at hx
    rcases hx with ⟨hlen, hnone⟩ | ⟨hlen, hall⟩
    · refine .inl ⟨?_, by simp [hnone, rotationsOf]⟩
      rcases step_counter prims h with ⟨-, hblocks⟩ | ⟨-, hblocks | ⟨b, hblocks⟩⟩
      · exact hblocks
      · exact hblocks
      · simp [hblocks] at hlen
    · obtain ⟨b, hblocks⟩ : ∃ b, e'.blocks = e.blocks ++ [b] := by
        rcases step_counter prims h with ⟨-, hblocks⟩ | ⟨-, hblocks | hblocks⟩
        · simp [hblocks] at hlen
        · simp [hblocks] at hlen
        · exact hblocks
      obtain ⟨hhashes, hbodies⟩ := hall b (by simp [hblocks])
      refine .inr ⟨b, hblocks, hhashes, fun hash hhash => ?_⟩
      obtain ⟨r, hr, hlead⟩ := (Option.any_eq_true _ _).1 (hbodies hash hhash)
      exact ⟨r, hr, by simpa [SameLead] using hlead⟩

theorem soloLater_replays : ∀ x ∈ soloRotation.1 ++ soloLater.1, ReplayingStep prims x := by
  have halone : ∀ x ∈ soloRotation.1 ++ soloLater.1, x.pre.hasGossip = false := by decide +kernel
  have hcycles : ∀ x ∈ soloRotation.1.tail ++ soloLater.1, replaysAlone x = true := by decide +kernel
  have hcalls : (soloRotation.1.tail ++ soloLater.1).map (·.label.call) = [.runCycle, .runCycle] := rfl
  intro x hx
  obtain ⟨-, -, -, -, hstep⟩ := run_soloLater.split hx
  rcases List.mem_cons.1 hx with rfl | htail
  · -- the registration is no cycle, and a new engine has no body to lose
    exact ⟨fun hash r hr => (Option.some_ne_none r hr.symm).elim, fun hc => (Call.noConfusion hc)⟩
  · have hc : x.label.call = .runCycle := by
      have hmem : x.label.call ∈ (soloRotation.1.tail ++ soloLater.1).map (·.label.call) := List.mem_map_of_mem htail
      rw [hcalls] at hmem
      simpa using hmem
    exact replayingStep_alone hstep hc (halone x hx) (hcycles x htail)

/-- Both have the block and the body, and the same keys, although the second made an attempt more. -/
theorem soloLater_converges : soloRotation.2.1.state.cycle ≠ soloLater.2.1.state.cycle ∧ ∀ id cycle,
    soloRotation.2.1.keyRotationValidator.getActivePublicKey id cycle =
      soloLater.2.1.keyRotationValidator.getActivePublicKey id cycle := by
  have hpeers : (Engine.new (node 1)).peers ≠ [] := List.cons_ne_nil _ _
  have hlen : soloRotation.2.1.blocks.length = soloLater.2.1.blocks.length := by decide +kernel
  have hstep : EngineStep prims soloRotation.2.1
      ⟨.runCycle, (serveOn soloRotation.2.2 (Call.runCycle.prog prims soloRotation.2.1)).2.1⟩ soloLater.2.1 :=
    step_serveOn _ _ _
  have hblocks : soloRotation.2.1.blocks = soloLater.2.1.blocks := by
    rcases step_counter prims hstep with ⟨-, hblocks⟩ | ⟨-, hblocks | ⟨b, hblocks⟩⟩
    · exact hblocks.symm
    · exact hblocks.symm
    · simp [hblocks] at hlen
  exact ⟨by decide +kernel, converge_of_replaying prims (.inl ⟨_, rfl⟩) (.inl ⟨_, rfl⟩) hpeers hpeers run_soloRotation
    run_soloLater (fun x hx => soloLater_replays x (List.mem_append_left _ hx)) soloLater_replays
    ((sameEngine_step prims hstep).validatorSet).symm hblocks (cycle_bodies prims hstep rfl).symm⟩

end Sample

end Gleipnir
