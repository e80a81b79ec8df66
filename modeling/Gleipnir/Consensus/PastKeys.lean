import Gleipnir.Consensus.KeyAuthority
import Gleipnir.Validation.KeyHistory

/-!
# The keys of the past

A rotation takes effect at least ten cycles after the cycle counter of the engine that admits it, and the counter is never
behind the chain (`length_le_cycle`). So no rotation reaches back into a cycle whose block has been committed: the keys of
that cycle stay what they were, and so does the verdict on the certificate of its block (`past_stays`).
-/

namespace Gleipnir

open Atomic Atomic.Body KeyRotationValidator

variable (X : Prims)

/-! ## The key history in a cycle -/

/-- The rotation that an entry of a batch announces. -/
def rotationBody (bodies : Hash → Option KeyRotationEntry) (pe : ProvenanceEntry) : Option KeyRotationEntry :=
  if pe.label = keyRotationLabel then bodies pe.hash else none

/-- The rotations of a batch, in its order. -/
def rotationsOf (bodies : Hash → Option KeyRotationEntry) (batch : List ProvenanceEntry) : List KeyRotationEntry :=
  batch.filterMap (rotationBody bodies)

theorem processKeyRotation_keys (e : Engine) (pe : ProvenanceEntry) :
    (e.processKeyRotation X pe).keyRotationBodies = e.keyRotationBodies ∧
      (e.processKeyRotation X pe).keyRotationValidator =
        recordAll X (rotationBody e.keyRotationBodies pe).toList e.keyRotationValidator := by
  unfold Engine.processKeyRotation rotationBody
  by_cases hlabel : pe.label = keyRotationLabel
  · rw [if_neg (not_not.2 hlabel), if_pos hlabel]
    cases hbody : e.keyRotationBodies pe.hash with
    | none => exact ⟨rfl, rfl⟩
    | some r =>
      simp only [Option.toList_some, recordAll_cons]
      cases h : e.keyRotationValidator.validateAndRecord X r with
      | error err => exact ⟨rfl, (step_error X h).symm⟩
      | ok v => exact ⟨rfl, (step_ok X h).symm⟩
  · rw [if_pos hlabel, if_neg hlabel]
    exact ⟨rfl, rfl⟩

/-- A batch records its rotations one after the other. -/
theorem processKeyRotationEntries_keys (batch : List ProvenanceEntry) : ∀ e : Engine,
    (e.processKeyRotationEntries X batch).keyRotationValidator =
      recordAll X (rotationsOf e.keyRotationBodies batch) e.keyRotationValidator := by
  induction batch with
  | nil => intro e; rfl
  | cons pe batch ih =>
    intro e
    obtain ⟨hbodies, hkeys⟩ := processKeyRotation_keys X e pe
    have hrest := ih (e.processKeyRotation X pe)
    rw [hbodies, hkeys] at hrest
    refine hrest.trans ?_
    rw [rotationsOf, rotationsOf, List.filterMap_cons]
    cases rotationBody e.keyRotationBodies pe with
    | none => rfl
    | some r => rfl

/-- **The key history of a cycle**: that of the validator set and the counter, with the rotations of the batch. -/
theorem ready_keys (e : Engine) (pool : List ProvenanceEntry) :
    (e.ready X pool).keyRotationValidator =
      recordAll X (rotationsOf e.keyRotationBodies (e.start pool).allPending) e.syncKeyRotationState.keyRotationValidator := by
  obtain ⟨r, hr⟩ := Engine.processMandateEntries_eq X (e.start pool).allPending
    ((e.start pool).processKeyRotationEntries X (e.start pool).allPending)
  obtain ⟨pending, hstart⟩ := e.start_eq pool
  rw [Engine.ready, Engine.admitBatch, hr]
  refine (processKeyRotationEntries_keys X _ _).trans ?_
  rw [hstart]
  rfl

/-! ## The counter -/

variable {e e' : Engine} {l : Called} {τ : List (Transition Engine Called)}

/-- A cycle counts its attempt, unless it panics; it appends a block only if it does. -/
theorem cycle_counter {t : Trace} {x : Exit Unit} (h : Cycled X e t x e') :
    (e'.state.cycle = e.state.cycle ∧ e'.blocks = e.blocks) ∨
      (e'.state.cycle = e.state.cycle + 1 ∧ (e'.blocks = e.blocks ∨ ∃ b, e'.blocks = e.blocks ++ [b])) := by
  cases h with
  | @skipped pool hs =>
    obtain ⟨pending, hstart⟩ := e.start_eq pool
    rw [hstart]
    exact .inr ⟨rfl, .inl rfl⟩
  | panicked hs hp =>
    obtain ⟨st, rfl⟩ := phases_frame X hp
    exact .inl ⟨by simp, by simp⟩
  | aborted hs hp =>
    obtain ⟨st, rfl⟩ := phases_frame X hp
    exact .inr ⟨by simp [Engine.abort], .inl (by simp [Engine.abort])⟩
  | failed hs hp hc =>
    rw [conclude_none hc]
    obtain ⟨st, rfl⟩ := phases_frame X hp
    exact .inr ⟨by simp [Engine.abort, Engine.transit], .inl (by simp [Engine.abort, Engine.transit])⟩
  | @committed pool _ _ final _ _ hs hp hc =>
    obtain ⟨next, -, happly, hpost⟩ := conclude_some hc
    rw [hpost]
    obtain ⟨st, rfl⟩ := phases_frame X hp
    refine .inr ⟨(apply_ok X happly).1.trans (by simp), .inr ⟨final, ?_⟩⟩
    simp [Engine.appendBlock, Engine.extend, Engine.transit]

/-- What a run keeps of an engine: the counter is not behind the chain, and the key history is in order. -/
structure Paced (e : Engine) : Prop where
  cfg : e.keyRotationValidator.cfg = defaultConfig
  ascending : ∀ id, AscendingCycles (e.rotations id)
  length_le : e.blocks.length ≤ e.state.cycle.toNat
  aligned : e.blocks ≠ [] → e.Aligned

theorem paced_fresh (hf : e.Fresh) : Paced e := by
  rcases hf with ⟨node, rfl⟩ | ⟨node, hasGossip, peers, rfl⟩
  · exact ⟨rfl, fun _ => List.Pairwise.nil, Nat.zero_le _, fun h => absurd rfl h⟩
  · refine ⟨?_, fun id => ?_, Nat.zero_le _, fun h => absurd rfl h⟩
    · simp only [Engine.newWithPeers]
      split <;> rfl
    · simp only [Engine.rotations, Engine.newWithPeers]
      split <;> exact List.Pairwise.nil

/-- A step counts at most one attempt, and at least the blocks that it appends. -/
theorem step_counter (h : EngineStep X e l e') :
    (e'.state.cycle = e.state.cycle ∧ e'.blocks = e.blocks) ∨
      (e'.state.cycle = e.state.cycle + 1 ∧ (e'.blocks = e.blocks ∨ ∃ b, e'.blocks = e.blocks ++ [b])) := by
  by_cases hc : l.call = .runCycle
  · rw [EngineStep, hc] at h
    obtain ⟨x, hcycled⟩ := run_runCycle X h
    exact cycle_counter X hcycled
  · obtain ⟨⟨x, s⟩, rfl, hrun⟩ := run_map.1 h
    obtain ⟨hkept, -⟩ := call_within X hc _ _ _ _ hrun
    exact .inl ⟨by rw [hkept.state], hkept.blocks⟩

/-- **The counter is never behind the chain.** -/
theorem length_le_cycle (h : EngineStep X e l e') (hcycle : e.state.cycle.toNat < 2 ^ 63)
    (hle : e.blocks.length ≤ e.state.cycle.toNat) : e'.blocks.length ≤ e'.state.cycle.toNat := by
  have hnext : (e.state.cycle + 1).toNat = e.state.cycle.toNat + 1 := by
    have hone : (1 : UInt64).toNat = 1 := rfl
    rw [UInt64.toNat_add, hone]
    omega
  rcases step_counter X h with ⟨hcount, hblocks⟩ | ⟨hcount, hblocks | ⟨b, hblocks⟩⟩
  · rw [hcount, hblocks]
    exact hle
  · rw [hcount, hblocks, hnext]
    omega
  · rw [hcount, hblocks, hnext, List.length_append, List.length_singleton]
    omega

/-! ## Steps -/

/-- What a step does to the key history: it is realigned at most, or a cycle has recorded the rotations of its batch. -/
theorem step_keys (h : EngineStep X e l e') :
    (e'.keyRotationValidator = e.keyRotationValidator ∧ e'.blocks = e.blocks) ∨
      ∃ rs, e'.keyRotationValidator = recordAll X rs e.syncKeyRotationState.keyRotationValidator := by
  by_cases hc : l.call = .runCycle
  · rw [EngineStep, hc] at h
    obtain ⟨x, hcycled⟩ := run_runCycle X h
    obtain ⟨pool, -, hkeys, -⟩ := cycle_keys X hcycled
    exact .inr ⟨_, hkeys.trans (ready_keys X e pool)⟩
  · obtain ⟨⟨x, s⟩, rfl, hrun⟩ := run_map.1 h
    obtain ⟨hkept, -⟩ := call_within X hc _ _ _ _ hrun
    exact hkept.keys.imp (fun hsame => ⟨hsame, hkept.blocks⟩) fun hsync => ⟨[], hsync⟩

/-- **Histories only grow**: a step appends rotations to them, in the order of their effective cycles. -/
theorem history_step (h : EngineStep X e l e') (hasc : ∀ id, AscendingCycles (e.rotations id)) :
    (∀ id, AscendingCycles (e'.rotations id)) ∧ ∀ id, e.rotations id <+: e'.rotations id := by
  rcases step_keys X h with ⟨hkeys, -⟩ | ⟨rs, hkeys⟩
  · simp only [Engine.rotations, hkeys]
    exact ⟨hasc, fun _ => List.prefix_rfl⟩
  · have hasc₀ : ∀ id, AscendingCycles (e.syncKeyRotationState.keyRotationValidator.rotations id) := hasc
    obtain ⟨hgrown, hasc'⟩ := grown_recordAll X rs hasc₀
    simp only [Engine.rotations, hkeys]
    refine ⟨hasc', fun id => ?_⟩
    obtain ⟨later, hlater, -⟩ := hgrown.rotations id
    exact ⟨later, hlater.symm⟩

theorem history_run (h : EngineRun X e τ e') (hasc : ∀ id, AscendingCycles (e.rotations id)) :
    (∀ id, AscendingCycles (e'.rotations id)) ∧ ∀ id, e.rotations id <+: e'.rotations id := by
  refine h.preserves (I := fun s => (∀ id, AscendingCycles (s.rotations id)) ∧ ∀ id, e.rotations id <+: s.rotations id) ?_
    ⟨hasc, fun _ => List.prefix_rfl⟩
  intro s l s' hstep hs
  obtain ⟨hasc', hgrown⟩ := history_step X hstep hs.1
  exact ⟨hasc', fun id => (hs.2 id).trans (hgrown id)⟩

theorem paced_step (hcycle : e.state.cycle.toNat < 2 ^ 63) (h : EngineStep X e l e') (hp : Paced e) : Paced e' := by
  have hlength := length_le_cycle X h hcycle hp.length_le
  have hset := (sameEngine_step X h).validatorSet
  obtain ⟨hasc, -⟩ := history_step X h hp.ascending
  rcases step_keys X h with ⟨hkeys, hblocks⟩ | ⟨rs, hkeys⟩
  · refine ⟨hkeys ▸ hp.cfg, hasc, hlength, fun hne => ?_⟩
    rw [Engine.Aligned, hkeys, hset]
    exact hp.aligned (hblocks ▸ hne)
  · have hasc₀ : ∀ id, AscendingCycles (e.syncKeyRotationState.keyRotationValidator.rotations id) := hp.ascending
    obtain ⟨hgrown, -⟩ := grown_recordAll X rs hasc₀
    refine ⟨?_, hasc, hlength, fun _ => ?_⟩
    · rw [hkeys, hgrown.cfg]
      exact hp.cfg
    · rw [Engine.Aligned, hkeys, hgrown.validators, hset]
      rfl

/-- The keys of a cycle with a committed block stay in a step. -/
theorem step_past (hcycle : e.state.cycle.toNat < 2 ^ 63) (h : EngineStep X e l e') (hp : Paced e) {c : Nat}
    (hc : c < e.blocks.length) (id : RootID) :
    e'.keyRotationValidator.getActivePublicKey id (UInt64.ofNat c) =
      e.keyRotationValidator.getActivePublicKey id (UInt64.ofNat c) := by
  rcases step_keys X h with ⟨hkeys, -⟩ | ⟨rs, hkeys⟩
  · rw [hkeys]
  · have hasc₀ : ∀ id, AscendingCycles (e.syncKeyRotationState.keyRotationValidator.rotations id) := hp.ascending
    obtain ⟨hgrown, -⟩ := grown_recordAll X rs hasc₀
    -- the counter is past `c`, so what the step records takes effect later
    have hlead : UInt64.ofNat c < e.syncKeyRotationState.keyRotationValidator.currentCycle +
        e.syncKeyRotationState.keyRotationValidator.cfg.keyRotationLeadTime := by
      have hcfg : e.syncKeyRotationState.keyRotationValidator.cfg = defaultConfig := hp.cfg
      have hten : defaultConfig.keyRotationLeadTime.toNat = 10 := by decide
      have hle := hp.length_le
      have hsmall : c < 2 ^ 64 := by omega
      change _ < e.state.cycle + _
      rw [hcfg, UInt64.lt_iff_toNat_lt, UInt64.toNat_add, hten, UInt64.toNat_ofNat_of_lt' hsmall]
      omega
    have hne : e.blocks ≠ [] := fun hnil => by simp [hnil] at hc
    rw [hkeys, hgrown.activeKeys hlead]
    -- realigning changes nothing: the history is aligned since the first block
    have haligned : e.syncKeyRotationState.keyRotationValidator.validators = e.keyRotationValidator.validators :=
      (hp.aligned hne).symm
    simp only [getActivePublicKey, haligned]
    rfl

/-! ## Runs -/

/-- The counter of the engine is below the limit before the step. -/
def BelowLimit (x : Transition Engine Called) : Prop := x.pre.state.cycle.toNat < 2 ^ 63

theorem paced_run (hf : e.Fresh) (h : EngineRun X e τ e') (hcycles : ∀ x ∈ τ, BelowLimit x) : Paced e' :=
  Path.invariant (C := BelowLimit) (fun _ _ _ hcycle hstep hp => paced_step X hcycle hstep hp) h hcycles (paced_fresh hf)

/-- The certificate check reads the peers and the keys of the cycle, nothing else of the engine. -/
theorem verifyPrepareQuorum_congr {cycle : UInt64} (hpeers : e'.peers = e.peers)
    (hkeys : ∀ id, e'.keyRotationValidator.getActivePublicKey id cycle = e.keyRotationValidator.getActivePublicKey id cycle)
    (block : Block) : e'.verifyPrepareQuorum X cycle block = e.verifyPrepareQuorum X cycle block := by
  have hverify : ∀ id msg sig,
      e'.verifySignatureWithOverlap X id msg sig cycle = e.verifySignatureWithOverlap X id msg sig cycle := by
    intro id msg sig
    simp only [Engine.verifySignatureWithOverlap, hkeys]
  have hcount : ∀ ps n, e'.countVerified X cycle block ps n = e.countVerified X cycle block ps n := by
    intro ps
    induction ps with
    | nil => intro n; rfl
    | cons p ps ih =>
      intro n
      simp only [Engine.countVerified, hverify, ih]
  simp only [Engine.verifyPrepareQuorum, hpeers, hcount]

/-- **Verified history stays verified**: once the chain has a block at `c`, nothing that follows in the run changes the keys
of the cycle `c`, or the verdict on a certificate for that cycle. -/
theorem past_stays {e₀ e e' : Engine} {τ τ' : List (Transition Engine Called)} (hf : e₀.Fresh) (h : EngineRun X e₀ τ e)
    (h' : EngineRun X e τ' e') (hcycles : ∀ x ∈ τ ++ τ', BelowLimit x) {c : Nat}
    (hc : c < e.blocks.length) :
    (∀ id, e'.keyRotationValidator.getActivePublicKey id (UInt64.ofNat c) =
        e.keyRotationValidator.getActivePublicKey id (UInt64.ofNat c)) ∧
      ∀ block, e'.verifyPrepareQuorum X (UInt64.ofNat c) block = e.verifyPrepareQuorum X (UInt64.ofNat c) block := by
  have hpaced := paced_run X hf h fun x hx => hcycles x (List.mem_append_left _ hx)
  -- the invariant of the second run: the block is still there, and the keys are those of `e`
  obtain ⟨-, -, hkeys⟩ := Path.invariant (C := BelowLimit)
    (I := fun s => Paced s ∧ c < s.blocks.length ∧ ∀ id, s.keyRotationValidator.getActivePublicKey id (UInt64.ofNat c) =
      e.keyRotationValidator.getActivePublicKey id (UInt64.ofNat c))
    (fun s l s' hcycle hstep ⟨hp, hlt, hkeys⟩ => by
      refine ⟨paced_step X hcycle hstep hp, ?_, fun id => (step_past X hcycle hstep hp hlt id).trans (hkeys id)⟩
      rcases step_counter X hstep with ⟨-, hblocks⟩ | ⟨-, hblocks | ⟨b, hblocks⟩⟩
      · rwa [hblocks]
      · rwa [hblocks]
      · rw [hblocks, List.length_append]
        omega)
    h' (fun x hx => hcycles x (List.mem_append_right _ hx)) ⟨hpaced, hc, fun _ => rfl⟩
  exact ⟨hkeys, fun block => verifyPrepareQuorum_congr X (sameEngine_run X h').peers hkeys block⟩

namespace Sample

/-- A single node commits a block. -/
def founded : List (Transition Engine Called) × Engine × MemoryBus :=
  calls [.enqueue (entry 9), .runCycle] (Engine.new (node 1)) MemoryBus.new

/-- Then it rotates its key. -/
def rotated : List (Transition Engine Called) × Engine × MemoryBus :=
  calls [.submitKeyRotation (rotationTo 1 1 5 20 40), .runCycle] founded.2.1 founded.2.2

/-- The rotation is recorded, and the counters stay small. -/
def rotatedRecord : Computed (founded, rotated) fun x =>
    (∀ y ∈ x.1.1 ++ x.2.1, BelowLimit y) ∧ (x.2.2.1.rotations (Arr.copy 16 [1])).length = 1 ∧
      0 < x.1.2.1.blocks.length :=
  computed _ (by
    unfold BelowLimit
    decide +kernel)

/-- The rotation is recorded, and the verdict on the first block is what it was. -/
theorem rotated_past : (rotated.2.1.rotations (Arr.copy 16 [1])).length = 1 ∧
    ∀ block, rotated.2.1.verifyPrepareQuorum prims 0 block = founded.2.1.verifyPrepareQuorum prims 0 block := by
  obtain ⟨_, rfl, hcycles, hone, hblocks⟩ := rotatedRecord
  exact ⟨hone, (past_stays prims (.inl ⟨_, rfl⟩) (run_calls _ _ _) (run_calls _ _ _) hcycles hblocks).2⟩

end Sample

end Gleipnir
