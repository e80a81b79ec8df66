import Gleipnir.Consensus.Origin
import Gleipnir.Sample

/-!
# The key history in a cycle

A cycle admits the rotations of its batch into the key history before its phases run (`admitted_ready`), and no failure takes
them back (`cycle_keys`). So a rotation has authority as soon as a cycle has seen it in a pool.
-/

namespace Gleipnir

open Atomic Atomic.Body

variable (X : Prims)

/-- The rotations recorded for a validator. -/
abbrev Engine.rotations (e : Engine) (id : RootID) : List KeyRotationEntry := e.keyRotationValidator.rotations id

/-- A block of the chain anchors the rotation. -/
def Engine.Anchors (e : Engine) (r : KeyRotationEntry) : Prop := ∃ b ∈ e.blocks, r.hash ∈ b.anchored.map (·.hash)

/-- The key history is that of the validator set. -/
def Engine.Aligned (e : Engine) : Prop := e.keyRotationValidator.validators = validatorKeys e.state.validatorSet

/-- The rotations registered with an engine are filed under their own hashes. -/
def Engine.BodiesFiled (e : Engine) : Prop := ∀ hash r, e.keyRotationBodies hash = some r → r.hash = hash

/-! ## The key history in a cycle -/

/-- An entry of the batch changes the history at most by the rotation that is registered under its hash. -/
theorem processKeyRotation_cases (e : Engine) (pe : ProvenanceEntry) :
    e.processKeyRotation X pe = e ∨ ∃ r before after, pe.label = keyRotationLabel ∧
      e.keyRotationBodies pe.hash = some r ∧ e.rotations r.submitter = before ++ after ∧
      e.processKeyRotation X pe = { e with keyRotationValidator := { e.keyRotationValidator with
        rotations := Function.update e.keyRotationValidator.rotations r.submitter (before ++ r :: after) } } := by
  unfold Engine.processKeyRotation
  split
  · exact .inl rfl
  · next hlabel =>
    split
    · exact .inl rfl
    · next r hbody =>
      split
      · exact .inl rfl
      · next v hok =>
        obtain ⟨before, after, hsplit, rfl⟩ :=
          KeyRotationValidator.recordRotation_ok (KeyRotationValidator.validateAndRecord_ok X hok)
        exact .inr ⟨r, before, after, not_not.1 hlabel, hbody, hsplit, rfl⟩

/-- What the rotations of a batch leave of an engine; a new rotation comes from an entry of the batch. -/
structure Admitted (batch : List ProvenanceEntry) (e e' : Engine) : Prop where
  validators : e'.keyRotationValidator.validators = e.keyRotationValidator.validators
  bodies : e'.keyRotationBodies = e.keyRotationBodies
  rotations : ∀ id, ∀ r ∈ e'.rotations id, r ∈ e.rotations id ∨
    ∃ pe ∈ batch, pe.label = keyRotationLabel ∧ e.keyRotationBodies pe.hash = some r

theorem admitted_processKeyRotation (e : Engine) (pe : ProvenanceEntry) : Admitted [pe] e (e.processKeyRotation X pe) := by
  rcases processKeyRotation_cases X e pe with h | ⟨r, before, after, hlabel, hbody, hsplit, h⟩
  · rw [h]
    exact ⟨rfl, rfl, fun _ _ => .inl⟩
  · rw [h]
    refine ⟨rfl, rfl, fun id r' hr' => ?_⟩
    by_cases hid : id = r.submitter
    · simp only [Engine.rotations, hid, Function.update_self, List.mem_append, List.mem_cons] at hr'
      rcases hr' with hr' | rfl | hr'
      · exact .inl (by rw [hid, hsplit]; simp [hr'])
      · exact .inr ⟨pe, List.mem_singleton.2 rfl, hlabel, hbody⟩
      · exact .inl (by rw [hid, hsplit]; simp [hr'])
    · left
      simpa only [Engine.rotations, Function.update_of_ne hid] using hr'

theorem admitted_processKeyRotationEntries (batch : List ProvenanceEntry) : ∀ e : Engine,
    Admitted batch e (e.processKeyRotationEntries X batch) := by
  induction batch with
  | nil => exact fun e => ⟨rfl, rfl, fun _ _ => .inl⟩
  | cons pe batch ih =>
    intro e
    have h₁ := admitted_processKeyRotation X e pe
    have h₂ := ih (e.processKeyRotation X pe)
    refine ⟨h₂.validators.trans h₁.validators, h₂.bodies.trans h₁.bodies, fun id r hr => ?_⟩
    rcases h₂.rotations id r hr with hr | ⟨pe', hmem, hlabel, hbody⟩
    · rcases h₁.rotations id r hr with hr | ⟨pe', hmem, hlabel, hbody⟩
      · exact .inl hr
      · obtain rfl := List.mem_singleton.1 hmem
        exact .inr ⟨pe', List.mem_cons_self, hlabel, hbody⟩
    · exact .inr ⟨pe', List.mem_cons_of_mem _ hmem, hlabel, h₁.bodies ▸ hbody⟩

/-- Before the phases of a cycle the key history is aligned with the validator set and the rotations of the batch are in. -/
theorem admitted_ready (e : Engine) (pool : List ProvenanceEntry) :
    Admitted (e.start pool).allPending e.syncKeyRotationState (e.ready X pool) := by
  obtain ⟨r, hr⟩ := Engine.processMandateEntries_eq X (e.start pool).allPending
    ((e.start pool).processKeyRotationEntries X (e.start pool).allPending)
  obtain ⟨pending, hstart⟩ := e.start_eq pool
  have h := admitted_processKeyRotationEntries X (e.start pool).allPending (e.start pool)
  refine ⟨?_, ?_, ?_⟩
  · rw [Engine.ready, Engine.admitBatch, hr]
    exact h.validators.trans (by rw [hstart]; rfl)
  · rw [Engine.ready, Engine.admitBatch, hr]
    exact h.bodies.trans (by rw [hstart]; rfl)
  · intro id r' hr'
    rw [Engine.ready, Engine.admitBatch, hr] at hr'
    have hcases := h.rotations id r' hr'
    rw [hstart] at hcases
    rw [hstart]
    exact hcases

/-- However a cycle ends, its rotations are those from before the phases. -/
theorem cycle_keys {e e' : Engine} {t : Trace} {x : Exit Unit} (h : Cycled X e t x e') :
    ∃ pool, e.ingestTrace pool <+: t ∧ e'.keyRotationValidator = (e.ready X pool).keyRotationValidator ∧
      e'.keyRotationBodies = (e.ready X pool).keyRotationBodies := by
  cases h with
  | @skipped pool hs =>
    refine ⟨pool, List.prefix_rfl, ?_⟩
    rw [Engine.ready, Engine.admitBatch, hs.1]
    exact ⟨rfl, rfl⟩
  | @panicked pool _ _ hs hp =>
    obtain ⟨st, rfl⟩ := phases_frame X hp
    exact ⟨pool, List.prefix_append _ _, rfl, rfl⟩
  | @aborted pool _ _ hs hp =>
    obtain ⟨st, rfl⟩ := phases_frame X hp
    exact ⟨pool, List.prefix_append _ _, rfl, rfl⟩
  | @failed pool _ _ _ _ hs hp hc =>
    rw [conclude_none hc]
    obtain ⟨st, rfl⟩ := phases_frame X hp
    exact ⟨pool, List.prefix_append _ _, rfl, rfl⟩
  | @committed pool _ _ _ _ _ hs hp hc =>
    obtain ⟨next, -, -, hpost⟩ := conclude_some hc
    rw [hpost]
    obtain ⟨st, rfl⟩ := phases_frame X hp
    exact ⟨pool, List.prefix_append _ _, rfl, rfl⟩

/-! ## Authority -/

/-- Every recorded rotation is anchored in the chain. -/
structure Authorised (e : Engine) : Prop where
  aligned : e.Aligned
  filed : e.BodiesFiled
  anchored : ∀ id, ∀ r ∈ e.rotations id, e.Anchors r

theorem authorised_fresh {e : Engine} (hf : e.Fresh) (hp : e.peers ≠ []) : Authorised e := by
  rcases hf with ⟨node, rfl⟩ | ⟨node, hasGossip, peers, rfl⟩
  · refine ⟨rfl, fun hash r hr => ?_, fun id r hr => ?_⟩
    · cases hr
    · cases hr
  · have hpeers : peers ≠ [] := hp
    refine ⟨?_, fun hash r hr => ?_, fun id r hr => ?_⟩
    · simp only [Engine.Aligned, Engine.newWithPeers, if_neg hpeers]
      rfl
    · cases hr
    · simp only [Engine.rotations, Engine.newWithPeers, if_neg hpeers] at hr
      cases hr

theorem kept_authorised {e e' : Engine} (h : Kept e e') (ha : Authorised e) : Authorised e' := by
  have hrot : e'.keyRotationValidator.rotations = e.keyRotationValidator.rotations := by
    rcases h.keys with hk | hk <;> rw [hk]
    rfl
  refine ⟨?_, fun hash r hr => ?_, fun id r hr => ?_⟩
  · rw [Engine.Aligned, h.state]
    rcases h.keys with hk | hk <;> rw [hk]
    · exact ha.aligned
    · rfl
  · rcases h.bodies hash r hr with hr | hr
    · exact ha.filed hash r hr
    · exact hr
  · rw [Engine.rotations, hrot] at hr
    rw [Engine.Anchors, h.blocks]
    exact ha.anchored id r hr

namespace Sample

/-- A rotation of the validator `k` to the key that starts with `5`, from the tenth cycle on. -/
def rotation (k : UInt8) : KeyRotationEntry :=
  let draft : KeyRotationEntry := {
    hash := Arr.zero 32
    submitter := Arr.copy 16 [k]
    timestamp := 1
    label := keyRotationLabel
    newPublicKey := Arr.copy 1952 [5]
    newVRFPublicKey := Arr.copy 32 [5]
    effectiveCycle := 10
    expiryCycle := 30
    signatureOld := []
    signatureNew := [] }
  let payload := (draft.payloadBytes prims).getD []
  { draft with hash := draft.computeHash prims, signatureOld := stamp k payload, signatureNew := stamp 5 payload }

/-- A single node that submits a rotation and commits it. -/
def soloRotation : List (Transition Engine Called) × Engine × MemoryBus :=
  calls [.submitKeyRotation (rotation 1), .runCycle] (Engine.new (node 1)) MemoryBus.new

end Sample

end Gleipnir
