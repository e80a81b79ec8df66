import Gleipnir.Consensus.OwnKey

/-!
# The key behind a mandate

`SubmitMandate` and `RecordMandateBody` look the key of a mandate's authority up in the validator set, where the registered
key stands and no rotation is seen. `mandate_authority_iff`: a mandate that passes is signed by an active key exactly as long
as the registered key has not been retired.
-/

namespace Gleipnir

open Atomic Atomic.Body KeyRotationValidator

variable (X : Prims)

/-! ## The authority check -/

theorem validateMandateAuthority_ok_iff {m : MandateEntry} {lookup : RootID → Option (Arr 1952)} :
    validateMandateAuthority X m lookup = .ok () ↔ m.verifyHash X = true ∧
      ∃ pk, lookup m.authority = some pk ∧ m.verifyAuthoritySignature X pk = true := by
  have hlen : ∀ pk, m.verifyAuthoritySignature X pk = true → m.signature.length = dilithium3SignatureSize := by
    intro pk h
    by_contra hne
    simp [MandateEntry.verifyAuthoritySignature, hne] at h
  unfold validateMandateAuthority
  by_cases hhash : m.verifyHash X = true
  · by_cases hsize : m.signature.length = dilithium3SignatureSize
    · cases lookup m.authority with
      | none => simp [hhash, hsize]
      | some pk => simp [hhash, hsize]
    · have hnone : ∀ pk, m.verifyAuthoritySignature X pk ≠ true := fun pk h => hsize (hlen pk h)
      simp [hhash, hsize, hnone]
  · simp [hhash]

theorem mandateAuthorityLookup_validator {e : Engine} {id : RootID} {v : ValidatorInfo}
    (h : e.state.validatorSet.find? (fun v => v.validatorID == id) = some v) :
    e.mandateAuthorityLookup id = some v.dilithium3PK := by
  rw [Engine.mandateAuthorityLookup, h]

/-- **The two calls**: a mandate that passes the check is registered, and any other leaves the engine alone. -/
theorem mandate_step {e e' : Engine} {l : Called} {m : MandateEntry}
    (hc : l.call = .submitMandate m ∨ l.call = .recordMandateBody m) (h : EngineStep X e l e') :
    (validateMandateAuthority X m e.mandateAuthorityLookup = .ok () ∧ Queued (e.keepMandate X m) e') ∨
      ∃ err, validateMandateAuthority X m e.mandateAuthorityLookup = .error err ∧ e' = e := by
  obtain ⟨⟨x, s⟩, rfl, hrun⟩ := run_map.1 h
  rcases hc with hc | hc
  · rw [hc] at hrun
    obtain ⟨y, hy⟩ := runs_ignore hrun
    obtain ⟨hok, henqueue⟩ | ⟨err, herr, -, -, rfl⟩ := runs_submitMandate X hy
    · exact .inl ⟨hok, (within_enqueue _ _ _ _ _ henqueue).1⟩
    · exact .inr ⟨err, herr, rfl⟩
  · rw [hc] at hrun
    obtain ⟨y, hy⟩ := runs_ignore hrun
    obtain ⟨-, ⟨hok, rfl⟩ | ⟨err, herr, rfl⟩⟩ := runs_recordMandateBody X hy
    · exact .inl ⟨hok, refl _⟩
    · exact .inr ⟨err, herr, rfl⟩

/-! ## The keys of an authority -/

theorem aligned_fresh {e : Engine} (hf : e.Fresh) (hset : e.state.validatorSet ≠ []) : e.Aligned := by
  rcases hf with ⟨node, rfl⟩ | ⟨node, hasGossip, peers, rfl⟩
  · rfl
  · have hpeers : peers ≠ [] := fun hnil => hset (by rw [hnil]; rfl)
    simp only [Engine.Aligned, Engine.newWithPeers, if_neg hpeers]
    rfl

/-- **The key history speaks of the validator set**, in every state of a run. -/
theorem aligned_run {e e' : Engine} {τ : List (Transition Engine Called)} (hf : e.Fresh) (h : EngineRun X e τ e')
    (hset : e'.state.validatorSet ≠ []) : e'.Aligned := by
  have hsame := (sameEngine_run X h).validatorSet
  refine h.preserves ?_ (aligned_fresh hf (hsame ▸ hset))
  intro s l s' hstep haligned
  have hset' := (sameEngine_step X hstep).validatorSet
  rcases step_keys X hstep with ⟨hkeys, -⟩ | ⟨rs, hkeys⟩
  · rw [Engine.Aligned, hkeys, hset']
    exact haligned
  · rw [Engine.Aligned, hkeys, hset', recordAll, validators_run]
    rfl

/-- The mandate is signed by a key that is active for its authority in the current cycle of the engine. -/
def Engine.SignedByActive (e : Engine) (m : MandateEntry) : Prop :=
  ∃ keys, e.keyRotationValidator.getActivePublicKey m.authority e.state.cycle = some keys ∧
    ∃ pk ∈ keys, m.verifyAuthoritySignature X pk = true

/-- **Mandates and rotations.** In every state of a run: a mandate of a validator that passes the authority check is
registered by the call, and is signed by an active key exactly if the key of the validator's record is not retired. -/
theorem mandate_authority_iff {e₀ e e' : Engine} {τ : List (Transition Engine Called)} (hf : e₀.Fresh)
    (h : EngineRun X e₀ τ e) {m : MandateEntry} {v : ValidatorInfo} {registered : Arr 1952}
    (hv : e.state.validatorSet.find? (fun v => v.validatorID == m.authority) = some v)
    (hreg : (validatorKeys e.state.validatorSet).lookup m.authority = some registered)
    (hother : ∀ pk ∈ registered :: (e.rotations m.authority).map (·.newPublicKey),
      m.verifyAuthoritySignature X pk = true → pk = v.dilithium3PK)
    {l : Called} (hc : l.call = .submitMandate m ∨ l.call = .recordMandateBody m) (hstep : EngineStep X e l e')
    (hpass : validateMandateAuthority X m e.mandateAuthorityLookup = .ok ()) :
    e'.mandateBodies m.id = some m ∧
      (e.SignedByActive X m ↔ Unretired registered v.dilithium3PK (e.rotations m.authority) e.state.cycle) := by
  have hset : e.state.validatorSet ≠ [] := fun hnil => by simp [hnil] at hv
  have hlookup : e.keyRotationValidator.validators.lookup m.authority = some registered := by
    rw [aligned_run X hf h hset]
    exact hreg
  obtain ⟨hasc, -⟩ := history_run X h (paced_fresh hf).ascending
  obtain ⟨-, pk, hpk, hverify⟩ := (validateMandateAuthority_ok_iff X).1 hpass
  obtain rfl : pk = v.dilithium3PK := Option.some.inj (hpk.symm.trans (mandateAuthorityLookup_validator hv))
  refine ⟨?_, ?_⟩
  · rcases mandate_step X hc hstep with ⟨-, pending, rateLimiter, rfl⟩ | ⟨err, herr, -⟩
    · simp [Engine.keepMandate]
    · rw [hpass] at herr
      cases herr
  · rw [Engine.SignedByActive, unretired_iff (hasc _)]
    simp only [getActivePublicKey, hlookup, Option.map_some, Option.some.injEq, exists_eq_left']
    constructor
    · -- of the keys that count, only that of the record verifies
      rintro ⟨pk, hmem, hpk⟩
      have hknown : pk ∈ registered :: (e.rotations m.authority).map (·.newPublicKey) := by
        rcases mem_keysFrom hmem with rfl | ⟨r, hr, -, rfl⟩
        · exact List.mem_cons_self
        · exact List.mem_cons_of_mem _ (List.mem_map_of_mem hr)
      rwa [← hother pk hknown hpk]
    · exact fun hcounts => ⟨_, hcounts, hverify⟩

namespace Sample

/-- A mandate of the first validator, signed by the key that starts with `1`. -/
def mandate : MandateEntry :=
  let draft : MandateEntry := {
    id := Arr.zero 32
    authority := Arr.copy 16 [1]
    version := 1
    prevVersion := Arr.zero 32
    validFrom := 1
    validUntil := 0
    supersedes := Arr.zero 32
    rules := []
    policyHash := Arr.zero 32
    policyURI := []
    signature := [] }
  { draft with id := draft.mandateID prims, signature := stamp 1 ((draft.marshalPayloadCBOR prims).getD []) }

/-- The mandate is well formed; its signature verifies under the first key only. -/
def mandateSigned : Computed mandate fun m => m.verifyHash prims = true ∧
    m.verifyAuthoritySignature prims (info 1).dilithium3PK = true ∧
    m.verifyAuthoritySignature prims (Arr.copy 1952 [5]) = false :=
  computed _ (by decide +kernel)

theorem mandate_foreign : mandate.verifyAuthoritySignature prims (Arr.copy 1952 [5]) = false := by
  obtain ⟨_, rfl, -, -, hforeign⟩ := mandateSigned
  exact hforeign

/-- The record of its authority, in every state of the validator. -/
theorem mandate_record {τ : List (Transition Engine Called)} {e : Engine} (h : EngineRun prims alone τ e) :
    e.state.validatorSet.find? (fun v => v.validatorID == mandate.authority) = some (info 1) := by
  rw [(sameEngine_run prims h).validatorSet]
  rfl

theorem mandate_passes {τ : List (Transition Engine Called)} {e : Engine} (h : EngineRun prims alone τ e) :
    validateMandateAuthority prims mandate e.mandateAuthorityLookup = .ok () := by
  obtain ⟨_, rfl, hhash, hsigned, -⟩ := mandateSigned
  exact (validateMandateAuthority_ok_iff prims).2 ⟨hhash, _, mandateAuthorityLookup_validator (mandate_record h), hsigned⟩

/-- While the rotation is only announced, the mandate is signed by an active key. -/
theorem announced_mandate :
    (serveOn announced.2.2 ((Call.submitMandate mandate).prog prims announced.2.1)).1.mandateBodies mandate.id =
        some mandate ∧ announced.2.1.SignedByActive prims mandate := by
  have hfresh : alone.Fresh := .inr ⟨_, _, _, rfl⟩
  have hid : mandate.authority = alone.node.uid.rootID := rfl
  have hreg : (validatorKeys announced.2.1.state.validatorSet).lookup mandate.authority = some (info 1).dilithium3PK := by
    rw [(sameEngine_run prims run_announced).validatorSet, hid]
    exact registered_alone
  have hother : ∀ pk ∈ (info 1).dilithium3PK :: (announced.2.1.rotations mandate.authority).map (·.newPublicKey),
      mandate.verifyAuthoritySignature prims pk = true → pk = (info 1).dilithium3PK := by
    intro pk hpk hverify
    rw [hid, announced_keys, List.mem_cons, List.mem_singleton] at hpk
    rcases hpk with rfl | rfl
    · rfl
    · rw [mandate_foreign] at hverify
      cases hverify
  have hopen : closedRotations announced.2.1.state.cycle (announced.2.1.rotations mandate.authority) = [] := by
    obtain ⟨_, hx, -, -, hopen⟩ := announcedOpen
    rwa [hid, ← hx]
  obtain ⟨hkept, hactive⟩ := mandate_authority_iff prims hfresh run_announced (mandate_record run_announced) hreg hother
    (.inl rfl) (step_serveOn (.submitMandate mandate) announced.2.1 announced.2.2) (mandate_passes run_announced)
  exact ⟨hkept, hactive.2 (unretired_of_none_closed hopen _)⟩

/-- The validator tries twenty-one cycles more, without any entries. -/
def overdue : List (Transition Engine Called) × Engine × MemoryBus :=
  calls (List.replicate 21 .runCycle) announced.2.1 announced.2.2

theorem run_overdue : EngineRun prims alone (announced.1 ++ overdue.1) overdue.2.1 := by
  refine run_announced.append ?_
  unfold overdue
  exact run_calls _ _ _

/-- The window of the rotation has closed. -/
def overdueKeys : Computed overdue fun x =>
    x.2.1.keyRotationValidator.getActivePublicKey mandate.authority x.2.1.state.cycle = some [Arr.copy 1952 [5]] :=
  computed _ (by decide +kernel)

/-- The window of the rotation has closed, and the old key still issues mandates. -/
theorem retired_issues : ∃ e₀ τ e l e' m v, e₀.Fresh ∧ EngineRun prims e₀ τ e ∧
    e.state.validatorSet.find? (fun v => v.validatorID == m.authority) = some v ∧ l.call = .submitMandate m ∧
    EngineStep prims e l e' ∧ validateMandateAuthority prims m e.mandateAuthorityLookup = .ok () ∧
    e'.mandateBodies m.id = some m ∧ ¬ e.SignedByActive prims m := by
  have hfresh : alone.Fresh := .inr ⟨_, _, _, rfl⟩
  have hrun := run_overdue
  obtain ⟨x, hx, hkeys⟩ := overdueKeys
  rw [← hx] at hrun
  have hpass := mandate_passes hrun
  have hstep := step_serveOn (.submitMandate mandate) x.2.1 x.2.2
  refine ⟨alone, _, x.2.1, _, _, mandate, info 1, hfresh, hrun, mandate_record hrun, rfl, hstep, hpass, ?_, ?_⟩
  · rcases mandate_step prims (.inl rfl) hstep with ⟨-, pending, limiter, hpost⟩ | ⟨err, herr, -⟩
    · rw [hpost]
      simp [Engine.keepMandate]
    · rw [hpass] at herr
      cases herr
  · rintro ⟨keys, hactive, pk, hpk, hverify⟩
    obtain rfl := Option.some.inj (hkeys.symm.trans hactive)
    rw [List.mem_singleton.1 hpk, mandate_foreign] at hverify
    cases hverify

end Sample

end Gleipnir
