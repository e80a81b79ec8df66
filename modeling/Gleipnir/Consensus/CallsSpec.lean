import Gleipnir.Consensus.CycleSpec

/-!
# What a run does to an engine

* `call_within`: the calls besides `RunCycle` leave the core of an engine alone (`Kept`) and only read the clock and
  publish entries.
* `sameEngine_run`: a run never changes the node, the channel, the peers and the validators.
-/

namespace Gleipnir

open Atomic Atomic.Body

variable (X : Prims)

/-! ## Submissions and settings -/

/-- What the calls besides `RunCycle` leave of an engine. The key history is at most realigned with the validator set. -/
structure Kept (e e' : Engine) : Prop where
  node : e'.node = e.node
  state : e'.state = e.state
  st : e'.st = e.st
  blocks : e'.blocks = e.blocks
  hasGossip : e'.hasGossip = e.hasGossip
  peers : e'.peers = e.peers
  keys : e'.keyRotationValidator = e.keyRotationValidator ∨
    e'.keyRotationValidator = e.syncKeyRotationState.keyRotationValidator
  bodies : ∀ hash r, e'.keyRotationBodies hash = some r → e.keyRotationBodies hash = some r ∨ r.hash = hash

/-- The fields that `Kept` speaks of. -/
def Engine.core (e : Engine) :=
  (e.node, e.state, e.st, e.blocks, e.hasGossip, e.peers, e.keyRotationValidator, e.keyRotationBodies)

variable {e e' : Engine} {mandate : MandateEntry} {t : Trace} {x : Exit (Except CallError Unit)} {hash : Hash}
  {submitter : RootID} {label : String} {entry : ProvenanceEntry}

theorem kept_of_core (h : e'.core = e.core) : Kept e e' := by
  simp only [Engine.core, Prod.mk.injEq] at h
  obtain ⟨hnode, hstate, hst, hblocks, hgossip, hpeers, hkeys, hbodies⟩ := h
  exact ⟨hnode, hstate, hst, hblocks, hgossip, hpeers, .inl hkeys, fun hash r hr => .inl (hbodies ▸ hr)⟩

instance : Std.Refl Kept := ⟨fun _ => kept_of_core rfl⟩

instance : IsTrans Engine Kept := by
  refine ⟨fun a b c h h' => ⟨h'.node.trans h.node, h'.state.trans h.state, h'.st.trans h.st, h'.blocks.trans h.blocks,
    h'.hasGossip.trans h.hasGossip, h'.peers.trans h.peers, ?_, ?_⟩⟩
  · rcases h'.keys with hk' | hk'
    · rw [hk']
      exact h.keys
    · -- realigning twice is realigning once
      right
      rw [hk']
      simp only [Engine.syncKeyRotationState, h.state]
      rcases h.keys with hk | hk
      · rw [hk]
      · rw [hk]
        rfl
  · intro hash r hr
    rcases h'.bodies hash r hr with hb | hr
    · exact h.bodies hash r hb
    · exact .inr hr

/-- The calls of a submission. -/
def Op.submitting : Op → Bool
  | .now | .publish _ => true
  | _ => false

/-- Nothing but the queue and its limiter differ. -/
def Queued (e e' : Engine) : Prop := ∃ pending rateLimiter, e' = { e with pending, rateLimiter }

instance : Std.Refl Queued := ⟨fun e => ⟨e.pending, e.rateLimiter, rfl⟩⟩

instance : IsTrans Engine Queued := by
  refine ⟨?_⟩
  rintro a _ _ ⟨_, _, rfl⟩ ⟨pending, rateLimiter, rfl⟩
  exact ⟨pending, rateLimiter, rfl⟩

theorem Queued.kept : Queued e e' → Kept e e' := by
  rintro ⟨_, _, rfl⟩
  exact kept_of_core rfl

theorem within_takeSlot (submitter : RootID) : Within Queued (fun ev => ev.op.submitting) True (takeSlot submitter) :=
  within_bind within_get fun _ => within_ite (within_pure _) <|
    within_bind (within_perform fun _ => rfl) fun _ =>
      within_bind (within_modify fun e => ⟨e.pending, _, rfl⟩) fun _ => within_pure _

theorem within_enqueue (entry : ProvenanceEntry) : Within Queued (fun ev => ev.op.submitting) True (enqueue entry) := by
  refine within_bind within_get fun e => within_ite (within_pure _) ?_
  split
  · exact within_pure _
  · split
    · exact within_pure _
    · refine within_bind (within_takeSlot _) fun r => ?_
      cases r with
      | error err => exact within_pure _
      | ok _ =>
        refine within_bind (within_modify fun e => ⟨_, e.rateLimiter, rfl⟩) fun _ => ?_
        exact within_ite (within_bind (within_perform fun _ => rfl) fun _ => within_pure _) (within_pure _)

theorem within_submit (hash : Hash) (submitter : RootID) (label : String) :
    Within Queued (fun ev => ev.op.submitting) True (submit hash submitter label) := by
  refine within_bind within_get fun e => within_ite (within_pure _) ?_
  split
  · exact within_pure _
  · refine within_bind (within_takeSlot _) fun r => ?_
    cases r with
    | error err => exact within_pure _
    | ok _ =>
      exact within_bind (within_perform fun _ => rfl) fun _ =>
        within_bind (within_modify fun e => ⟨_, e.rateLimiter, rfl⟩) fun _ => within_pure _

theorem kept_sync (e : Engine) : Kept e e.syncKeyRotationState :=
  ⟨rfl, rfl, rfl, rfl, rfl, rfl, .inr rfl, fun _ _ => .inl⟩

theorem kept_keepRotationBody (e : Engine) (entry : KeyRotationEntry) : Kept e (e.keepRotationBody entry) := by
  refine ⟨rfl, rfl, rfl, rfl, rfl, rfl, .inl rfl, fun hash r hr => ?_⟩
  by_cases hh : hash = entry.hash
  · right
    simp only [Engine.keepRotationBody, hh, Function.update_self, Option.some.injEq] at hr
    rw [hh, hr]
  · left
    simpa only [Engine.keepRotationBody, Function.update_of_ne hh] using hr

theorem kept_setQuorumConfig (config : QuorumConfig) (e : Engine) : Kept e (e.setQuorumConfig config) := by
  unfold Engine.setQuorumConfig
  split
  · exact kept_of_core rfl
  · exact refl e

/-- The ways in which `RecordMandateBody` ends. -/
theorem runs_recordMandateBody (h : Runs (recordMandateBody X mandate) e t x e') :
    t = [] ∧ ((validateMandateAuthority X mandate e.mandateAuthorityLookup = .ok () ∧ e' = e.keepMandate X mandate) ∨
      ∃ err, validateMandateAuthority X mandate e.mandateAuthorityLookup = .error err ∧ e' = e) := by
  unfold recordMandateBody at h
  rw [runs_get_bind] at h
  cases hcheck : validateMandateAuthority X mandate e.mandateAuthorityLookup with
  | error err =>
    simp only [hcheck] at h
    obtain ⟨rfl, -, rfl⟩ := runs_pure.1 h
    exact ⟨rfl, .inr ⟨err, rfl, rfl⟩⟩
  | ok _ =>
    simp only [hcheck, runs_modify_bind] at h
    obtain ⟨rfl, -, rfl⟩ := runs_pure.1 h
    exact ⟨rfl, .inl ⟨rfl, rfl⟩⟩

/-- The entry that `SubmitMandate` queues. -/
def MandateEntry.anchorEntry (mandate : MandateEntry) : ProvenanceEntry :=
  { hash := mandate.id, submitter := mandate.authority, timestamp := mandate.validFrom, label := mandateLabel
    mandateRef := some mandate.id }

/-- The ways in which `SubmitMandate` ends: what passes the check is kept, and an entry for it is queued. -/
theorem runs_submitMandate (h : Runs (submitMandate X mandate) e t x e') :
    (validateMandateAuthority X mandate e.mandateAuthorityLookup = .ok () ∧
      Runs (enqueue mandate.anchorEntry) (e.keepMandate X mandate) t x e') ∨
    ∃ err, validateMandateAuthority X mandate e.mandateAuthorityLookup = .error err ∧ t = [] ∧
      x = .done (.error (.mandate err)) ∧ e' = e := by
  unfold submitMandate at h
  rw [runs_get_bind] at h
  cases hcheck : validateMandateAuthority X mandate e.mandateAuthorityLookup with
  | error err =>
    simp only [hcheck] at h
    obtain ⟨rfl, rfl, rfl⟩ := runs_pure.1 h
    exact .inr ⟨err, rfl, rfl, rfl, rfl⟩
  | ok _ =>
    simp only [hcheck, runs_modify_bind] at h
    exact .inl ⟨rfl, h⟩

/-- The changes that the calls besides `RunCycle` make to an engine all go along `R`. -/
structure Moves (R : Engine → Engine → Prop) : Prop where
  queued : ∀ e e', Queued e e' → R e e'
  sync : ∀ e, R e e.syncKeyRotationState
  rotation : ∀ e entry, R e (e.keepRotationBody entry)
  mandate : ∀ e m, validateMandateAuthority X m e.mandateAuthorityLookup = .ok () → R e (e.keepMandate X m)
  limits : ∀ e cfg, R e (e.setAPILimits cfg)
  quorum : ∀ e config, R e (e.setQuorumConfig config)
  stopped : ∀ e : Engine, R e { e with stopped := true }

theorem moves_kept : Moves X Kept where
  queued _ _ := Queued.kept
  sync := kept_sync
  rotation := kept_keepRotationBody
  mandate _ _ _ := kept_of_core rfl
  limits _ _ := kept_of_core rfl
  quorum e config := kept_setQuorumConfig config e
  stopped _ := kept_of_core rfl

namespace Moves

variable {X} {R : Engine → Engine → Prop} [Std.Refl R] (hR : Moves X R)
include hR

/-- A mandate is kept by the engine in which its authority was checked. -/
theorem recordMandateBody (mandate : MandateEntry) :
    Within R (fun ev => ev.op.submitting) True (Gleipnir.recordMandateBody X mandate) := by
  intro e t x e' h
  obtain ⟨rfl, ⟨hok, rfl⟩ | ⟨err, -, rfl⟩⟩ := runs_recordMandateBody X h
  · exact ⟨hR.mandate e mandate hok, by simp⟩
  · exact ⟨refl _, by simp⟩

variable [IsTrans Engine R]

theorem submitKeyRotation (entry : KeyRotationEntry) :
    Within R (fun ev => ev.op.submitting) True (Gleipnir.submitKeyRotation X entry) := by
  refine within_bind (within_modify hR.sync) fun _ => within_bind within_get fun e => ?_
  split
  · exact within_pure _
  · exact within_bind (within_modify fun e => hR.rotation e entry) fun _ =>
      (within_enqueue _).mono hR.queued

theorem rotateKey (newPublicKey : Arr 1952) (newVRFPublicKey : Arr 32) (sigNew : Bytes)
    (effectiveCycle expiryCycle : UInt64) : Within R (fun ev => ev.op.submitting) True
      (Gleipnir.rotateKey X newPublicKey newVRFPublicKey sigNew effectiveCycle expiryCycle) := by
  refine within_bind within_get fun e => within_bind (within_perform fun _ => rfl) fun now => ?_
  split
  · exact within_pure _
  · exact within_bind (hR.submitKeyRotation _) fun _ => within_pure _

theorem submitMandate (mandate : MandateEntry) :
    Within R (fun ev => ev.op.submitting) True (Gleipnir.submitMandate X mandate) := by
  intro e t x e' h
  obtain ⟨hok, henqueue⟩ | ⟨err, -, rfl, -, rfl⟩ := runs_submitMandate X h
  · obtain ⟨hmove, hcalls⟩ := (within_enqueue _).mono hR.queued _ _ _ _ henqueue
    exact ⟨Trans.trans (hR.mandate e mandate hok) hmove, hcalls⟩
  · exact ⟨refl _, by simp⟩

/-- **The calls besides `RunCycle`** move the engine along `R`, read the clock and publish entries. -/
theorem call {c : Call} (hc : c ≠ .runCycle) : Within R (fun ev => ev.op.submitting) True (c.body X) := by
  cases c with
  | enqueue entry => exact within_bind ((within_enqueue entry).mono hR.queued) fun _ => within_pure _
  | submit hash submitter label =>
    exact within_bind ((within_submit hash submitter label).mono hR.queued) fun _ => within_pure _
  | submitKeyRotation entry => exact within_bind (hR.submitKeyRotation entry) fun _ => within_pure _
  | rotateKey newPublicKey newVRFPublicKey sigNew effectiveCycle expiryCycle =>
    exact within_bind (hR.rotateKey _ _ _ _ _) fun _ => within_pure _
  | recordRotationBody entry =>
    exact within_bind (within_ite (within_bind (within_modify fun e => hR.rotation e entry)
      fun _ => within_pure _) (within_pure _)) fun _ => within_pure _
  | submitMandate mandate => exact within_bind (hR.submitMandate mandate) fun _ => within_pure _
  | recordMandateBody mandate => exact within_bind (hR.recordMandateBody mandate) fun _ => within_pure _
  | setAPILimits cfg => exact within_modify fun e => hR.limits e cfg
  | setQuorumConfig config => exact within_modify fun e => hR.quorum e config
  | syncKeyRotationState => exact within_modify hR.sync
  | stop => exact within_modify hR.stopped
  | runCycle => exact absurd rfl hc

end Moves

/-- **The calls besides `RunCycle`** keep the core of the engine, read the clock and publish entries. -/
theorem call_within {c : Call} (hc : c ≠ .runCycle) : Within Kept (fun ev => ev.op.submitting) True (c.body X) :=
  (moves_kept X).call hc

/-! ## What a call queues -/

/-- The fields that no call besides `RunCycle` changes, but for the queue. -/
def Engine.work (e : Engine) :=
  (e.node, e.state, e.cfg, e.st, e.blocks, e.pending, e.anchored, e.hasGossip, e.peers, e.degraded, e.pendingEntries)

theorem validateEntry_ok_iff {cfg : APILimits} :
    validateEntry hash submitter label cfg = .ok () ↔
      hash ≠ Arr.zero 32 ∧ submitter ≠ Arr.zero 16 ∧ label.utf8ByteSize ≤ cfg.maxLabelLen := by
  unfold validateEntry
  by_cases hhash : hash = Arr.zero 32
  · simp [hhash]
  · by_cases hsubmitter : submitter = Arr.zero 16
    · simp [hhash, hsubmitter]
    · by_cases hlabel : cfg.maxLabelLen < label.utf8ByteSize
      · simp [hhash, hsubmitter, hlabel]
      · simp [hhash, hsubmitter, hlabel, not_lt.1 hlabel]

/-- The entry passes the checks that an entry has to pass before it is queued. -/
structure Engine.Admits (e : Engine) (entry : ProvenanceEntry) : Prop where
  shape : validateEntry entry.hash entry.submitter entry.label e.limits = .ok ()
  mandate : validateEntryAgainstMandates e.mandateResolver entry entry.timestamp = .ok ()

/-- The events of a call that publishes at most the entry it queues. -/
def Announces (entry : ProvenanceEntry) (t : Trace) : Prop :=
  ∃ u v, t = u ++ v ∧ (∀ ev ∈ u, ev.op = .now) ∧ (v = [] ∨ v = [⟨.publish entry, ()⟩])

/-- What a call besides `RunCycle` leaves behind: it queues an entry that passed the checks, or none. -/
inductive Filed (e : Engine) (t : Trace) (e' : Engine) : Prop
  | nothing (hwork : e'.work = e.work) (ht : ∀ ev ∈ t, ev.op = .now)
  | queued (entry : ProvenanceEntry) (hwork : e'.work = (e.push entry).work) (hadmits : e'.Admits entry)
      (ht : Announces entry t)

/-- The chain, the records and the retained entries stay, and the queue grows by one entry at most. -/
theorem Filed.frame (h : Filed e t e') :
    e'.blocks = e.blocks ∧ e'.anchored = e.anchored ∧ e'.pendingEntries = e.pendingEntries ∧ e.pending <+: e'.pending := by
  cases h with
  | nothing hwork ht =>
    simp only [Engine.work, Prod.mk.injEq] at hwork
    obtain ⟨-, -, -, -, hblocks, hpending, hanchored, -, -, -, hretained⟩ := hwork
    exact ⟨hblocks, hanchored, hretained, by rw [hpending]⟩
  | queued entry hwork hadmits ht =>
    simp only [Engine.work, Engine.push, Prod.mk.injEq] at hwork
    obtain ⟨-, -, -, -, hblocks, hpending, hanchored, -, -, -, hretained⟩ := hwork
    exact ⟨hblocks, hanchored, hretained, by rw [hpending]; exact List.prefix_append _ _⟩

/-- The calls read the clock and publish the entry they queue. -/
theorem Filed.submitting (h : Filed e t e') : ∀ ev ∈ t, ev.op.submitting = true := by
  cases h with
  | nothing hwork ht =>
    intro ev hev
    rw [ht ev hev]
    rfl
  | queued entry hwork hadmits ht =>
    obtain ⟨u, v, rfl, hu, hv⟩ := ht
    intro ev hev
    rcases List.mem_append.1 hev with hev | hev
    · rw [hu ev hev]
      rfl
    · rcases hv with rfl | rfl
      · cases hev
      · obtain rfl := List.mem_singleton.1 hev
        rfl

/-- What comes before a submission changes nothing that the submission leaves. -/
theorem Filed.of_work {e₁ : Engine} (h : Filed e₁ t e') (hwork : e₁.work = e.work) : Filed e t e' := by
  cases h with
  | nothing h ht => exact .nothing (h.trans hwork) ht
  | queued entry h hadmits ht =>
    refine .queued entry (h.trans ?_) hadmits ht
    simp only [Engine.work, Engine.push, Prod.mk.injEq] at hwork ⊢
    obtain ⟨h₁, h₂, h₃, h₄, h₅, h₆, hrest⟩ := hwork
    exact ⟨h₁, h₂, h₃, h₄, h₅, by rw [h₆], hrest⟩

/-- Reading the clock before a submission changes nothing either. -/
theorem Filed.after_now {now : Int} (h : Filed e t e') : Filed e (⟨.now, now⟩ :: t) e' := by
  cases h with
  | nothing hwork ht => exact .nothing hwork (List.forall_mem_cons.2 ⟨rfl, ht⟩)
  | queued entry hwork hadmits ht =>
    obtain ⟨u, v, rfl, hu, hv⟩ := ht
    exact .queued entry hwork hadmits ⟨⟨.now, now⟩ :: u, v, rfl, List.forall_mem_cons.2 ⟨rfl, hu⟩, hv⟩

theorem runs_takeSlot (h : Runs (takeSlot submitter) e t x e') :
    ∃ rateLimiter r, e' = { e with rateLimiter } ∧ x = .done r ∧ ∀ ev ∈ t, ev.op = .now := by
  unfold takeSlot at h
  rw [runs_get_bind] at h
  split at h
  · obtain ⟨rfl, rfl, rfl⟩ := runs_pure.1 h
    exact ⟨_, _, rfl, rfl, by simp⟩
  · obtain ⟨now, t₁, rfl, h₁⟩ := runs_perform_bind.1 h
    rw [runs_modify_bind] at h₁
    obtain ⟨rfl, rfl, rfl⟩ := runs_pure.1 h₁
    exact ⟨_, _, rfl, rfl, by simp⟩

/-- The result of a submission: refused, or queued and, with a channel, published if `announced`. -/
inductive Submitted {α : Type} (e : Engine) (entry : ProvenanceEntry) (announced : Bool) (t : Trace) :
    Exit (Except CallError α) → Engine → Prop
  | refused (err : CallError) (rateLimiter : SubmitterLimiter) (ht : ∀ ev ∈ t, ev.op = .now) :
      Submitted e entry announced t (.done (.error err)) { e with rateLimiter }
  | accepted (a : α) (rateLimiter : SubmitterLimiter) (hadmits : e.Admits entry) {u : Trace}
      (hu : ∀ ev ∈ u, ev.op = .now)
      (ht : t = u ++ if announced && e.hasGossip then [⟨.publish entry, ()⟩] else []) :
      Submitted e entry announced t (.done (.ok a)) ({ e with rateLimiter }.push entry)

theorem Submitted.filed {α : Type} {announced : Bool} {x : Exit (Except CallError α)} (h : Submitted e entry announced t x e') :
    Filed e t e' := by
  cases h with
  | refused err rateLimiter ht => exact .nothing rfl ht
  | accepted a rateLimiter hadmits hu ht =>
    refine .queued entry rfl ⟨hadmits.shape, hadmits.mandate⟩ ⟨_, _, ht, hu, ?_⟩
    split
    · exact .inr rfl
    · exact .inl rfl

theorem runs_enqueue (h : Runs (enqueue entry) e t x e') : Submitted e entry true t x e' := by
  unfold enqueue at h
  rw [runs_get_bind] at h
  split at h
  · obtain ⟨rfl, rfl, rfl⟩ := runs_pure.1 h
    exact .refused _ e'.rateLimiter (by simp)
  · split at h
    · obtain ⟨rfl, rfl, rfl⟩ := runs_pure.1 h
      exact .refused _ e'.rateLimiter (by simp)
    · next hentry =>
      split at h
      · obtain ⟨rfl, rfl, rfl⟩ := runs_pure.1 h
        exact .refused _ e'.rateLimiter (by simp)
      · next hmandate =>
        rcases runs_bind.1 h with ⟨t₁, r, e₁, t₂, rfl, h₁, h₂⟩ | ⟨-, h₁⟩
        · obtain ⟨rateLimiter, _, rfl, hr, ht⟩ := runs_takeSlot h₁
          cases hr
          cases r with
          | error err =>
            obtain ⟨rfl, rfl, rfl⟩ := runs_pure.1 h₂
            exact .refused err rateLimiter (by simpa using ht)
          | ok _ =>
            rw [runs_modify_bind] at h₂
            split at h₂
            · next hg =>
              obtain ⟨⟨⟩, t₃, rfl, h₃⟩ := runs_perform_bind.1 h₂
              obtain ⟨rfl, rfl, rfl⟩ := runs_pure.1 h₃
              exact .accepted () rateLimiter ⟨hentry, hmandate⟩ ht (by simp [hg])
            · next hg =>
              obtain ⟨rfl, rfl, rfl⟩ := runs_pure.1 h₂
              exact .accepted () rateLimiter ⟨hentry, hmandate⟩ ht (by simp [hg])
        · obtain ⟨_, _, -, hr, -⟩ := runs_takeSlot h₁
          cases hr

/-- An entry that names no mandate passes the mandate check. -/
theorem validateEntryAgainstMandates_none {r : MandateResolver} {timestamp : Int64} (h : entry.mandateRef = none) :
    validateEntryAgainstMandates r entry timestamp = .ok () := by
  unfold validateEntryAgainstMandates
  rw [h]

theorem runs_submit {x : Exit (Except CallError UInt64)} (h : Runs (submit hash submitter label) e t x e') :
    ∃ timestamp, Submitted e { hash, submitter, timestamp, label } false t x e' := by
  unfold submit at h
  rw [runs_get_bind] at h
  split at h
  · obtain ⟨rfl, rfl, rfl⟩ := runs_pure.1 h
    exact ⟨0, .refused _ e'.rateLimiter (by simp)⟩
  · split at h
    · obtain ⟨rfl, rfl, rfl⟩ := runs_pure.1 h
      exact ⟨0, .refused _ e'.rateLimiter (by simp)⟩
    · next hentry =>
      rcases runs_bind.1 h with ⟨t₁, r, e₁, t₂, rfl, h₁, h₂⟩ | ⟨-, h₁⟩
      · obtain ⟨rateLimiter, _, rfl, hr, ht⟩ := runs_takeSlot h₁
        cases hr
        cases r with
        | error err =>
          obtain ⟨rfl, rfl, rfl⟩ := runs_pure.1 h₂
          exact ⟨0, .refused err rateLimiter (by simpa using ht)⟩
        | ok _ =>
          obtain ⟨now, t₃, rfl, h₃⟩ := runs_perform_bind.1 h₂
          rw [runs_modify_bind] at h₃
          obtain ⟨rfl, rfl, rfl⟩ := runs_pure.1 h₃
          refine ⟨Int64.ofInt now, .accepted (u := t₁ ++ [⟨.now, now⟩]) _ rateLimiter
            ⟨hentry, validateEntryAgainstMandates_none rfl⟩ (fun ev hev => ?_) (by simp)⟩
          rcases List.mem_append.1 hev with hev | hev
          · exact ht ev hev
          · obtain rfl := List.mem_singleton.1 hev
            rfl
      · obtain ⟨_, _, -, hr, -⟩ := runs_takeSlot h₁
        cases hr

theorem filed_submitKeyRotation {entry : KeyRotationEntry} (h : Runs (submitKeyRotation X entry) e t x e') : Filed e t e' := by
  unfold submitKeyRotation at h
  rw [runs_modify_bind, runs_get_bind] at h
  split at h
  · obtain ⟨rfl, rfl, rfl⟩ := runs_pure.1 h
    exact .nothing rfl (by simp)
  · rw [runs_modify_bind] at h
    exact (runs_enqueue h).filed.of_work rfl

theorem filed_submitMandate (h : Runs (submitMandate X mandate) e t x e') : Filed e t e' := by
  obtain ⟨-, henqueue⟩ | ⟨err, -, rfl, -, rfl⟩ := runs_submitMandate X h
  · exact (runs_enqueue henqueue).filed.of_work rfl
  · exact .nothing rfl (by simp)

theorem filed_rotateKey {newPublicKey : Arr 1952} {newVRFPublicKey : Arr 32} {sigNew : Bytes}
    {effectiveCycle expiryCycle : UInt64} {x : Exit (Option KeyRotationEntry × Except CallError Unit)}
    (h : Runs (rotateKey X newPublicKey newVRFPublicKey sigNew effectiveCycle expiryCycle) e t x e') : Filed e t e' := by
  unfold rotateKey at h
  rw [runs_get_bind] at h
  obtain ⟨now, t₁, rfl, h₁⟩ := runs_perform_bind.1 h
  refine Filed.after_now ?_
  split at h₁
  · obtain ⟨rfl, rfl, rfl⟩ := runs_pure.1 h₁
    exact .nothing rfl (by simp)
  · rcases runs_bind.1 h₁ with ⟨t₂, r, e₁, t₃, rfl, h₂, h₃⟩ | ⟨-, h₂⟩
    · obtain ⟨rfl, rfl, rfl⟩ := runs_pure.1 h₃
      rw [List.append_nil]
      exact filed_submitKeyRotation X h₂
    · exact filed_submitKeyRotation X h₂

/-- A call passes its result on to nobody. -/
theorem runs_ignore {α : Type} {m : EngineM α} {x : Exit Unit} (h : Runs (do let _ ← m) e t x e') : ∃ y, Runs m e t y e' := by
  rcases runs_bind.1 h with ⟨t₁, a, e₁, t₂, rfl, h₁, h₂⟩ | ⟨-, h₁⟩
  · obtain ⟨rfl, rfl, rfl⟩ := runs_pure.1 h₂
    exact ⟨_, by rwa [List.append_nil]⟩
  · exact ⟨_, h₁⟩

/-- **The calls besides `RunCycle`** queue at most one entry, which has passed the checks. -/
theorem filed_call {c : Call} (hc : c ≠ .runCycle) {x : Exit Unit} (h : Runs (c.body X) e t x e') : Filed e t e' := by
  cases c with
  | enqueue entry =>
    obtain ⟨y, h⟩ := runs_ignore h
    exact (runs_enqueue h).filed
  | submit hash submitter label =>
    obtain ⟨y, h⟩ := runs_ignore h
    obtain ⟨timestamp, h⟩ := runs_submit h
    exact h.filed
  | submitKeyRotation entry =>
    obtain ⟨y, h⟩ := runs_ignore h
    exact filed_submitKeyRotation X h
  | rotateKey newPublicKey newVRFPublicKey sigNew effectiveCycle expiryCycle =>
    obtain ⟨y, h⟩ := runs_ignore h
    exact filed_rotateKey X h
  | recordRotationBody entry =>
    obtain ⟨y, h⟩ := runs_ignore h
    unfold recordRotationBody at h
    split at h
    · rw [runs_modify_bind] at h
      obtain ⟨rfl, rfl, rfl⟩ := runs_pure.1 h
      exact .nothing rfl (by simp)
    · obtain ⟨rfl, rfl, rfl⟩ := runs_pure.1 h
      exact .nothing rfl (by simp)
  | submitMandate mandate =>
    obtain ⟨y, h⟩ := runs_ignore h
    exact filed_submitMandate X h
  | recordMandateBody mandate =>
    obtain ⟨y, h⟩ := runs_ignore h
    obtain ⟨rfl, ⟨-, rfl⟩ | ⟨err, -, rfl⟩⟩ := runs_recordMandateBody X h
    · exact .nothing rfl (by simp)
    · exact .nothing rfl (by simp)
  | setAPILimits cfg =>
    obtain ⟨rfl, rfl, rfl⟩ := runs_modify.1 h
    exact .nothing rfl (by simp)
  | setQuorumConfig config =>
    obtain ⟨rfl, rfl, rfl⟩ := runs_modify.1 h
    refine .nothing ?_ (by simp)
    unfold Engine.setQuorumConfig
    split
    · rfl
    · rfl
  | syncKeyRotationState =>
    obtain ⟨rfl, rfl, rfl⟩ := runs_modify.1 h
    exact .nothing rfl (by simp)
  | stop =>
    obtain ⟨rfl, rfl, rfl⟩ := runs_modify.1 h
    exact .nothing rfl (by simp)
  | runCycle => exact absurd rfl hc

/-! ## The identity of an engine -/

/-- The two are one engine: its node, its channel, its peers and its validators never change. -/
structure SameEngine (e e' : Engine) : Prop where
  node : e'.node = e.node
  hasGossip : e'.hasGossip = e.hasGossip
  peers : e'.peers = e.peers
  validatorSet : e'.state.validatorSet = e.state.validatorSet

theorem SameEngine.refl (e : Engine) : SameEngine e e := ⟨rfl, rfl, rfl, rfl⟩

theorem SameEngine.trans {a b c : Engine} (h : SameEngine a b) (h' : SameEngine b c) : SameEngine a c :=
  ⟨h'.node.trans h.node, h'.hasGossip.trans h.hasGossip, h'.peers.trans h.peers, h'.validatorSet.trans h.validatorSet⟩

/-- The phases run in the same engine. -/
theorem sameEngine_phases {e₂ : Engine} {pool : List ProvenanceEntry} {x : Exit (Option (Block × Bool))}
    (h : e.Phases X pool t x e₂) : SameEngine e e₂ := by
  obtain ⟨st, rfl⟩ := phases_frame X h
  exact ⟨by simp, by simp, by simp, by simp⟩

theorem sameEngine_cycle {x : Exit Unit} (h : Cycled X e t x e') : SameEngine e e' := by
  cases h with
  | @skipped pool hs =>
    obtain ⟨pending, hstart⟩ := e.start_eq pool
    rw [hstart]
    exact ⟨rfl, rfl, rfl, rfl⟩
  | panicked hs hp => exact sameEngine_phases X hp
  | aborted hs hp => exact (sameEngine_phases X hp).trans ⟨rfl, rfl, rfl, rfl⟩
  | failed hs hp hc =>
    rw [conclude_none hc]
    exact (sameEngine_phases X hp).trans ⟨rfl, rfl, rfl, rfl⟩
  | committed hs hp hc =>
    obtain ⟨next, -, happly, hpost⟩ := conclude_some hc
    rw [hpost]
    exact (sameEngine_phases X hp).trans ⟨rfl, rfl, rfl, (apply_ok X happly).2⟩

theorem sameEngine_step {l : Called} (h : EngineStep X e l e') : SameEngine e e' := by
  by_cases hc : l.call = .runCycle
  · rw [EngineStep, hc] at h
    obtain ⟨x, hcycled⟩ := run_runCycle X h
    exact sameEngine_cycle X hcycled
  · obtain ⟨⟨x, s⟩, rfl, hrun⟩ := run_map.1 h
    obtain ⟨hkept, -⟩ := call_within X hc _ _ _ _ hrun
    exact ⟨hkept.node, hkept.hasGossip, hkept.peers, by rw [hkept.state]⟩

/-- An engine that nothing has happened to yet. -/
structure Engine.Blank (e : Engine) : Prop where
  blocks : e.blocks = []
  pendingEntries : e.pendingEntries = []
  anchored : e.anchored = fun _ => none
  mandateResolver : e.mandateResolver = ∅

theorem Engine.Fresh.blank (h : e.Fresh) : e.Blank := by
  rcases h with ⟨node, rfl⟩ | ⟨node, hasGossip, peers, rfl⟩
  · exact ⟨rfl, rfl, rfl, rfl⟩
  · exact ⟨rfl, rfl, rfl, rfl⟩

/-- **A run stays in one engine.** -/
theorem sameEngine_run {τ : List (Transition Engine Called)} (h : EngineRun X e τ e') : SameEngine e e' := by
  refine h.preserves ?_ (.refl e)
  intro s l s' hstep hs
  exact hs.trans (sameEngine_step X hstep)

end Gleipnir
