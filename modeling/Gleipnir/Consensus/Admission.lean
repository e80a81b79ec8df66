import Gleipnir.Consensus.MandateAuthority
import Gleipnir.Consensus.Publications
import Gleipnir.Consensus.Submissions

/-!
# What gets into a block

`Enqueue` and `Submit` check an entry before they queue it. The entries of the pool and the candidates of others are not
checked again: a proposer anchors whatever the pool holds, and a validator signs whatever the candidate holds.
`vetted_of_screened` says that nothing else lets an entry past the checks: every entry of a block that an engine proposes,
signs or commits is admissible as long as the channel hands out admissible entries, and the settings of a node alone do not
turn against what it has queued.
-/

namespace Gleipnir

open Atomic Atomic.Body

variable {X : Prims}

/-- The entry has a hash, a submitter and a label that fits, and meets the mandate it names if the engine knows it. -/
structure Engine.Admissible (e : Engine) (pe : ProvenanceEntry) : Prop where
  hash : pe.hash ≠ Arr.zero 32
  submitter : pe.submitter ≠ Arr.zero 16
  label : pe.label.utf8ByteSize ≤ e.limits.maxLabelLen
  mandate : ∀ ref, pe.mandateRef = some ref → ref ∈ e.mandateResolver →
    validateEntryAgainstMandates e.mandateResolver pe pe.timestamp = .ok ()

variable {e e' : Engine} {pe : ProvenanceEntry} {l : Called} {ev : Event} {t : Trace} {x : Transition Engine Called}
  {m : MandateEntry}

/-- What `Enqueue` takes is admissible. -/
theorem Engine.Admits.admissible (h : e.Admits pe) : e.Admissible pe := by
  obtain ⟨hhash, hsubmitter, hlabel⟩ := validateEntry_ok_iff.1 h.shape
  exact ⟨hhash, hsubmitter, hlabel, fun _ _ _ => h.mandate⟩

/-! ## The blocks of a cycle -/

/-- The transition proposes, signs, finalises or commits the block. -/
inductive Handles (X : Prims) (x : Transition Engine Called) (block : Block) : Prop
  | proposed {id : String} (h : ⟨.propose block id, ()⟩ ∈ x.label.trace)
  | signed (hread : ⟨.getProposed x.pre.nextCycle, some block⟩ ∈ x.label.trace)
      (hvote : ⟨.publishSig (x.pre.vote X x.pre.nextCycle block.blockHash), ()⟩ ∈ x.label.trace)
  | finalised {id : String} (h : ⟨.publishFinal block id, ()⟩ ∈ x.label.trace)
  | committed (h : x.post.blocks = x.pre.blocks ++ [block])

/-- The entries of the blocks of a transition are admissible, and each of its signatures is for such a block. -/
structure Vetted (X : Prims) (x : Transition Engine Called) : Prop where
  entries : ∀ block, Handles X x block → ∀ pe ∈ block.anchored, x.pre.Admissible pe
  signatures : ∀ s, ⟨.publishSig s, ()⟩ ∈ x.label.trace →
    ∃ block, Handles X x block ∧ s = x.pre.vote X x.pre.nextCycle block.blockHash

/-- The entries that the answer to one call hands to a cycle of the index `n`. -/
def handsOut (n : UInt64) : Event → List ProvenanceEntry
  | ⟨.snapshot, pool⟩ => pool
  | ⟨.getProposed m, some block⟩ => if m = n then block.anchored else []
  | ⟨.getFinal m, some block⟩ => if m = n then block.anchored else []
  | _ => []

/-- The entries that the channel hands to a cycle of `e`. -/
def Engine.handedOut (e : Engine) (t : Trace) : List ProvenanceEntry := t.flatMap (handsOut e.nextCycle)

section Handed

variable {e : Engine} {t : Trace} {pe : ProvenanceEntry}

theorem handedOut_pool {pool : List ProvenanceEntry} (h : ⟨.snapshot, pool⟩ ∈ t) (hpe : pe ∈ pool) : pe ∈ e.handedOut t :=
  List.mem_flatMap.2 ⟨_, h, hpe⟩

theorem handedOut_candidate {block : Block} (h : ⟨.getProposed e.nextCycle, some block⟩ ∈ t) (hpe : pe ∈ block.anchored) :
    pe ∈ e.handedOut t :=
  List.mem_flatMap.2 ⟨_, h, by rwa [handsOut, if_pos rfl]⟩

theorem handedOut_final {block : Block} (h : ⟨.getFinal e.nextCycle, some block⟩ ∈ t) (hpe : pe ∈ block.anchored) :
    pe ∈ e.handedOut t :=
  List.mem_flatMap.2 ⟨_, h, by rwa [handsOut, if_pos rfl]⟩

end Handed

/-- Nothing but a cycle publishes a block or a signature. -/
theorem called_cycle (hstep : EngineStep X e l e') (hev : ev ∈ l.trace) (hop : ev.op.submitting = false) :
    l.call = .runCycle := by
  by_contra hc
  obtain ⟨⟨x, s⟩, rfl, hrun⟩ := run_map.1 hstep
  have hsub : ev.op.submitting = true := (call_within X hc _ _ _ _ hrun).2.1 ev hev
  rw [hop] at hsub
  cases hsub

/-- A node alone calls nothing but the clock in a cycle. -/
theorem hasGossip_of_called (h : Run (Call.runCycle.prog X e) t e') (hev : ev ∈ t) (hop : ev.op.submitting = false) :
    e.hasGossip = true := by
  by_contra hg
  obtain ⟨x, hcycled⟩ := run_runCycle X h
  rw [(cycle_alone (by simpa using hg) hcycled).2 ev hev] at hop
  cases hop

/-- **Where the entries of a block come from**: the channel, or the queue of a node alone. -/
theorem Handles.source (hstep : EngineStep X x.pre x.label x.post) {block : Block} (h : Handles X x block)
    (hpe : pe ∈ block.anchored) : x.label.call = .runCycle ∧
      ((x.pre.hasGossip = true ∧ pe ∈ x.pre.handedOut x.label.trace) ∨
        (x.pre.hasGossip = false ∧ pe ∈ x.pre.allPending)) := by
  cases h with
  | proposed h =>
    have hc := called_cycle hstep h rfl
    rw [EngineStep, hc] at hstep
    have hg := hasGossip_of_called hstep h rfl
    refine ⟨hc, .inl ⟨hg, ?_⟩⟩
    obtain ⟨u, v, ht⟩ := List.append_of_mem h
    rw [ht] at hstep ⊢
    obtain ⟨y, hcycled⟩ := run_runCycle X hstep
    obtain ⟨pool, p, w, pool', now, rfl, rfl⟩ := cycle_candidate X hcycled hg
    exact handedOut_pool (by simp) ((dedupEntries_sublist pool' []).subset hpe)
  | signed hread hvote =>
    have hc := called_cycle hstep hread rfl
    rw [EngineStep, hc] at hstep
    exact ⟨hc, .inl ⟨hasGossip_of_called hstep hread rfl, handedOut_candidate hread hpe⟩⟩
  | finalised h =>
    have hc := called_cycle hstep h rfl
    rw [EngineStep, hc] at hstep
    have hg := hasGossip_of_called hstep h rfl
    refine ⟨hc, .inl ⟨hg, ?_⟩⟩
    obtain ⟨u, v, ht⟩ := List.append_of_mem h
    rw [ht] at hstep ⊢
    obtain ⟨y, hcycled⟩ := run_runCycle X hstep
    obtain ⟨c, hread, hsame⟩ := cycle_final X hcycled hg
    exact handedOut_candidate (List.mem_append_left _ hread) (hsame.anchored ▸ hpe)
  | committed h =>
    rcases step_blocks X hstep with hsame | ⟨hc, ⟨cm⟩⟩
    · rw [hsame] at h
      simp at h
    · obtain rfl : cm.final = block := by simpa [cm.blocks_eq] using h
      refine ⟨hc, ?_⟩
      obtain ⟨p, -, -, hsource⟩ := cm.source
      have hcalled : ∀ {ev : Event}, ev ∈ x.label.trace → ev.op.submitting = false → x.pre.hasGossip = true := by
        rw [EngineStep, hc] at hstep
        exact fun hev => hasGossip_of_called hstep hev
      cases hsource with
      | final hme hread hb => exact .inl ⟨hcalled hread rfl, handedOut_final hread (hb.anchored ▸ hpe)⟩
      | candidate hme hread hb => exact .inl ⟨hcalled hread rfl, handedOut_candidate hread (hb.anchored ▸ hpe)⟩
      | built hme hg hindex hprev hproposer hanchored =>
        refine .inr ⟨hg, ?_⟩
        rw [hanchored [], Engine.start_allPending hg] at hpe
        exact (dedupEntries_sublist _ _).subset hpe

/-- Every signature of a transition is for a block that it handles. -/
theorem handles_of_vote (hstep : EngineStep X x.pre x.label x.post) {s : BlockSig} (h : ⟨.publishSig s, ()⟩ ∈ x.label.trace) :
    ∃ block, Handles X x block ∧ s = x.pre.vote X x.pre.nextCycle block.blockHash := by
  obtain ⟨b, hs, hsource⟩ := step_vote X hstep (mem_votesIn.2 h)
  cases hsource with
  | proposed hlead hb =>
    obtain ⟨id, hpropose⟩ := mem_proposalsIn.1 hb
    exact ⟨b, .proposed hpropose, hs⟩
  | shown hfollow hb => exact ⟨b, .signed (mem_candidatesIn.1 hb) (hs ▸ h), hs⟩

/-! ## The rules of admission -/

/-- The two mandates decide alike about every entry. -/
structure SameTerms (m m' : MandateEntry) : Prop where
  validFrom : m'.validFrom = m.validFrom
  validUntil : m'.validUntil = m.validUntil
  rules : m'.rules = m.rules

theorem SameTerms.refl (m : MandateEntry) : SameTerms m m := ⟨rfl, rfl, rfl⟩

theorem SameTerms.symm {m' : MandateEntry} (h : SameTerms m m') : SameTerms m' m :=
  ⟨h.validFrom.symm, h.validUntil.symm, h.rules.symm⟩

theorem SameTerms.trans {a b c : MandateEntry} (h : SameTerms a b) (h' : SameTerms b c) : SameTerms a c :=
  ⟨h'.validFrom.trans h.validFrom, h'.validUntil.trans h.validUntil, h'.rules.trans h.rules⟩

/-- What `r` knows, `r'` knows on the same terms. -/
def MandateResolver.Extends (r r' : MandateResolver) : Prop :=
  ∀ ref m, r.lookup ref = some m → ∃ m', r'.lookup ref = some m' ∧ SameTerms m m'

theorem MandateResolver.Extends.refl (r : MandateResolver) : r.Extends r := fun _ m h => ⟨m, h, .refl m⟩

theorem MandateResolver.Extends.trans {r₁ r₂ r₃ : MandateResolver} (h : r₁.Extends r₂) (h' : r₂.Extends r₃) :
    r₁.Extends r₃ := by
  intro ref m hm
  obtain ⟨m', hm', hterms⟩ := h ref m hm
  obtain ⟨m'', hm'', hterms'⟩ := h' ref m' hm'
  exact ⟨m'', hm'', hterms.trans hterms'⟩

/-- A mandate may be registered again on its terms. -/
theorem extends_put {r : MandateResolver} (h : ∀ held, r.lookup (m.mandateID X) = some held → SameTerms held m) :
    r.Extends (r.put X m) := by
  intro ref held hheld
  unfold MandateResolver.put
  by_cases href : ref = m.mandateID X
  · subst href
    have hterms := h held hheld
    exact ⟨_, AList.lookup_insert r, ⟨hterms.validFrom, hterms.validUntil, hterms.rules⟩⟩
  · exact ⟨held, by rw [AList.lookup_insert_ne href, hheld], .refl held⟩

/-- An entry that passed the mandate check passes it later. -/
theorem validateEntryAgainstMandates_extends {r r' : MandateResolver} (h : r.Extends r') {timestamp : Int64}
    (hok : validateEntryAgainstMandates r pe timestamp = .ok ()) : validateEntryAgainstMandates r' pe timestamp = .ok () := by
  unfold validateEntryAgainstMandates at hok ⊢
  cases href : pe.mandateRef with
  | none => rfl
  | some ref =>
    simp only [href] at hok ⊢
    cases hm : r.lookup ref with
    | none => simp [hm] at hok
    | some m =>
      obtain ⟨m', hm', hterms⟩ := h ref m hm
      have hactive : m'.isActiveAt timestamp = m.isActiveAt timestamp := by
        simp only [MandateEntry.isActiveAt, hterms.validFrom, hterms.validUntil]
      simp only [hm] at hok
      simp only [hm', hactive, hterms.rules]
      exact hok

/-- Every mandate body of the engine is registered on its terms. -/
def Engine.BodiesKnown (X : Prims) (e : Engine) : Prop :=
  ∀ hash body, e.mandateBodies hash = some body →
    ∃ m, e.mandateResolver.lookup (body.mandateID X) = some m ∧ SameTerms m body

/-- The rules of `e'` are those of `e`, with more mandates at most. -/
structure Upholds (e e' : Engine) : Prop where
  limits : e'.apiLimits = e.apiLimits
  bodies : e'.mandateBodies = e.mandateBodies
  mandates : e.mandateResolver.Extends e'.mandateResolver

/-- What an engine decides about entries by. -/
def Engine.rules (e : Engine) := (e.apiLimits, e.mandateBodies, e.mandateResolver)

theorem upholds_of_rules (h : e'.rules = e.rules) : Upholds e e' := by
  simp only [Engine.rules, Prod.mk.injEq] at h
  exact ⟨h.1, h.2.1, h.2.2 ▸ .refl _⟩

theorem Upholds.trans {a b c : Engine} (h : Upholds a b) (h' : Upholds b c) : Upholds a c :=
  ⟨h'.limits.trans h.limits, h'.bodies.trans h.bodies, h.mandates.trans h'.mandates⟩

theorem Upholds.bodiesKnown (h : Upholds e e') (hk : e.BodiesKnown X) : e'.BodiesKnown X := by
  intro hash body hbody
  rw [h.bodies] at hbody
  obtain ⟨m, hm, hterms⟩ := hk hash body hbody
  obtain ⟨m', hm', hterms'⟩ := h.mandates _ m hm
  exact ⟨m', hm', hterms'.symm.trans hterms⟩

theorem Upholds.admits (h : Upholds e e') (hpe : e.Admits pe) : e'.Admits pe := by
  have hlimits : e'.limits = e.limits := by simp only [Engine.limits, h.limits]
  exact ⟨hlimits ▸ hpe.shape, validateEntryAgainstMandates_extends h.mandates hpe.mandate⟩

/-! ### In a cycle -/

theorem processMandate_upholds (hk : e.BodiesKnown X) (pe : ProvenanceEntry) : Upholds e (e.processMandate X pe) := by
  unfold Engine.processMandate
  split
  · exact upholds_of_rules rfl
  · split
    · exact upholds_of_rules rfl
    · next body hbody =>
      split
      · exact upholds_of_rules rfl
      · -- the body is registered already
        obtain ⟨m, hm, hterms⟩ := hk _ body hbody
        refine ⟨rfl, rfl, extends_put fun held hheld => ?_⟩
        obtain rfl : m = held := Option.some.inj (hm.symm.trans hheld)
        exact hterms

theorem processMandateEntries_upholds (batch : List ProvenanceEntry) : ∀ {e : Engine}, e.BodiesKnown X →
    Upholds e (e.processMandateEntries X batch) := by
  induction batch with
  | nil => exact fun _ => upholds_of_rules rfl
  | cons pe batch ih =>
    intro e hk
    have hfirst := processMandate_upholds hk pe
    exact hfirst.trans (ih (hfirst.bodiesKnown hk))

theorem start_rules (e : Engine) (pool : List ProvenanceEntry) : (e.start pool).rules = e.rules := by
  obtain ⟨pending, h⟩ := e.start_eq pool
  rw [h]
  rfl

theorem ready_upholds (hk : e.BodiesKnown X) (pool : List ProvenanceEntry) : Upholds e (e.ready X pool) := by
  obtain ⟨v, hv⟩ := Engine.processKeyRotationEntries_eq X (e.start pool).allPending (e.start pool)
  have hrotated : Upholds e ((e.start pool).processKeyRotationEntries X (e.start pool).allPending) := by
    rw [hv]
    exact upholds_of_rules (start_rules e pool)
  exact hrotated.trans (processMandateEntries_upholds _ (hrotated.bodiesKnown hk))

theorem phases_upholds {e₂ : Engine} (hk : e.BodiesKnown X) {pool : List ProvenanceEntry} {y : Exit (Option (Block × Bool))}
    (h : e.Phases X pool t y e₂) : Upholds e e₂ := by
  obtain ⟨st, rfl⟩ := phases_frame X h
  exact (ready_upholds hk pool).trans (upholds_of_rules rfl)

/-- A cycle upholds the rules. -/
theorem cycle_upholds (hk : e.BodiesKnown X) {x : Exit Unit} (h : Cycled X e t x e') : Upholds e e' := by
  cases h with
  | @skipped pool hs => exact upholds_of_rules (start_rules e pool)
  | panicked hs hp => exact phases_upholds hk hp
  | aborted hs hp => exact (phases_upholds hk hp).trans (upholds_of_rules rfl)
  | failed hs hp hc =>
    rw [conclude_none hc]
    exact (phases_upholds hk hp).trans (upholds_of_rules rfl)
  | committed hs hp hc =>
    obtain ⟨next, -, -, hpost⟩ := conclude_some hc
    rw [hpost]
    exact (phases_upholds hk hp).trans (upholds_of_rules rfl)

/-- A node alone awaits nothing new after a cycle. -/
theorem cycle_awaits (hg : e.hasGossip = false) {x : Exit Unit} (h : Cycled X e t x e') : e'.allPending ⊆ e.allPending := by
  have hphases : ∀ {pool t y e₂}, e.Phases X pool t y e₂ → e₂.pendingEntries ⊆ e.allPending ∧ e₂.pending = e.pending := by
    intro pool t y e₂ hp
    obtain ⟨st, rfl⟩ := phases_frame X hp
    refine ⟨?_, e.ready_pending X pool⟩
    change (e.ready X pool).pendingEntries ⊆ _
    rw [Engine.ready_pendingEntries, ← Engine.start_allPending hg pool]
    exact List.subset_append_left _ _
  have hqueue : e.pending ⊆ e.allPending := List.subset_append_right _ _
  cases h with
  | @skipped pool hs =>
    change (e.start pool).allPending ⊆ _
    rw [Engine.start_allPending hg]
    exact List.Subset.refl _
  | panicked hs hp =>
    obtain ⟨hretained, hpending⟩ := hphases hp
    exact List.append_subset.2 ⟨hretained, hpending ▸ hqueue⟩
  | @aborted pool u e₂ hs hp =>
    obtain ⟨-, hpending⟩ := hphases hp
    change (e.start pool).allPending ++ e₂.pending ⊆ _
    rw [Engine.start_allPending hg, hpending]
    exact List.append_subset.2 ⟨List.Subset.refl _, hqueue⟩
  | @failed pool u block reached e₂ hs hp hc =>
    obtain ⟨-, hpending⟩ := hphases hp
    rw [conclude_none hc]
    change (e.start pool).allPending ++ e₂.pending ⊆ _
    rw [Engine.start_allPending hg, hpending]
    exact List.append_subset.2 ⟨List.Subset.refl _, hqueue⟩
  | @committed pool u block final reached e₂ hs hp hc =>
    obtain ⟨next, -, -, hpost⟩ := conclude_some hc
    rw [hpost]
    change e₂.pendingEntries.filter _ ++ [] ⊆ _
    rw [List.append_nil]
    exact List.Subset.trans (List.filter_subset_self _) (hphases hp).1

/-! ### In the other calls -/

/-- The rules after a call besides `RunCycle`. -/
inductive Ruled (X : Prims) (e : Engine) (c : Call) (e' : Engine) : Prop
  | same (h : e'.rules = e.rules)
  | limited {cfg : APILimits} (hc : c = .setAPILimits cfg) (h : e' = e.setAPILimits cfg)
  | registered {m : MandateEntry} (hc : c = .submitMandate m ∨ c = .recordMandateBody m)
      (h : e'.rules = (e.keepMandate X m).rules)

/-- The rules are left alone. -/
def SameRules (e e' : Engine) : Prop := e'.rules = e.rules

instance : Std.Refl SameRules := ⟨fun _ => rfl⟩

instance : IsTrans Engine SameRules := ⟨fun _ _ _ h h' => Eq.trans h' h⟩

theorem Queued.sameRules : Queued e e' → SameRules e e' := by
  rintro ⟨_, _, rfl⟩
  rfl

theorem sameRules_submitKeyRotation (entry : KeyRotationEntry) :
    Within SameRules (fun ev => ev.op.submitting) True (submitKeyRotation X entry) := by
  refine within_bind (within_modify fun _ => rfl) fun _ => within_bind within_get fun e => ?_
  split
  · exact within_pure _
  · exact within_bind (within_modify fun _ => rfl) fun _ => (within_enqueue _).mono fun _ _ => Queued.sameRules

theorem ruled_of_mandate {c : Call} (hc : c = .submitMandate m ∨ c = .recordMandateBody m) (h : EngineStep X e ⟨c, t⟩ e') :
    Ruled X e c e' := by
  rcases mandate_step X hc h with ⟨-, hqueued⟩ | ⟨_, -, rfl⟩
  · exact .registered hc hqueued.sameRules
  · exact .same rfl

/-- **The calls besides `RunCycle`** change the rules by a setting or a registration. -/
theorem ruled_call {c : Call} (hc : c ≠ .runCycle) (h : EngineStep X e ⟨c, t⟩ e') : Ruled X e c e' := by
  have hsame : Within SameRules (fun ev => ev.op.submitting) True (c.body X) → Ruled X e c e' := by
    intro hwithin
    obtain ⟨⟨x, s⟩, rfl, hrun⟩ := run_map.1 h
    exact .same (hwithin _ _ _ _ hrun).1
  cases c with
  | enqueue entry =>
    exact hsame (within_bind ((within_enqueue entry).mono fun _ _ => Queued.sameRules) fun _ => within_pure _)
  | submit hash submitter label =>
    exact hsame (within_bind ((within_submit hash submitter label).mono fun _ _ => Queued.sameRules) fun _ => within_pure _)
  | submitKeyRotation entry => exact hsame (within_bind (sameRules_submitKeyRotation entry) fun _ => within_pure _)
  | rotateKey newPublicKey newVRFPublicKey sigNew effectiveCycle expiryCycle =>
    refine hsame (within_bind ?_ fun _ => within_pure _)
    refine within_bind within_get fun e => within_bind (within_perform fun _ => rfl) fun now => ?_
    split
    · exact within_pure _
    · exact within_bind (sameRules_submitKeyRotation _) fun _ => within_pure _
  | recordRotationBody entry =>
    exact hsame (within_bind (within_ite (within_bind (within_modify fun _ => rfl) fun _ => within_pure _)
      (within_pure _)) fun _ => within_pure _)
  | submitMandate m => exact ruled_of_mandate (.inl rfl) h
  | recordMandateBody m => exact ruled_of_mandate (.inr rfl) h
  | setAPILimits cfg =>
    obtain ⟨⟨x, s⟩, rfl, hrun⟩ := run_map.1 h
    change Runs (modify fun e => e.setAPILimits cfg) e t x e' at hrun
    obtain ⟨-, -, rfl⟩ := runs_modify.1 hrun
    exact .limited rfl rfl
  | setQuorumConfig config =>
    refine hsame (within_modify fun e => ?_)
    unfold Engine.setQuorumConfig
    split
    · rfl
    · rfl
  | syncKeyRotationState => exact hsame (within_modify fun _ => rfl)
  | stop => exact hsame (within_modify fun _ => rfl)
  | runCycle => exact absurd rfl hc

/-! ## Runs -/

/-- What reaches the engine in a transition lets nothing past its checks. -/
structure Screened (X : Prims) (x : Transition Engine Called) : Prop where
  /-- The channel hands out admissible entries. -/
  offered : x.label.call = .runCycle → x.pre.hasGossip = true →
    ∀ pe ∈ x.pre.handedOut x.label.trace, x.pre.Admissible pe
  /-- A node alone does not tighten its limits below what it has queued. -/
  limits : ∀ cfg, x.label.call = .setAPILimits cfg → x.pre.hasGossip = false →
    ∀ pe ∈ x.pre.allPending, pe.label.utf8ByteSize ≤ (x.pre.setAPILimits cfg).limits.maxLabelLen
  /-- A node alone does not register other terms under an identifier it knows. -/
  mandates : ∀ m, x.label.call = .submitMandate m ∨ x.label.call = .recordMandateBody m → x.pre.hasGossip = false →
    ∀ held, x.pre.mandateResolver.lookup (m.mandateID X) = some held → SameTerms held m

/-- What a node alone awaits passes its checks. -/
structure Admitting (X : Prims) (e : Engine) : Prop where
  awaited : ∀ pe ∈ e.allPending, e.Admits pe
  known : e.BodiesKnown X

theorem admitting_fresh (h : e.Fresh) : Admitting X e := by
  rcases h with ⟨node, rfl⟩ | ⟨node, hasGossip, peers, rfl⟩
  · exact ⟨fun pe hpe => absurd hpe List.not_mem_nil, nofun⟩
  · exact ⟨fun pe hpe => absurd hpe List.not_mem_nil, nofun⟩

/-- What was awaited still passes the checks after a call besides `RunCycle`. -/
theorem admits_call (hg : e.hasGossip = false) (hs : Screened X ⟨e, l, e'⟩) (hr : Ruled X e l.call e') (h : Admitting X e) :
    (∀ pe ∈ e.allPending, e'.Admits pe) ∧ e'.BodiesKnown X := by
  cases hr with
  | same hrules =>
    have hup := upholds_of_rules hrules
    exact ⟨fun pe hpe => hup.admits (h.awaited pe hpe), hup.bodiesKnown h.known⟩
  | @limited cfg hc he =>
    subst he
    refine ⟨fun pe hpe => ?_, h.known⟩
    obtain ⟨hhash, hsubmitter, -⟩ := validateEntry_ok_iff.1 (h.awaited pe hpe).shape
    exact ⟨validateEntry_ok_iff.2 ⟨hhash, hsubmitter, hs.limits cfg hc hg pe hpe⟩, (h.awaited pe hpe).mandate⟩
  | @registered m hc hrules =>
    have hext : e.mandateResolver.Extends (e.keepMandate X m).mandateResolver := extends_put (hs.mandates m hc hg)
    have hafter : (e.keepMandate X m).BodiesKnown X := by
      intro hash body hbody
      by_cases hid : hash = m.id
      · -- the new body, under its own identifier
        obtain rfl : m = body := by simpa [Engine.keepMandate, hid] using hbody
        exact ⟨_, AList.lookup_insert e.mandateResolver, ⟨rfl, rfl, rfl⟩⟩
      · have hold : e.mandateBodies hash = some body := by
          simpa only [Engine.keepMandate, Function.update_of_ne hid] using hbody
        obtain ⟨held, hheld, hterms⟩ := h.known hash body hold
        obtain ⟨held', hheld', hterms'⟩ := hext _ held hheld
        exact ⟨held', hheld', hterms'.symm.trans hterms⟩
    have hup := upholds_of_rules hrules
    refine ⟨fun pe hpe => hup.admits ?_, hup.bodiesKnown hafter⟩
    exact ⟨(h.awaited pe hpe).shape, validateEntryAgainstMandates_extends hext (h.awaited pe hpe).mandate⟩

/-- **One step of a node alone.** -/
theorem admitting_step (hg : e.hasGossip = false) (hs : Screened X ⟨e, l, e'⟩) (hstep : EngineStep X e l e') (h : Admitting X e) :
    Admitting X e' := by
  obtain ⟨c, t⟩ := l
  by_cases hc : c = .runCycle
  · subst hc
    obtain ⟨x, hcycled⟩ := run_runCycle X hstep
    have hup := cycle_upholds h.known hcycled
    exact ⟨fun pe hpe => hup.admits (h.awaited pe (cycle_awaits hg hcycled hpe)), hup.bodiesKnown h.known⟩
  · obtain ⟨hawaited, hknown⟩ := admits_call hg hs (ruled_call hc hstep) h
    refine ⟨fun pe hpe => ?_, hknown⟩
    obtain ⟨⟨x, s⟩, rfl, hrun⟩ := run_map.1 hstep
    cases filed_call X hc hrun with
    | nothing hwork ht =>
      simp only [Engine.work, Prod.mk.injEq] at hwork
      obtain ⟨-, -, -, -, -, hpending, -, -, -, -, hretained⟩ := hwork
      rw [Engine.allPending, hretained, hpending] at hpe
      exact hawaited pe hpe
    | queued entry hwork hadmits ht =>
      simp only [Engine.work, Engine.push, Prod.mk.injEq] at hwork
      obtain ⟨-, -, -, -, -, hpending, -, -, -, -, hretained⟩ := hwork
      rw [Engine.allPending, hretained, hpending, ← List.append_assoc, List.mem_append, List.mem_singleton] at hpe
      rcases hpe with hpe | rfl
      · exact hawaited pe hpe
      · exact hadmits

/-- **The queue of a node alone** holds what passes its checks, in every state of a run. -/
theorem admitting_run {e₀ : Engine} {τ : List (Transition Engine Called)} (hf : e₀.Fresh) (h : EngineRun X e₀ τ e)
    (hs : ∀ x ∈ τ, Screened X x) : e.hasGossip = false → Admitting X e := by
  refine Path.invariant (C := Screened X) (I := fun e => e.hasGossip = false → Admitting X e) ?_ h hs
    fun _ => admitting_fresh hf
  intro e l e' hscreen hstep hinv hg
  have hg₀ : e.hasGossip = false := (sameEngine_step X hstep).hasGossip ▸ hg
  exact admitting_step hg₀ hscreen hstep (hinv hg₀)

/-- **Admission.** In a run whose steps are all screened, every entry of every block that the engine proposes, signs or
commits is admissible. -/
theorem vetted_of_screened {e₀ e : Engine} {τ : List (Transition Engine Called)} (hf : e₀.Fresh) (h : EngineRun X e₀ τ e)
    (hs : ∀ x ∈ τ, Screened X x) : ∀ x ∈ τ, Vetted X x := by
  intro x hx
  obtain ⟨τ₁, τ₂, rfl, hbefore, hstep⟩ := h.split hx
  have hadmitting := admitting_run hf hbefore fun y hy => hs y (List.mem_append_left _ hy)
  refine ⟨fun block hblock pe hpe => ?_, fun s hvote => handles_of_vote hstep hvote⟩
  obtain ⟨hc, ⟨hg, hout⟩ | ⟨hg, hawaited⟩⟩ := hblock.source hstep hpe
  · exact (hs x hx).offered hc hg pe hout
  · exact ((hadmitting hg).awaited pe hawaited).admissible

namespace Sample

/-- A cycle of the first validator, which is elected, with an entry in the pool. -/
def pooled (pe : ProvenanceEntry) : Engine × Trace × MemoryBus :=
  serveOn { entryBus with entries := [pe] } (Call.runCycle.prog prims (two 1))

theorem run_pooled (pe : ProvenanceEntry) :
    EngineRun prims (two 1) [⟨two 1, ⟨.runCycle, (pooled pe).2.1⟩, (pooled pe).1⟩] (pooled pe).1 :=
  .cons (step_serveOn _ _ _) (.nil _)

/-- An entry with a hash, a submitter and a short label is proposed. -/
theorem entry_vetted : ∃ τ e, EngineRun prims (two 1) τ e ∧ (∀ x ∈ τ, Screened prims x) ∧
    ∃ x ∈ τ, Vetted prims x ∧ ∃ block, Handles prims x block ∧ block.anchored = [entry 9] := by
  have hrun : (∀ pe ∈ (two 1).handedOut (pooled (entry 9)).2.1, pe = entry 9) ∧
      ∃ block ∈ proposalsIn (pooled (entry 9)).2.1, block.anchored = [entry 9] := by decide +kernel
  have hadmissible : (two 1).Admissible (entry 9) := ⟨by decide, by decide, by decide, nofun⟩
  have hscreened : ∀ x ∈ [(⟨two 1, ⟨.runCycle, (pooled (entry 9)).2.1⟩, (pooled (entry 9)).1⟩ : Transition Engine Called)],
      Screened prims x := by
    intro x hx
    obtain rfl := List.mem_singleton.1 hx
    exact ⟨fun _ _ pe hpe => hrun.1 pe hpe ▸ hadmissible, nofun, nofun⟩
  obtain ⟨block, hblock, hentries⟩ := hrun.2
  obtain ⟨id, hpropose⟩ := mem_proposalsIn.1 hblock
  exact ⟨_, _, run_pooled (entry 9), hscreened, _, List.mem_singleton_self _,
    vetted_of_screened (.inr ⟨_, _, _, rfl⟩) (run_pooled (entry 9)) hscreened _ (List.mem_singleton_self _),
    block, .proposed hpropose, hentries⟩

/-- An entry without a hash, which `Enqueue` and `Submit` refuse. -/
def hashless : ProvenanceEntry := { entry 9 with hash := Arr.zero 32 }

/-- It is proposed just the same once it is in the pool. -/
theorem hashless_proposed : ∃ e₀ τ e, e₀.Fresh ∧ EngineRun prims e₀ τ e ∧
    ∃ x ∈ τ, (∃ block, Handles prims x block ∧ ∃ pe ∈ block.anchored, pe.hash = Arr.zero 32) ∧ ¬ Vetted prims x := by
  have hpropose : ∃ block ∈ proposalsIn (pooled hashless).2.1, block.anchored = [hashless] := by decide +kernel
  obtain ⟨block, hblock, hentries⟩ := hpropose
  obtain ⟨id, hpropose⟩ := mem_proposalsIn.1 hblock
  have hmem : hashless ∈ block.anchored := by rw [hentries]; exact List.mem_singleton_self _
  refine ⟨two 1, _, _, .inr ⟨_, _, _, rfl⟩, run_pooled hashless, _, List.mem_singleton_self _,
    ⟨block, .proposed hpropose, hashless, hmem, rfl⟩, fun h => ?_⟩
  exact (h.entries block (.proposed hpropose) hashless hmem).hash rfl

end Sample

end Gleipnir
