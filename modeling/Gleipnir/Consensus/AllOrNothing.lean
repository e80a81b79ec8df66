import Gleipnir.Consensus.Enforcement
import Gleipnir.Consensus.SubChain
import Gleipnir.Validation.Audits

/-!
# Submissions that are registered first

`SubmitMandate` and the `Anchor` of a sub-chain change their own records before they hand an entry to `Enqueue`, and `Enqueue`
may refuse it. `enqueue_ok_iff` says exactly when it does not.

* `submitMandate_atomic_iff`: a refused mandate stays registered, unless it was registered before
* `anchor_atomic_iff`: a refused anchor is reported as a success and has moved the sub-chain on
-/

namespace Gleipnir

open Atomic Atomic.Body

/-! ## What `Enqueue` accepts -/

/-- The clock of a run was read as `now`. -/
def ReadsClock (t : Trace) (now : Int) : Prop := (⟨.now, now⟩ : Event) ∈ t

/-- The entry passes the checks, there is room in the queue, and the limiter lets its submitter through at the time that is
read from the clock. -/
structure Engine.Accepts (e : Engine) (entry : ProvenanceEntry) (t : Trace) : Prop where
  running : e.stopped = false
  admits : e.Admits entry
  room : e.pending.length < e.limits.maxTotalPending
  rate : ∃ now, ReadsClock t now ∧ (e.rateLimiter.allow entry.submitter now).1 = true

variable {e e' : Engine} {t : Trace} {r : Except CallError Unit} {entry : ProvenanceEntry} {id : SubChainID}

theorem takeSlot_ok_iff {submitter : RootID} (h : Runs (takeSlot submitter) e t (.done r) e') :
    r = .ok () ↔ e.pending.length < e.limits.maxTotalPending ∧
      ∃ now, ReadsClock t now ∧ (e.rateLimiter.allow submitter now).1 = true := by
  unfold takeSlot at h
  rw [runs_get_bind] at h
  split at h
  · next hfull =>
    obtain ⟨rfl, heq, rfl⟩ := runs_pure.1 h
    cases heq
    exact iff_of_false (fun h => by cases h) fun h => not_lt.2 hfull h.1
  · next hroom =>
    obtain ⟨now, t₁, rfl, h₁⟩ := runs_perform_bind.1 h
    rw [runs_modify_bind] at h₁
    obtain ⟨rfl, heq, rfl⟩ := runs_pure.1 h₁
    cases heq
    have hclock : ∀ now', ReadsClock [⟨.now, now⟩] now' ↔ now' = now := by
      intro now'
      rw [ReadsClock, List.mem_singleton]
      constructor
      · intro heq
        cases heq
        rfl
      · rintro rfl
        rfl
    simp only [hclock, exists_eq_left, not_le.1 hroom, true_and]
    cases (e.rateLimiter.allow submitter now).1 with
    | false => simp
    | true => simp

/-- An entry that passes the checks is accepted with a slot, and nothing after the slot reads the clock. -/
theorem runs_enqueue_slot (hrunning : e.stopped = false) (hadmits : e.Admits entry) (h : Runs (enqueue entry) e t (.done r) e') :
    ∃ t₁ slot e₁ t₂, t = t₁ ++ t₂ ∧ Runs (takeSlot entry.submitter) e t₁ (.done slot) e₁ ∧ (r = .ok () ↔ slot = .ok ()) ∧
      ∀ now, ¬ ReadsClock t₂ now := by
  unfold enqueue at h
  rw [runs_get_bind, if_neg (by simp [hrunning])] at h
  simp only [hadmits.shape, hadmits.mandate] at h
  obtain ⟨t₁, slot, e₁, t₂, rfl, h₁, h₂⟩ := runs_bind_done.1 h
  refine ⟨t₁, slot, e₁, t₂, rfl, h₁, ?_⟩
  cases slot with
  | error err =>
    obtain ⟨rfl, heq, rfl⟩ := runs_pure.1 h₂
    cases heq
    exact ⟨Iff.rfl, fun now hnow => by cases hnow⟩
  | ok u =>
    rw [runs_modify_bind] at h₂
    split at h₂
    · obtain ⟨⟨⟩, t₃, rfl, h₃⟩ := runs_perform_bind.1 h₂
      obtain ⟨rfl, heq, rfl⟩ := runs_pure.1 h₃
      cases heq
      exact ⟨Iff.rfl, fun now hnow => by cases List.mem_singleton.1 hnow⟩
    · obtain ⟨rfl, heq, rfl⟩ := runs_pure.1 h₂
      cases heq
      exact ⟨Iff.rfl, fun now hnow => by cases hnow⟩

/-- **What `Enqueue` accepts.** -/
theorem enqueue_ok_iff (h : Runs (enqueue entry) e t (.done r) e') : r = .ok () ↔ e.Accepts entry t := by
  by_cases hpassed : e.stopped = false ∧ e.Admits entry
  · obtain ⟨hrunning, hadmits⟩ := hpassed
    obtain ⟨t₁, slot, e₁, t₂, rfl, hslot, hiff, hquiet⟩ := runs_enqueue_slot hrunning hadmits h
    have hclock : ∀ now, ReadsClock (t₁ ++ t₂) now ↔ ReadsClock t₁ now := fun now =>
      List.mem_append.trans (or_iff_left (hquiet now))
    rw [hiff, takeSlot_ok_iff hslot]
    simp only [← hclock]
    exact ⟨fun h => ⟨hrunning, hadmits, h.1, h.2⟩, fun h => ⟨h.room, h.rate⟩⟩
  · -- whatever was accepted has passed the checks
    refine iff_of_false (fun hr => ?_) fun haccepts => hpassed ⟨haccepts.running, haccepts.admits⟩
    subst hr
    have hadmits : e.Admits entry := by
      cases runs_enqueue h with
      | accepted a rateLimiter hadmits hu ht => exact hadmits
    have hstopped : e.stopped = true := by simpa using fun hrunning => hpassed ⟨hrunning, hadmits⟩
    unfold enqueue at h
    rw [runs_get_bind, if_pos hstopped] at h
    obtain ⟨-, heq, -⟩ := runs_pure.1 h
    cases heq

/-- An entry that is accepted is the last of the queue, and one that is refused leaves the queue alone. -/
theorem enqueue_pending {x : Exit (Except CallError Unit)} (h : Runs (enqueue entry) e t x e') : ∃ r, x = .done r ∧
      (r = .ok () → e'.pending = e.pending ++ [entry]) ∧ (r ≠ .ok () → e'.pending = e.pending) ∧
      e'.mandateResolver = e.mandateResolver ∧ e'.mandateBodies = e.mandateBodies := by
  cases runs_enqueue h with
  | refused err rateLimiter ht => exact ⟨_, rfl, (fun h => by cases h), fun _ => rfl, rfl, rfl⟩
  | accepted a rateLimiter hadmits hu ht => exact ⟨_, rfl, fun _ => rfl, fun h => absurd rfl h, rfl, rfl⟩

/-! ## Mandates -/

variable (X : Prims)

/-- A call of `SubmitMandate` that returned `r` is all or nothing: an error leaves the registered mandates and the retained
bodies alone, and without an error the mandate is resolved and its entry is queued. -/
structure MandateAllOrNothing (e : Engine) (mandate : MandateEntry) (r : Except CallError Unit) (e' : Engine) : Prop where
  nothing : r ≠ .ok () → (∀ id, e'.mandateResolver.getMandateByID id = e.mandateResolver.getMandateByID id) ∧
    e'.mandateBodies = e.mandateBodies
  all : r = .ok () → e'.mandateResolver.getMandateByID mandate.id = some mandate ∧ mandate.anchorEntry ∈ e'.pending

/-- The engine has room for the entry of the mandate: it is running, the entry has the right shape, the mandate is in force when
it begins and demands nothing of its own entry that the entry lacks, and neither the queue nor the limiter is exhausted. -/
structure Engine.Installs (e : Engine) (mandate : MandateEntry) (t : Trace) : Prop where
  running : e.stopped = false
  shape : validateEntry mandate.id mandate.authority mandateLabel e.limits = .ok ()
  inForce : mandate.isActiveAt mandate.validFrom = true
  fields : ∀ rule ∈ mandate.rules, entryMatchesRule mandate.anchorEntry rule = true → Complete rule mandate.anchorEntry
  room : e.pending.length < e.limits.maxTotalPending
  rate : ∃ now, ReadsClock t now ∧ (e.rateLimiter.allow mandate.authority now).1 = true

/-- The mandate is registered as it is. -/
def Engine.HasMandate (e : Engine) (mandate : MandateEntry) : Prop :=
  e.mandateResolver.getMandateByID mandate.id = some mandate ∧ e.mandateBodies mandate.id = some mandate

section Mandates

variable {X} {e e' : Engine} {mandate : MandateEntry} {t : Trace}

theorem getMandateByID_keepMandate (hhash : mandate.verifyHash X = true) (id : Hash) :
    (e.keepMandate X mandate).mandateResolver.getMandateByID id =
      if id = mandate.id then some mandate else e.mandateResolver.getMandateByID id :=
  MandateResolver.lookup_put hhash id

/-- Once a mandate is registered, its entry is accepted if the engine has room for it. -/
theorem accepts_keepMandate_iff (hhash : mandate.verifyHash X = true) :
    (e.keepMandate X mandate).Accepts mandate.anchorEntry t ↔ e.Installs mandate t := by
  have hknown : (e.keepMandate X mandate).mandateResolver.getMandateByID mandate.id = some mandate := by
    rw [getMandateByID_keepMandate hhash, if_pos rfl]
  have hcheck : validateEntryAgainstMandates (e.keepMandate X mandate).mandateResolver mandate.anchorEntry
      mandate.anchorEntry.timestamp = .ok () ↔ _ :=
    validateEntryAgainstMandates_ok_iff rfl hknown
  constructor
  · intro h
    obtain ⟨hforce, hfields⟩ := hcheck.1 h.admits.mandate
    exact ⟨h.running, h.admits.shape, hforce, hfields, h.room, h.rate⟩
  · intro h
    exact ⟨h.running, ⟨h.shape, hcheck.2 ⟨h.inForce, h.fields⟩⟩, h.room, h.rate⟩

/-- Registering a mandate changes nothing exactly if it was registered as it is. -/
theorem keepMandate_same_iff (hhash : mandate.verifyHash X = true) :
    ((∀ id, (e.keepMandate X mandate).mandateResolver.getMandateByID id = e.mandateResolver.getMandateByID id) ∧
      (e.keepMandate X mandate).mandateBodies = e.mandateBodies) ↔ e.HasMandate mandate := by
  simp only [getMandateByID_keepMandate hhash]
  change (_ ∧ Function.update e.mandateBodies mandate.id (some mandate) = e.mandateBodies) ↔ _
  rw [Function.update_eq_self_iff]
  constructor
  · rintro ⟨hresolver, hbodies⟩
    have hid := hresolver mandate.id
    rw [if_pos rfl] at hid
    exact ⟨hid.symm, hbodies.symm⟩
  · rintro ⟨hresolver, hbodies⟩
    refine ⟨fun id => ?_, hbodies.symm⟩
    split
    · next heq => rw [heq, hresolver]
    · rfl

/-- **Mandate submission.** Whatever the state of the engine and the mandate, and whatever the clock says: `SubmitMandate` is
all or nothing exactly if the mandate fails the authority check, or the engine has room for its entry, or it was registered
before as it is. -/
theorem submitMandate_atomic_iff {x : Exit (Except CallError Unit)} (h : Runs (submitMandate X mandate) e t x e') :
    ∃ r, x = .done r ∧ (MandateAllOrNothing e mandate r e' ↔
      validateMandateAuthority X mandate e.mandateAuthorityLookup ≠ .ok () ∨ e.Installs mandate t ∨ e.HasMandate mandate) := by
  rcases runs_submitMandate X h with ⟨hok, henqueue⟩ | ⟨err, herr, -, rfl, rfl⟩
  · have hhash := ((validateMandateAuthority_ok_iff X).1 hok).1
    obtain ⟨r, rfl, hqueued, -, hresolver, hbodies⟩ := enqueue_pending henqueue
    refine ⟨r, rfl, ?_⟩
    rw [← accepts_keepMandate_iff hhash, ← enqueue_ok_iff henqueue, ← keepMandate_same_iff hhash, ← hresolver, ← hbodies]
    simp only [hok, ne_eq, not_true_eq_false, false_or]
    constructor
    · intro hall
      by_cases hr : r = .ok ()
      · exact .inl hr
      · exact .inr (hall.nothing hr)
    · intro hcase
      refine ⟨fun hr => hcase.resolve_left hr, fun hr => ⟨?_, ?_⟩⟩
      · rw [hresolver, getMandateByID_keepMandate hhash, if_pos rfl]
      · rw [hqueued hr]
        exact List.mem_append_right _ (List.mem_singleton.2 rfl)
  · refine ⟨_, rfl, iff_of_true ⟨fun _ => ⟨fun _ => rfl, rfl⟩, fun h => by cases h⟩ (.inl ?_)⟩
    rw [herr]
    exact fun h => by cases h

end Mandates

namespace Sample

/-- The mandate that is submitted, and a single node, running or stopped. -/
def offered : MandateEntry := issued 1 (Arr.zero 32)

def nodeThat (stopped : Bool) : Engine := { Engine.new (node 1) with stopped }

def offer (stopped : Bool) : (Exit (Except CallError Unit) × Engine) × Trace × MemoryBus :=
  serveOn MemoryBus.new (submitMandate sealing offered (nodeThat stopped))

theorem runs_offer (stopped : Bool) {x : Exit (Except CallError Unit)} (h : (offer stopped).1.1 = x) :
    Runs (submitMandate sealing offered) (nodeThat stopped) (offer stopped).2.1 x (offer stopped).1.2 := by
  unfold offer at h ⊢
  exact runs_serveOn _ _ _ h

def offeredHash : Computed offered fun m => m.verifyHash sealing = true := computed _ (by decide +kernel)

def acceptedOffer : Computed (offer false) fun x => x.1.1 = .done (.ok ()) := computed _ (by decide +kernel)

def refusedOffer : Computed (offer true) fun x => x.1.1 = .done (.error .engineStopped) ∧
    (x.1.2.mandateResolver.getMandateByID offered.id).isSome = true :=
  computed _ (by decide +kernel)

/-- A running node takes the mandate as a whole. -/
theorem offer_taken : ∃ t e', Runs (submitMandate sealing offered) (nodeThat false) t (.done (.ok ())) e' ∧
    e'.mandateResolver.getMandateByID offered.id = some offered ∧ offered.anchorEntry ∈ e'.pending := by
  obtain ⟨x, hx, hok⟩ := acceptedOffer
  rw [hx] at hok
  have hrun := runs_offer false hok
  obtain ⟨m, hm, hhash⟩ := offeredHash
  rw [hm] at hhash
  have hinstalls : (nodeThat false).Installs offered (offer false).2.1 := by
    rcases runs_submitMandate sealing hrun with ⟨-, henqueue⟩ | ⟨err, -, -, herr, -⟩
    · exact (accepts_keepMandate_iff hhash).1 ((enqueue_ok_iff henqueue).1 rfl)
    · cases herr
  obtain ⟨r, heq, hiff⟩ := submitMandate_atomic_iff hrun
  cases heq
  exact ⟨_, _, hrun, (hiff.2 (.inr (.inl hinstalls))).all rfl⟩

/-- A node that was stopped refuses the mandate and has it afterwards. -/
theorem refused_mandate_registered : ∃ τ e mandate t err e', EngineRun sealing (Engine.new (node 1)) τ e ∧
    Runs (submitMandate sealing mandate) e t (.done (.error err)) e' ∧
    ¬ MandateAllOrNothing e mandate (.error err) e' := by
  have hstop : EngineStep sealing (Engine.new (node 1)) ⟨.stop, []⟩ (nodeThat true) := run_map.2 ⟨_, rfl, .ret _⟩
  obtain ⟨x, hx, herr, hsome⟩ := refusedOffer
  rw [hx] at herr hsome
  refine ⟨_, nodeThat true, offered, _, _, _, .cons hstop (.nil _), runs_offer true herr, fun hall => ?_⟩
  have hsame := (hall.nothing fun h => by cases h).1 offered.id
  rw [hsame] at hsome
  cases hsome

end Sample

/-! ## Anchors of sub-chains -/

/-- The entry that `Anchor` hands to the engine at the time `now`. -/
def SubChain.anchorEntry (sc : SubChain) (id : SubChainID) (now : Int64) : ProvenanceEntry :=
  { hash := commitment X id (sc.anchor X id now).st.root, submitter := sc.desc.owner, timestamp := now
    label := "subchain:anchor" }

theorem SubChainManager.anchor_eq {m : SubChainManager} {sc : SubChain} (hsc : m.chains id = some sc) (now : Int64) :
    m.anchor X id now = (.ok (sc.anchorEntry X id now), m.put id (sc.anchor X id now)) := by
  simp only [SubChainManager.anchor, hsc, SubChain.anchorEntry]

/-- `SubChainManager.Anchor`, with the engine it belongs to. The manager has moved on before the engine sees the entry, and the
error of `Enqueue` is dropped. -/
def anchorSubChain (id : SubChainID) : Body (SubChainManager × Engine) Op Op.Res (Except SubChainError Unit) := do
  let s ← get
  match s.1.chains id with
  | none => return .error .notFound
  | some _ =>
    let now ← perform .now
    match s.1.anchor X id (Int64.ofInt now) with
    | (.error err, _) => return .error err
    | (.ok entry, m) =>
      modify fun s => (m, s.2)
      let _ ← onSnd (enqueue entry)
      return .ok ()

/-- The ways in which `Anchor` ends. -/
inductive AnchorEnds (id : SubChainID) (m : SubChainManager) (e : Engine) :
    Trace → Exit (Except SubChainError Unit) → SubChainManager → Engine → Prop
  | unknown (hnone : m.chains id = none) : AnchorEnds id m e [] (.done (.error .notFound)) m e
  | moved (sc : SubChain) (now : Int) {t : Trace} {r : Except CallError Unit} {e' : Engine} (hsc : m.chains id = some sc)
      (henqueue : Runs (enqueue (sc.anchorEntry X id (Int64.ofInt now))) e t (.done r) e') :
      AnchorEnds id m e (⟨.now, now⟩ :: t) (.done (.ok ())) (m.put id (sc.anchor X id (Int64.ofInt now))) e'

theorem runs_anchorSubChain {m m' : SubChainManager} {x : Exit (Except SubChainError Unit)}
    (h : Runs (anchorSubChain X id) (m, e) t x (m', e')) : AnchorEnds X id m e t x m' e' := by
  unfold anchorSubChain at h
  rw [runs_get_bind] at h
  cases hsc : m.chains id with
  | none =>
    simp only [hsc] at h
    obtain ⟨rfl, rfl, heq⟩ := runs_pure.1 h
    cases heq
    exact .unknown hsc
  | some sc =>
    simp only [hsc] at h
    obtain ⟨now, t₁, rfl, h₁⟩ := runs_perform_bind.1 h
    simp only [SubChainManager.anchor_eq X hsc, runs_modify_bind] at h₁
    rcases runs_bind.1 h₁ with ⟨t₂, r, s₁, t₃, rfl, h₂, h₃⟩ | ⟨rfl, h₂⟩
    · obtain ⟨rfl, rfl, rfl⟩ := runs_pure.1 h₃
      obtain ⟨rfl, henqueue⟩ := runs_onSnd.1 h₂
      rw [List.append_nil]
      exact .moved sc now hsc henqueue
    · obtain ⟨-, henqueue⟩ := runs_onSnd.1 h₂
      obtain ⟨r, hdone, -⟩ := enqueue_pending henqueue
      cases hdone

/-- The engine has queued an entry that commits to the root that the sub-chain has now. -/
def AnchorQueued (id : SubChainID) (m' : SubChainManager) (e e' : Engine) : Prop :=
  ∃ sc' entry, m'.chains id = some sc' ∧ entry.hash = commitment X id sc'.st.root ∧ e'.pending = e.pending ++ [entry]

/-- What an anchor moves. -/
def SubChain.progress (sc : SubChain) : List ProvenanceEntry × Hash × List CrossChainAnchor :=
  (sc.pending, sc.st.root, sc.anchors)

/-- A call of `Anchor` that returned `r` is all or nothing. -/
structure AnchorAllOrNothing (id : SubChainID) (m : SubChainManager) (e : Engine) (r : Except SubChainError Unit)
    (m' : SubChainManager) (e' : Engine) : Prop where
  success : r = .ok () ↔ AnchorQueued X id m' e e'
  nothing : ¬ AnchorQueued X id m' e e' → (m'.chains id).map SubChain.progress = (m.chains id).map SubChain.progress

/-- The engine has room for an anchor of the sub-chain: it is running, the commitment and the owner are not zero, the label
fits, and neither the queue nor the limiter is exhausted. -/
structure Engine.TakesAnchor (e : Engine) (id : SubChainID) (sc : SubChain) (t : Trace) : Prop where
  running : e.stopped = false
  hash : commitment X id (sc.st.insertHashes X sc.pending).root ≠ Arr.zero 32
  owner : sc.desc.owner ≠ Arr.zero 16
  label : "subchain:anchor".utf8ByteSize ≤ e.limits.maxLabelLen
  room : e.pending.length < e.limits.maxTotalPending
  rate : ∃ now, ReadsClock t now ∧ (e.rateLimiter.allow sc.desc.owner now).1 = true

section Anchors

variable {X} {id : SubChainID}

/-- An anchor names no mandate. -/
theorem accepts_anchorEntry_iff {e : Engine} {sc : SubChain} {now : Int64} {t : Trace} :
    e.Accepts (sc.anchorEntry X id now) t ↔ e.TakesAnchor X id sc t := by
  constructor
  · intro h
    obtain ⟨hhash, howner, hlabel⟩ := validateEntry_ok_iff.1 h.admits.shape
    exact ⟨h.running, hhash, howner, hlabel, h.room, h.rate⟩
  · intro h
    exact ⟨h.running, ⟨validateEntry_ok_iff.2 ⟨h.hash, h.owner, h.label⟩, rfl⟩, h.room, h.rate⟩

/-- The anchor is queued exactly if `Enqueue` takes it. -/
theorem anchorQueued_iff {m : SubChainManager} {e e' : Engine} {sc : SubChain} {now : Int64} {t : Trace}
    {r : Except CallError Unit} (h : Runs (enqueue (sc.anchorEntry X id now)) e t (.done r) e') :
    AnchorQueued X id (m.put id (sc.anchor X id now)) e e' ↔ e.TakesAnchor X id sc t := by
  obtain ⟨r', heq, hqueued, hrefused, -⟩ := enqueue_pending h
  obtain rfl := Exit.done.inj heq
  rw [← accepts_anchorEntry_iff, ← enqueue_ok_iff h]
  constructor
  · rintro ⟨sc', entry, -, -, hpending⟩
    by_contra hr
    simp [hrefused hr] at hpending
  · intro hr
    exact ⟨_, _, by rw [SubChainManager.chains_put, if_pos rfl], rfl, hqueued hr⟩

/-- **Sub-chain anchoring.** Whatever the state of the sub-chain and of the engine, and whatever the clock says: `Anchor` is all
or nothing exactly if the sub-chain is not known or the engine has room for the anchor. The first event of a call is the
clock reading of `Anchor` itself. -/
theorem anchor_atomic_iff {m m' : SubChainManager} {e e' : Engine} {t : Trace} {x : Exit (Except SubChainError Unit)}
    (h : Runs (anchorSubChain X id) (m, e) t x (m', e')) :
    ∃ r, x = .done r ∧ (AnchorAllOrNothing X id m e r m' e' ↔
      ∀ sc, m.chains id = some sc → e.TakesAnchor X id sc t.tail) := by
  cases runs_anchorSubChain X h with
  | unknown hnone =>
    have hnot : ¬ AnchorQueued X id m e e := by
      rintro ⟨sc', entry, hsc', -⟩
      cases hnone.symm.trans hsc'
    refine ⟨_, rfl, iff_of_true ⟨iff_of_false (fun h => by cases h) hnot, fun _ => rfl⟩ fun sc hsc => ?_⟩
    cases hnone.symm.trans hsc
  | moved sc now hsc henqueue =>
    refine ⟨_, rfl, ?_⟩
    simp only [hsc, Option.some.injEq, forall_eq', List.tail_cons]
    rw [← anchorQueued_iff henqueue]
    constructor
    · intro hall
      exact hall.success.1 rfl
    · intro hqueued
      exact ⟨iff_of_true rfl hqueued, fun hnot => absurd hqueued hnot⟩

end Anchors

namespace Sample

/-- A sub-chain of the first validator with one pending entry. -/
def openSubChain : SubChain :=
  let st := SparseMerkleTree.new 256
  ⟨⟨subChainID, "", Arr.copy 16 [1], st.root, 1, true⟩, st, [], [leftEntry]⟩

/-- A manager with this sub-chain, and its engine. -/
def managerThat (stopped : Bool) : SubChainManager × Engine := (SubChainManager.new.put subChainID openSubChain, nodeThat stopped)

theorem chains_managerThat (stopped : Bool) : (managerThat stopped).1.chains subChainID = some openSubChain := by
  rw [managerThat, SubChainManager.chains_put, if_pos rfl]

def anchoring (stopped : Bool) : (Exit (Except SubChainError Unit) × SubChainManager × Engine) × Trace × MemoryBus :=
  serveOn MemoryBus.new (anchorSubChain tagging subChainID (managerThat stopped))

theorem runs_anchoring (stopped : Bool) : Runs (anchorSubChain tagging subChainID) (managerThat stopped)
    (anchoring stopped).2.1 (anchoring stopped).1.1 (anchoring stopped).1.2 := by
  unfold anchoring
  exact run_serveOn _ _

def anchoredOne : Computed (anchoring false) fun x => x.1.1 = .done (.ok ()) ∧ x.1.2.2.pending ≠ [] :=
  computed _ (by decide +kernel)

/-- A running node takes the anchor, so the call was all or nothing. -/
theorem anchor_taken : ∃ t m' e', Runs (anchorSubChain tagging subChainID) (managerThat false) t (.done (.ok ())) (m', e') ∧
    AnchorQueued tagging subChainID m' (nodeThat false) e' := by
  obtain ⟨⟨⟨y, m', e'⟩, t, b⟩, hx, hy, hpending⟩ := anchoredOne
  have hrun := runs_anchoring false
  rw [← hx] at hrun
  obtain rfl : y = _ := hy
  obtain ⟨r, heq, hiff⟩ := anchor_atomic_iff hrun
  obtain rfl := Exit.done.inj heq
  refine ⟨t, m', e', hrun, (hiff.2 fun sc hsc => ?_).success.1 rfl⟩
  cases runs_anchorSubChain tagging hrun with
  | @moved sc' now t r _ hsc' henqueue =>
    obtain rfl : sc' = sc := Option.some.inj (hsc'.symm.trans hsc)
    obtain ⟨r', heq, -, hrefused, -⟩ := enqueue_pending henqueue
    obtain rfl := Exit.done.inj heq
    have hr : r = .ok () := by
      by_contra hr
      exact hpending (hrefused hr)
    exact accepts_anchorEntry_iff.1 ((enqueue_ok_iff henqueue).1 hr)

/-- Below a node that was stopped, `Anchor` succeeds and nothing is queued. -/
theorem refused_anchor_reported : ∃ τ e m t m' e', EngineRun tagging (Engine.new (node 1)) τ e ∧
    Runs (anchorSubChain tagging subChainID) (m, e) t (.done (.ok ())) (m', e') ∧
    ¬ AnchorAllOrNothing tagging subChainID m e (.ok ()) m' e' := by
  have hstop : EngineStep tagging (Engine.new (node 1)) ⟨.stop, []⟩ (nodeThat true) := run_map.2 ⟨_, rfl, .ret _⟩
  have hrun := runs_anchoring true
  generalize anchoring true = x at hrun
  obtain ⟨⟨y, m', e'⟩, t, b⟩ := x
  cases runs_anchorSubChain tagging hrun with
  | unknown hnone => cases hnone.symm.trans (chains_managerThat true)
  | moved sc now hsc henqueue =>
    refine ⟨_, nodeThat true, (managerThat true).1, _, _, e', .cons hstop (.nil _), hrun, fun hall => ?_⟩
    have htakes := (anchorQueued_iff henqueue).1 (hall.success.1 rfl)
    cases htakes.running

end Sample

end Gleipnir
