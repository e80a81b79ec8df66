import Gleipnir.Storage.Bolt

/-!
# Stopping and starting again

An engine that is stopped leaves its disk to a new engine of the same identity and peers. The state, the queue, the tree, the
records and the blocks are saved; the entries that aborted cycles retain, the key history and the mandates are not.
`restart_iff` says that the new engine continues where the old one stopped exactly if it had nothing of the kind, and if the
indices of its blocks ascend: the disk keeps one block for each index.
-/

namespace Gleipnir

open Atomic Atomic.Body

variable {X : Prims}

namespace Engine

/-- The keys that are active for a validator in a cycle. -/
def activeKeys (e : Engine) (validatorID : RootID) (cycle : UInt64) : Set (Arr 1952) :=
  {pk | ∃ keys, e.keyRotationValidator.getActivePublicKey validatorID cycle = some keys ∧ pk ∈ keys}

/-- The mandates that the engine resolves. -/
def resolvable (e : Engine) : Set MandateEntry := {m | ∃ id, e.mandateResolver.getMandateByID id = some m}

/-- The keys that the constructor registers. -/
def registeredKeys (e : Engine) : AList fun _ : RootID => Arr 1952 :=
  if e.peers = [] then validatorKeys [e.node.asPeer.validatorInfo] else validatorKeys (e.peers.map Peer.validatorInfo)

end Engine

/-- The engine `g` goes on where `e` stopped. -/
structure Continues (e g : Engine) : Prop where
  blocks : g.blocks = e.blocks
  root : g.st.root = e.st.root
  anchored : g.anchored = e.anchored
  awaiting : ∀ pe, pe ∈ g.allPending ↔ pe ∈ e.allPending
  activeKeys : ∀ validatorID cycle, g.activeKeys validatorID cycle = e.activeKeys validatorID cycle
  resolvable : g.resolvable = e.resolvable

/-- The engine has nothing that `persist` does not save: an entry that is retained is queued as well, every validator still has
the key it was registered with and no other, and there are no mandates. The blocks have different indices, in order. -/
structure Restartable (e : Engine) : Prop where
  ascending : e.blocks.Pairwise fun a b => a.index < b.index
  queued : ∀ pe ∈ e.pendingEntries, pe ∈ e.pending
  unrotated : ∀ validatorID cycle pk, pk ∈ e.activeKeys validatorID cycle ↔ e.registeredKeys.lookup validatorID = some pk
  unmandated : ∀ id, e.mandateResolver.getMandateByID id = none

/-! ## New engines -/

theorem fresh_keys {e : Engine} (h : e.Fresh) :
    e.keyRotationValidator.validators = e.registeredKeys ∧ e.keyRotationValidator.rotations = fun _ => [] := by
  rcases h with ⟨node, rfl⟩ | ⟨node, hasGossip, peers, rfl⟩
  · exact ⟨rfl, rfl⟩
  · unfold Engine.registeredKeys
    by_cases hpeers : peers = []
    · subst hpeers
      exact ⟨rfl, rfl⟩
    · simp only [Engine.newWithPeers, if_neg hpeers]
      exact ⟨(if_neg hpeers).symm, rfl⟩

/-- A key history without rotations has the registered keys. -/
theorem mem_activeKeys_of_unrotated {e : Engine} (hkeys : e.keyRotationValidator.validators = e.registeredKeys)
    (hnone : e.keyRotationValidator.rotations = fun _ => []) (validatorID : RootID) (cycle : UInt64) (pk : Arr 1952) :
    pk ∈ e.activeKeys validatorID cycle ↔ e.registeredKeys.lookup validatorID = some pk := by
  simp only [Engine.activeKeys, Set.mem_ofPred_eq, KeyRotationValidator.getActivePublicKey, hkeys, hnone,
    KeyRotationValidator.keysFrom, Option.map_eq_some_iff]
  constructor
  · rintro ⟨_, ⟨current, hcurrent, rfl⟩, hpk⟩
    rw [List.mem_singleton.1 hpk, hcurrent]
  · exact fun h => ⟨_, ⟨pk, h, rfl⟩, List.mem_singleton.2 rfl⟩

/-! ## Stopping -/

theorem step_stop {e e' : Engine} {t : Trace} : EngineStep X e ⟨.stop, t⟩ e' ↔ t = [] ∧ e' = { e with stopped := true } := by
  change Run ((Call.body X .stop e).map Prod.snd) t e' ↔ _
  rw [run_map]
  constructor
  · rintro ⟨⟨x, e'⟩, rfl, hrun⟩
    have hruns : Runs (modify fun e : Engine => { e with stopped := true }) e t x e' := hrun
    obtain ⟨rfl, -, rfl⟩ := runs_modify.1 hruns
    exact ⟨rfl, rfl⟩
  · rintro ⟨rfl, rfl⟩
    exact ⟨(.done (), _), rfl, .ret _⟩

theorem saving_stop {h : Host} (hatt : h.attached = true) (e' : Engine) : h.saving .stop e' = true := by
  rw [Host.saving, hatt]
  rfl

/-- What a stopped engine leaves on the disk. -/
theorem stopped_disk {h h' : Host} (hb : Backed h) (hatt : h.attached = true) {t : Trace}
    {records : List (Hash × AnchorProof)} (hstop : HostStep X h (.call ⟨.stop, t⟩ records) h') :
    h'.disk =
      { state := some h.engine.state
        pending := some h.engine.pending
        tree := some h.engine.st
        anchored := h.engine.anchored
        blocks := h.disk.blocks.putAll h.engine.blocks } := by
  cases hstop with
  | call hs hr =>
    have hsaving := saving_stop hatt
    obtain ⟨-, rfl⟩ := step_stop.1 hs
    have hfiled := fileRecords_eq (hr (hsaving _)) (hb.records hatt)
    simp only [hsaving, if_true, Disk.saveAll_saves, hfiled]

/-- An attached engine can be stopped, and saves its records in some order. -/
theorem exists_stop {h₀ h : Host} {τ : List (Transition Host HostMove)} (hnew : h₀.New) (hrun : HostRun X h₀ τ h) :
    ∃ t records h', HostStep X h (.call ⟨.stop, t⟩ records) h' := by
  obtain ⟨records, hr⟩ := exists_records (backed_run hnew hrun).engine
  refine ⟨[], records, _, .call (step_stop.2 ⟨rfl, rfl⟩) fun _ => ?_⟩
  exact ⟨hr.nodup, hr.listed⟩

/-! ## Starting again -/

/-- **Restarts.** Whatever happened to a host before: the engine that is built from the disk of a stopped one continues it
exactly if the stopped one was restartable. -/
theorem restart_iff {h₀ h h' : Host} {τ : List (Transition Host HostMove)} (hnew : h₀.New) (hrun : HostRun X h₀ τ h)
    (hatt : h.attached = true) {t : Trace} {records : List (Hash × AnchorProof)}
    (hstop : HostStep X h (.call ⟨.stop, t⟩ records) h') {next : Engine} (hnext : next.Renews h.engine) :
    Continues h.engine (next.loadPersisted h'.disk) ↔ Restartable h.engine := by
  have hb := backed_run hnew hrun
  rw [stopped_disk hb hatt hstop]
  obtain ⟨hkeys, hnone⟩ := fresh_keys hnext.fresh
  have hreg : next.registeredKeys = h.engine.registeredKeys := by
    unfold Engine.registeredKeys
    rw [hnext.node, hnext.peers]
  have hactive : ∀ id cycle pk, pk ∈ next.activeKeys id cycle ↔ h.engine.registeredKeys.lookup id = some pk := by
    intro id cycle pk
    rw [mem_activeKeys_of_unrotated hkeys hnone, hreg]
  have hblocks := Bucket.values_putAll_iff (hb.blocks hatt)
  have hqueue : ∀ pe, pe ∈ (next.pendingEntries ++ h.engine.pending) ↔ pe ∈ h.engine.pending := by
    intro pe
    rw [hnext.fresh.blank.pendingEntries, List.nil_append]
  have hmandates : ∀ id, next.mandateResolver.getMandateByID id = none := by
    intro id
    rw [hnext.fresh.blank.mandateResolver]
    rfl
  constructor
  · intro hc
    refine ⟨(hblocks.1 hc.blocks).imp UInt64.lt_iff_toNat_lt.2, fun pe hpe => ?_, fun id cycle pk => ?_, fun id => ?_⟩
    · exact (hqueue pe).1 ((hc.awaiting pe).2 (List.mem_append_left _ hpe))
    · rw [← hc.activeKeys id cycle]
      exact hactive id cycle pk
    · -- a mandate of the old engine would be one of the new engine
      by_contra hsome
      obtain ⟨m, hm⟩ := Option.ne_none_iff_exists'.1 hsome
      have hmem : m ∈ h.engine.resolvable := ⟨id, hm⟩
      rw [← hc.resolvable] at hmem
      obtain ⟨id', hm'⟩ := hmem
      exact Option.some_ne_none m (hm'.symm.trans (hmandates id'))
  · intro hr
    refine ⟨hblocks.2 (hr.ascending.imp UInt64.lt_iff_toNat_lt.1), rfl, rfl, fun pe => ?_, fun id cycle => ?_, ?_⟩
    · refine (hqueue pe).trans ⟨List.mem_append_right _, fun hpe => ?_⟩
      exact (List.mem_append.1 hpe).elim (hr.queued pe) id
    · ext pk
      exact (hactive id cycle pk).trans (hr.unrotated id cycle pk).symm
    · ext m
      constructor
      · rintro ⟨id, hm⟩
        exact absurd (hm.symm.trans (hmandates id)) (Option.some_ne_none m)
      · rintro ⟨id, hm⟩
        exact absurd (hm.symm.trans (hr.unmandated id)) (Option.some_ne_none m)

namespace Sample

def queueingHas : Computed queueing fun q => q.1.pending = [entry 9] ∧ q.1.blocks = [] := computed _ (by decide +kernel)

theorem queued_queueing : Queued (Engine.new (node 1)) queueing.1 := by
  obtain ⟨⟨x, s⟩, hs, hrun⟩ := run_map.1 (step_serveOn (.enqueue (entry 9)) (Engine.new (node 1)) MemoryBus.new)
  have hwithin := within_bind (within_enqueue (entry 9)) (fun _ => within_pure (E := fun ev : Event => ev.op.submitting) ())
  have hq := (hwithin _ _ _ _ hrun).1
  rwa [show queueing.1 = s from hs]

/-- The entry is in the queue of the new engine, which continues the old one. -/
theorem queue_restarted : ∃ h₀ τ h t records h', ∃ next : Engine, h₀.New ∧ HostRun prims h₀ τ h ∧ h.attached = true ∧
    HostStep prims h (.call ⟨.stop, t⟩ records) h' ∧ next.Renews h.engine ∧ entry 9 ∈ (next.loadPersisted h'.disk).allPending ∧
    Continues h.engine (next.loadPersisted h'.disk) := by
  obtain ⟨q, hq, hpending, hblocks⟩ := queueingHas
  have hqueued := queued_queueing
  rw [← hq] at hqueued
  have hstep := step_serveOn (.enqueue (entry 9)) (Engine.new (node 1)) MemoryBus.new
  change EngineStep prims _ ⟨_, queueing.2.1⟩ queueing.1 at hstep
  rw [← hq] at hstep
  have hquiet : (attachedTo (Engine.new (node 1))).saving (.enqueue (entry 9)) q.1 = false := by
    simp [Host.saving, Call.stops, attachedTo, hblocks]
  have hnew : Host.New ⟨Engine.new (node 1), .empty, false⟩ := ⟨.inl ⟨_, rfl⟩, rfl, rfl⟩
  have hrun := Path.cons (attach_new rfl) (.cons (quiet_call hstep hquiet) (.nil _))
  obtain ⟨t, records, h', hstop⟩ := exists_stop hnew hrun
  obtain ⟨pending, rateLimiter, hfields⟩ := hqueued
  have hnext : (Engine.new (node 1)).Renews q.1 := ⟨.inl ⟨_, rfl⟩, by rw [hfields], by rw [hfields]⟩
  have hrestartable : Restartable q.1 := by
    refine ⟨by simp [hblocks], ?_, ?_, ?_⟩
    · rw [hfields]
      exact fun pe hpe => absurd hpe List.not_mem_nil
    · exact mem_activeKeys_of_unrotated (by rw [hfields]; rfl) (by rw [hfields]; rfl)
    · rw [hfields]
      exact fun _ => rfl
  have hcontinues := (restart_iff hnew hrun rfl hstop hnext).2 hrestartable
  refine ⟨_, _, _, t, records, h', _, hnew, hrun, rfl, hstop, hnext, (hcontinues.awaiting _).2 ?_, hcontinues⟩
  exact List.mem_append_right _ (by rw [hpending]; exact List.mem_singleton_self _)

/-- The second of two validators finds an entry in the pool, and the first one is silent. -/
def retaining : Engine × Trace × MemoryBus :=
  serveOn { MemoryBus.new with entries := [entry 9] } (Call.runCycle.prog prims (two 2))

def retainingHas : Computed retaining fun r => r.1.pendingEntries = [entry 9] ∧ r.1.pending = [] ∧ r.1.blocks = [] :=
  computed _ (by decide +kernel)

/-- The validator retains the entry for its next cycle. It is stopped, and the new engine does not know the entry. -/
theorem retained_lost : ∃ h₀ τ h t records h', ∃ next : Engine, h₀.New ∧ HostRun prims h₀ τ h ∧ h.attached = true ∧
    HostStep prims h (.call ⟨.stop, t⟩ records) h' ∧ next.Renews h.engine ∧ entry 9 ∈ h.engine.allPending ∧
    (next.loadPersisted h'.disk).allPending = [] ∧ ¬ Continues h.engine (next.loadPersisted h'.disk) := by
  obtain ⟨r, hr, hretained, hpending, hblocks⟩ := retainingHas
  have hstep := step_serveOn .runCycle (two 2) { MemoryBus.new with entries := [entry 9] }
  change EngineStep prims _ ⟨_, retaining.2.1⟩ retaining.1 at hstep
  rw [← hr] at hstep
  have hquiet : (attachedTo (two 2)).saving .runCycle r.1 = false := by simp [Host.saving, Call.stops, attachedTo, hblocks]
  have hfresh : (two 2).Fresh := .inr ⟨_, _, _, rfl⟩
  have hnew : Host.New ⟨two 2, .empty, false⟩ := ⟨hfresh, rfl, rfl⟩
  have hrun := Path.cons (attach_new rfl) (.cons (quiet_call hstep hquiet) (.nil _))
  obtain ⟨t, records, h', hstop⟩ := exists_stop hnew hrun
  have hsame := sameEngine_step prims hstep
  have hawaited : entry 9 ∈ r.1.allPending :=
    List.mem_append_left _ (by rw [hretained]; exact List.mem_singleton_self _)
  have hempty : ((two 2).loadPersisted h'.disk).allPending = [] := by
    rw [stopped_disk (backed_run hnew hrun) rfl hstop]
    exact hpending
  refine ⟨_, _, _, t, records, h', two 2, hnew, hrun, rfl, hstop, ⟨hfresh, hsame.node.symm, hsame.peers.symm⟩, hawaited,
    hempty, fun hc => ?_⟩
  have hkept := (hc.awaiting (entry 9)).2 hawaited
  rw [hempty] at hkept
  cases hkept

end Sample

end Gleipnir
