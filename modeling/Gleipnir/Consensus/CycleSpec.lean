import Gleipnir.Consensus.Calls
import Gleipnir.Consensus.CommitSpec

/-!
# What a cycle does

* `runs_phases`: the phases run one after the other, each only if the one before succeeded.
* `runs_cycleBody`: the ways a cycle can end (`Cycled`). A cycle that does not commit goes through `skip` or `abort`, unless
  a phase panics.
* `phases_frame`: the phases change nothing of the engine but its tree.
-/

namespace Gleipnir

open Atomic Atomic.Body

variable (X : Prims)

/-! ## The engine before the phases -/

namespace Engine

/-- The engine after `ingestGossipedEntriesLocked` and `syncKeyRotationStateLocked`. -/
def start (e : Engine) (pool : List ProvenanceEntry) : Engine :=
  (if e.hasGossip then e.ingest pool else e).syncKeyRotationState

/-- The engine after it has processed the rotations and mandates of the batch. -/
def admitBatch (e : Engine) (batch : List ProvenanceEntry) : Engine :=
  (e.processKeyRotationEntries X batch).processMandateEntries X batch

/-- The exchange of `ingestGossipedEntriesLocked`. -/
def ingestTrace (e : Engine) (pool : List ProvenanceEntry) : Trace := if e.hasGossip then [⟨.snapshot, pool⟩] else []

/-- The exchange at the end of a committed cycle. -/
def removeTrace (e : Engine) (block : Block) : Trace :=
  if e.hasGossip then [⟨.removeEntries (block.anchored.map (·.hash)), ()⟩] else []

/-- The engine in which the phases of a cycle run. -/
def ready (e : Engine) (pool : List ProvenanceEntry) : Engine := (e.start pool).admitBatch X (e.start pool).allPending

theorem start_eq (e : Engine) (pool : List ProvenanceEntry) :
    ∃ pending, e.start pool = { e with
      pendingEntries := pending
      keyRotationValidator := (e.keyRotationValidator.setValidatorSet e.state.validatorSet).setCycle e.state.cycle } := by
  unfold start
  split
  · exact ⟨_, rfl⟩
  · exact ⟨_, rfl⟩

/-- Without a channel there is no pool to ingest. -/
theorem start_alone {e : Engine} (hg : e.hasGossip = false) (pool pool' : List ProvenanceEntry) :
    e.start pool = e.start pool' := by
  simp only [start, hg, Bool.false_eq_true, if_false]

/-- What a node without a channel starts a cycle with is what it awaits. -/
theorem start_allPending {e : Engine} (hg : e.hasGossip = false) (pool : List ProvenanceEntry) :
    (e.start pool).allPending = e.allPending := by
  rw [start, if_neg (by simp [hg])]
  rfl

/-- Steps that change one field at most change it alone, however many there are. -/
theorem foldl_field {α β : Type} {step : Engine → α → Engine} (set : Engine → β → Engine) (field : Engine → β)
    (hself : ∀ e, set e (field e) = e) (hset : ∀ e v w, set (set e v) w = set e w)
    (hstep : ∀ e a, ∃ v, step e a = set e v) (as : List α) : ∀ e, ∃ v, as.foldl step e = set e v := by
  induction as with
  | nil => exact fun e => ⟨field e, (hself e).symm⟩
  | cons a as ih =>
    intro e
    obtain ⟨v, hv⟩ := hstep e a
    obtain ⟨w, hw⟩ := ih (step e a)
    exact ⟨w, by rw [List.foldl_cons, hw, hv, hset]⟩

theorem processKeyRotation_eq (e : Engine) (pe : ProvenanceEntry) :
    ∃ v, e.processKeyRotation X pe = { e with keyRotationValidator := v } := by
  unfold processKeyRotation
  split
  · exact ⟨_, rfl⟩
  · split
    · exact ⟨_, rfl⟩
    · split
      · exact ⟨_, rfl⟩
      · exact ⟨_, rfl⟩

theorem processKeyRotationEntries_eq (batch : List ProvenanceEntry) (e : Engine) :
    ∃ v, e.processKeyRotationEntries X batch = { e with keyRotationValidator := v } :=
  foldl_field (fun e v => { e with keyRotationValidator := v }) keyRotationValidator (fun _ => rfl) (fun _ _ _ => rfl)
    (processKeyRotation_eq X) batch e

theorem processMandate_eq (e : Engine) (pe : ProvenanceEntry) :
    ∃ r, e.processMandate X pe = { e with mandateResolver := r } := by
  unfold processMandate
  split
  · exact ⟨_, rfl⟩
  · split
    · exact ⟨_, rfl⟩
    · split
      · exact ⟨_, rfl⟩
      · exact ⟨_, rfl⟩

theorem processMandateEntries_eq (batch : List ProvenanceEntry) (e : Engine) :
    ∃ r, e.processMandateEntries X batch = { e with mandateResolver := r } :=
  foldl_field (fun e r => { e with mandateResolver := r }) mandateResolver (fun _ => rfl) (fun _ _ _ => rfl)
    (processMandate_eq X) batch e

/-- Before the phases only the retained entries, the key history and the mandates change. -/
theorem ready_eq (e : Engine) (pool : List ProvenanceEntry) :
    ∃ pending v r, e.ready X pool =
      { e with pendingEntries := pending, keyRotationValidator := v, mandateResolver := r } := by
  obtain ⟨pending, hs⟩ := start_eq e pool
  obtain ⟨v, hv⟩ := processKeyRotationEntries_eq X (e.start pool).allPending (e.start pool)
  obtain ⟨r, hr⟩ := processMandateEntries_eq X (e.start pool).allPending
    ((e.start pool).processKeyRotationEntries X (e.start pool).allPending)
  refine ⟨pending, v, r, ?_⟩
  rw [ready, admitBatch, hr, hv, hs]

variable (e : Engine) (pool : List ProvenanceEntry)

@[simp] theorem ready_node : (e.ready X pool).node = e.node := by
  obtain ⟨p, v, r, h⟩ := ready_eq X e pool
  rw [h]

@[simp] theorem ready_state : (e.ready X pool).state = e.state := by
  obtain ⟨p, v, r, h⟩ := ready_eq X e pool
  rw [h]

@[simp] theorem ready_st : (e.ready X pool).st = e.st := by
  obtain ⟨p, v, r, h⟩ := ready_eq X e pool
  rw [h]

@[simp] theorem ready_blocks : (e.ready X pool).blocks = e.blocks := by
  obtain ⟨p, v, r, h⟩ := ready_eq X e pool
  rw [h]

@[simp] theorem ready_anchored : (e.ready X pool).anchored = e.anchored := by
  obtain ⟨p, v, r, h⟩ := ready_eq X e pool
  rw [h]

@[simp] theorem ready_hasGossip : (e.ready X pool).hasGossip = e.hasGossip := by
  obtain ⟨p, v, r, h⟩ := ready_eq X e pool
  rw [h]

@[simp] theorem ready_peers : (e.ready X pool).peers = e.peers := by
  obtain ⟨p, v, r, h⟩ := ready_eq X e pool
  rw [h]

@[simp] theorem ready_pending : (e.ready X pool).pending = e.pending := by
  obtain ⟨p, v, r, h⟩ := ready_eq X e pool
  rw [h]

@[simp] theorem ready_pendingEntries : (e.ready X pool).pendingEntries = (e.start pool).pendingEntries := by
  obtain ⟨v, hv⟩ := processKeyRotationEntries_eq X (e.start pool).allPending (e.start pool)
  obtain ⟨r, hr⟩ := processMandateEntries_eq X (e.start pool).allPending
    ((e.start pool).processKeyRotationEntries X (e.start pool).allPending)
  rw [ready, admitBatch, hr, hv]

@[simp] theorem start_pending : (e.start pool).pending = e.pending := by
  obtain ⟨p, h⟩ := start_eq e pool
  rw [h]

/-- The retained entries stay when the pool is taken in. -/
theorem start_pendingEntries : e.pendingEntries <+: (e.start pool).pendingEntries := by
  unfold start
  split
  · exact List.prefix_append _ _
  · exact List.prefix_rfl

@[simp] theorem start_st : (e.start pool).st = e.st := by
  obtain ⟨p, h⟩ := start_eq e pool
  rw [h]

@[simp] theorem start_blocks : (e.start pool).blocks = e.blocks := by
  obtain ⟨p, h⟩ := start_eq e pool
  rw [h]

end Engine

/-! ## The phases -/

/-- A PREPARE phase that does not succeed ends the phases. -/
inductive Stopped : Exit (Except PrepareError PrepareResult) → Exit (Option (Block × Bool)) → Prop
  | panicked : Stopped .panic .panic
  | failed (err : PrepareError) : Stopped (.done (.error err)) (.done none)

/-- What the phases deliver after a COMMIT. -/
def delivered (pr : PrepareResult) : Except CommitError Block → Option (Block × Bool)
  | .error _ => none
  | .ok block => some (block, pr.quorumReached)

/-- The phases end in the first PREPARE, in the quorum check, or with the COMMIT. -/
inductive Phased (cycle : UInt64) (root : Hash) (batch : List ProvenanceEntry) (q : Nat) (e : Engine) :
    Trace → Exit (Option (Block × Bool)) → Engine → Prop
  | first {t : Trace} {y : Exit (Except PrepareError PrepareResult)} {x : Exit (Option (Block × Bool))} {e' : Engine}
      (h₁ : Runs (runPreparePhase X cycle root batch false q) e t y e') (hs : Stopped y x) :
      Phased cycle root batch q e t x e'
  | second {t₁ t₂ : Trace} {pr : PrepareResult} {y : Exit (Except PrepareError PrepareResult)}
      {x : Exit (Option (Block × Bool))} {e₁ e' : Engine}
      (h₁ : Runs (runPreparePhase X cycle root batch false q) e t₁ (.done (.ok pr)) e₁)
      (h₂ : Runs (runPreparePhase X cycle root batch true q) e₁ t₂ y e') (hs : Stopped y x) :
      Phased cycle root batch q e (t₁ ++ t₂) x e'
  | third {t₁ t₂ t₃ : Trace} {pr₁ pr₂ : PrepareResult} {r : Except CommitError Block} {e₁ e₂ : Engine}
      (h₁ : Runs (runPreparePhase X cycle root batch false q) e t₁ (.done (.ok pr₁)) e₁)
      (h₂ : Runs (runPreparePhase X cycle root batch true q) e₁ t₂ (.done (.ok pr₂)) e₂)
      (h₃ : Finalised X e₂ cycle pr₂ t₃ (.done r)) :
      Phased cycle root batch q e (t₁ ++ (t₂ ++ t₃)) (.done (delivered pr₂ r)) e₂

variable {cycle : UInt64} {root : Hash} {batch pool : List ProvenanceEntry} {q : Nat} {e e' e₂ : Engine} {t : Trace}
  {x : Exit Unit} {cq reached : Bool} {block : Block}

theorem runs_phases {x : Exit (Option (Block × Bool))} (h : Runs (runPhases X cycle root batch q) e t x e') :
    Phased X cycle root batch q e t x e' := by
  unfold runPhases at h
  rcases runs_bind.1 h with ⟨t₁, r₁, e₁, u, rfl, h₁, hu⟩ | ⟨rfl, h₁⟩
  · cases r₁ with
    | error err =>
      obtain ⟨rfl, rfl, rfl⟩ := runs_pure.1 hu
      rw [List.append_nil]
      exact .first h₁ (.failed err)
    | ok pr₁ =>
      rcases runs_bind.1 hu with ⟨t₂, r₂, e₂, v, rfl, h₂, hv⟩ | ⟨rfl, h₂⟩
      · cases r₂ with
        | error err =>
          obtain ⟨rfl, rfl, rfl⟩ := runs_pure.1 hv
          rw [List.append_nil]
          exact .second h₁ h₂ (.failed err)
        | ok pr₂ =>
          rcases runs_bind.1 hv with ⟨t₃, r₃, e₃, w, rfl, h₃, hw⟩ | ⟨-, h₃⟩
          · obtain ⟨rfl, hf⟩ := runs_commitPhase X h₃
            cases r₃ with
            | error err =>
              obtain ⟨rfl, rfl, rfl⟩ := runs_pure.1 hw
              rw [List.append_nil]
              exact .third h₁ h₂ hf
            | ok block =>
              obtain ⟨rfl, rfl, rfl⟩ := runs_pure.1 hw
              rw [List.append_nil]
              exact .third h₁ h₂ hf
          · obtain ⟨-, hf⟩ := runs_commitPhase X h₃
            cases hf
      · exact .second h₁ h₂ .panicked
  · exact .first h₁ .panicked

theorem grow_grow (e : Engine) (entries more : List ProvenanceEntry) :
    (e.grow X entries).grow X more = e.grow X (entries ++ more) := by
  simp only [Engine.grow, SparseMerkleTree.insertHashes, List.foldl_append]

/-- Obtaining a candidate inserts entries into the tree at most. -/
theorem obtained_grow {p : Peer} {am : Bool} {y : Exit (Except PrepareError Block)}
    (h : Obtained X e cycle p batch cq q am t y e') : ∃ entries, e' = e.grow X entries := by
  cases h with
  | nothing err ht => exact ⟨[], rfl⟩
  | readBack block ham hg hcq => exact ⟨[], rfl⟩
  | built entries now ham hcq hpend hpool ht => exact ⟨entries, rfl⟩
  | judged block ham hg ht hread hv => exact ⟨block.anchored, rfl⟩

theorem prepare_grow {x : Exit (Except PrepareError PrepareResult)}
    (h : Runs (runPreparePhase X cycle root batch cq q) e t x e') : ∃ entries, e' = e.grow X entries := by
  obtain ⟨t₁, -, ⟨-, ⟨rfl, -⟩, -⟩ | ⟨p, t₂, t₃, y, -, -, ho, -⟩⟩ := runs_preparePhase X h
  · exact ⟨[], rfl⟩
  · exact obtained_grow X ho

theorem prepare_frame {x : Exit (Except PrepareError PrepareResult)}
    (h : Runs (runPreparePhase X cycle root batch cq q) e t x e') : ∃ st, e' = { e with st := st } := by
  obtain ⟨entries, rfl⟩ := prepare_grow X h
  exact ⟨_, rfl⟩

/-- The phases insert entries into the tree at most. -/
theorem phases_grow {x : Exit (Option (Block × Bool))} (h : Runs (runPhases X cycle root batch q) e t x e') :
    ∃ entries, e' = e.grow X entries := by
  cases runs_phases X h with
  | first h₁ hs => exact prepare_grow X h₁
  | second h₁ h₂ hs =>
    obtain ⟨entries, rfl⟩ := prepare_grow X h₁
    obtain ⟨more, rfl⟩ := prepare_grow X h₂
    exact ⟨entries ++ more, grow_grow X e entries more⟩
  | third h₁ h₂ h₃ =>
    obtain ⟨entries, rfl⟩ := prepare_grow X h₁
    obtain ⟨more, rfl⟩ := prepare_grow X h₂
    exact ⟨entries ++ more, grow_grow X e entries more⟩

/-- The phases change the tree at most. -/
theorem phases_frame {x : Exit (Option (Block × Bool))} (h : Runs (runPhases X cycle root batch q) e t x e') :
    ∃ st, e' = { e with st := st } := by
  obtain ⟨entries, rfl⟩ := phases_grow X h
  exact ⟨_, rfl⟩

/-- A delivered block has its quorum. -/
theorem reached_of_phases (h : Runs (runPhases X cycle root batch q) e t (.done (some (block, reached))) e₂) :
    reached = true := by
  generalize hx : (Exit.done (some (block, reached)) : Exit (Option (Block × Bool))) = x at h
  cases runs_phases X h with
  | first h₁ hs => cases hs <;> cases hx
  | second h₁ h₂ hs => cases hs <;> cases hx
  | third h₁ h₂ h₃ =>
    cases h₃ with
    | failed err ht => cases hx
    | led hq hl ht =>
      cases hx
      exact hq
    | followed hq hl hg ht hread hcheck =>
      cases hx
      exact hq

@[simp] theorem ready_activeValidators (e : Engine) (pool : List ProvenanceEntry) :
    (e.ready X pool).activeValidators = e.activeValidators := by simp [Engine.activeValidators]

/-! ## The cycle -/

/-- A cycle of `e` that took `pool` in has nothing to anchor. -/
def Engine.Skips (e : Engine) (pool : List ProvenanceEntry) : Prop :=
  (e.start pool).allPending = [] ∧ (e.start pool).cfg.skipEmptyCycles = true

/-- The phases of a cycle of `e` that took `pool` in. -/
abbrev Engine.Phases (e : Engine) (pool : List ProvenanceEntry) : Trace → Exit (Option (Block × Bool)) → Engine → Prop :=
  Runs (runPhases X e.nextCycle e.st.root (e.start pool).allPending (e.ready X pool).requiredQuorum) (e.ready X pool)

/-- What a cycle of `e` that took `pool` in makes of a delivered block. -/
abbrev Engine.concluded (e : Engine) (pool : List ProvenanceEntry) (e₂ : Engine) (reached : Bool) (block : Block) :
    Engine × Option Block :=
  e₂.conclude X (e.start pool).allPending e.st (e.ready X pool).activeValidators reached block

/-- The ways a cycle of `e` ends. -/
inductive Cycled (e : Engine) : Trace → Exit Unit → Engine → Prop
  | skipped {pool : List ProvenanceEntry} (hs : e.Skips pool) :
      Cycled e (e.ingestTrace pool) (.done ()) (e.start pool).skip
  | panicked {pool : List ProvenanceEntry} {t : Trace} {e₂ : Engine} (hs : ¬ e.Skips pool)
      (h : e.Phases X pool t .panic e₂) : Cycled e (e.ingestTrace pool ++ t) .panic e₂
  | aborted {pool : List ProvenanceEntry} {t : Trace} {e₂ : Engine} (hs : ¬ e.Skips pool)
      (h : e.Phases X pool t (.done none) e₂) :
      Cycled e (e.ingestTrace pool ++ t) (.done ()) (e₂.abort (e.start pool).allPending e.st)
  | failed {pool : List ProvenanceEntry} {t : Trace} {block : Block} {reached : Bool} {e₂ : Engine}
      (hs : ¬ e.Skips pool) (h : e.Phases X pool t (.done (some (block, reached))) e₂)
      (hc : (e.concluded X pool e₂ reached block).2 = none) :
      Cycled e (e.ingestTrace pool ++ t) (.done ()) (e.concluded X pool e₂ reached block).1
  | committed {pool : List ProvenanceEntry} {t : Trace} {block final : Block} {reached : Bool} {e₂ : Engine}
      (hs : ¬ e.Skips pool) (h : e.Phases X pool t (.done (some (block, reached))) e₂)
      (hc : (e.concluded X pool e₂ reached block).2 = some final) :
      Cycled e (e.ingestTrace pool ++ (t ++ e.removeTrace final)) (.done ()) (e.concluded X pool e₂ reached block).1

theorem runs_ingest (h : Runs ingestGossipedEntries e t x e') :
    ∃ pool, x = .done () ∧ t = e.ingestTrace pool ∧ e' = if e.hasGossip then e.ingest pool else e := by
  unfold ingestGossipedEntries at h
  rw [runs_get_bind] at h
  cases hg : e.hasGossip with
  | true =>
    rw [if_pos hg] at h
    obtain ⟨pool, t₁, rfl, h₁⟩ := runs_perform_bind.1 h
    obtain ⟨rfl, rfl, rfl⟩ := runs_modify.1 h₁
    exact ⟨pool, rfl, by simp [Engine.ingestTrace, hg], by simp⟩
  | false =>
    rw [if_neg (by simp [hg])] at h
    obtain ⟨rfl, rfl, rfl⟩ := runs_pure.1 h
    exact ⟨[], rfl, by simp [Engine.ingestTrace, hg], by simp⟩

theorem runs_removeCommitted (h : Runs (removeCommitted block) e t x e') : x = .done () ∧ t = e.removeTrace block ∧ e' = e := by
  unfold removeCommitted at h
  rw [runs_get_bind] at h
  unfold Engine.removeTrace
  split at h
  · next hg =>
    obtain ⟨⟨⟩, rfl, rfl, rfl⟩ := runs_perform.1 h
    exact ⟨rfl, by rw [if_pos hg], rfl⟩
  · next hg =>
    obtain ⟨rfl, rfl, rfl⟩ := runs_pure.1 h
    exact ⟨rfl, by rw [if_neg hg], rfl⟩

/-- The end of an attempt: a committed block takes its entries out of the pool. -/
def settle : Option Block → EngineM Unit
  | none => return ()
  | some final => removeCommitted final

/-- The engine after the degraded-mode transition. -/
def Engine.transit (e : Engine) (n : Nat) (reached : Bool) : Engine :=
  { e with degraded := (e.degraded.checkDegradedTransition n reached).1 }

section Conclude

variable {X} {e : Engine} {batch : List ProvenanceEntry} {st : SparseMerkleTree} {n : Nat} {reached : Bool} {block : Block}

theorem conclude_none (h : (e.conclude X batch st n reached block).2 = none) :
    (e.conclude X batch st n reached block).1 = (e.transit n reached).abort batch st := by
  unfold Engine.conclude at h ⊢
  dsimp only at h ⊢
  split
  · rfl
  · next hd =>
    simp only [hd] at h
    split
    · rfl
    · next ha =>
      simp only [ha] at h
      cases h

theorem conclude_some {final : Block} (h : (e.conclude X batch st n reached block).2 = some final) :
    ∃ next, (e.transit n reached).degraded.applyDegradedBlock X block e.peers = some final ∧
      apply X e.state e.state.supervisionRoot [e.node.uid.id] e.cfg = .ok next ∧
      (e.conclude X batch st n reached block).1 = (e.transit n reached).appendBlock next final := by
  unfold Engine.conclude at h ⊢
  dsimp only at h ⊢
  split at h
  · cases h
  · next hd =>
    split at h
    · cases h
    · next next ha =>
      cases h
      exact ⟨next, hd, ha, rfl⟩

theorem conclude_hasGossip : (e.conclude X batch st n reached block).1.hasGossip = e.hasGossip := by
  cases h : (e.conclude X batch st n reached block).2 with
  | none => rw [conclude_none h]; rfl
  | some final =>
    obtain ⟨next, -, -, hc⟩ := conclude_some h
    rw [hc]
    rfl

end Conclude

/-- A cycle whose block was concluded has appended it. -/
theorem concluded_blocks {y : Exit (Option (Block × Bool))} {final : Block} (hp : e.Phases X pool t y e₂)
    (hc : (e.concluded X pool e₂ reached block).2 = some final) :
    (e.concluded X pool e₂ reached block).1.blocks = e.blocks ++ [final] := by
  obtain ⟨next, -, -, hpost⟩ := conclude_some hc
  obtain ⟨st, hframe⟩ := phases_frame X hp
  have hbefore : e₂.blocks = e.blocks := by rw [hframe, Engine.ready_blocks]
  rw [hpost, ← hbefore]
  rfl

/-- What follows the phases of a cycle that delivered a block. -/
theorem runs_settle {v : Trace} (hs : ¬ e.Skips pool) (h : e.Phases X pool t (.done (some (block, reached))) e₂)
    (hv : Runs (settle (e.concluded X pool e₂ reached block).2) (e.concluded X pool e₂ reached block).1 v x e') :
    Cycled X e (e.ingestTrace pool ++ (t ++ v)) x e' := by
  cases hc : (e.concluded X pool e₂ reached block).2 with
  | none =>
    rw [hc] at hv
    obtain ⟨rfl, rfl, rfl⟩ := runs_pure.1 hv
    rw [List.append_nil]
    exact .failed hs h hc
  | some final =>
    rw [hc] at hv
    obtain ⟨rfl, rfl, rfl⟩ := runs_removeCommitted hv
    have hg : e₂.hasGossip = e.hasGossip := by
      obtain ⟨st, rfl⟩ := phases_frame X h
      simp
    have hr : (e.concluded X pool e₂ reached block).1.removeTrace final = e.removeTrace final := by
      simp only [Engine.removeTrace, Engine.concluded, conclude_hasGossip, hg]
    rw [hr]
    exact .committed hs h hc

/-- A cycle with entries to anchor. -/
theorem runs_attemptCycle {u : Trace} (hs : ¬ e.Skips pool)
    (hu : Runs (attemptCycle X (e.start pool).nextCycle (e.start pool).allPending (e.start pool).st) (e.start pool) u x e') :
    Cycled X e (e.ingestTrace pool ++ u) x e' := by
  unfold attemptCycle at hu
  rw [runs_modify_bind, runs_get_bind] at hu
  change Runs (runPhases X (e.start pool).nextCycle (e.ready X pool).st.root (e.start pool).allPending
    (e.ready X pool).requiredQuorum >>= _) (e.ready X pool) u x e' at hu
  have hcycle : (e.start pool).nextCycle = e.nextCycle := by simp [Engine.nextCycle]
  rw [hcycle, Engine.ready_st, Engine.start_st] at hu
  rcases runs_bind.1 hu with ⟨t₂, r, e₂, v, rfl, h₂, hv⟩ | ⟨rfl, h₂⟩
  · cases r with
    | none =>
      obtain ⟨rfl, rfl, rfl⟩ := runs_modify.1 hv
      rw [List.append_nil]
      exact .aborted hs h₂
    | some br =>
      simp only [runs_get_bind] at hv
      rw [runs_modify_bind] at hv
      exact runs_settle X hs h₂ hv
  · exact .panicked hs h₂

/-- **The ways a cycle ends.** -/
theorem runs_cycleBody (h : Runs (cycleBody X) e t x e') : Cycled X e t x e' := by
  unfold cycleBody at h
  rcases runs_bind.1 h with ⟨t₁, _, e₁, u, rfl, h₁, hu⟩ | ⟨-, h₁⟩
  · obtain ⟨pool, -, rfl, rfl⟩ := runs_ingest h₁
    rw [runs_modify_bind, runs_get_bind] at hu
    change Runs (if (e.start pool).allPending = [] ∧ (e.start pool).cfg.skipEmptyCycles = true then modify Engine.skip
      else attemptCycle X (e.start pool).nextCycle (e.start pool).allPending (e.start pool).st) (e.start pool) u x e' at hu
    split at hu
    · next hs =>
      obtain ⟨rfl, rfl, rfl⟩ := runs_modify.1 hu
      rw [List.append_nil]
      exact .skipped hs
    · next hs => exact runs_attemptCycle X hs hu
  · obtain ⟨-, h, -⟩ := runs_ingest h₁
    cases h

variable {X} in
/-- A cycle inserts entries into the tree at most. -/
theorem Cycled.tree (h : Cycled X e t x e') : ∃ entries, e'.st = e.st.insertHashes X entries := by
  have hphases : ∀ {pool t y e₂}, e.Phases X pool t y e₂ → ∃ entries, e₂.st = e.st.insertHashes X entries := by
    intro pool t y e₂ hp
    obtain ⟨entries, rfl⟩ := phases_grow X hp
    exact ⟨entries, by simp [Engine.grow]⟩
  cases h with
  | skipped hs => exact ⟨[], Engine.start_st ..⟩
  | panicked hs hp => exact hphases hp
  | aborted hs hp => exact ⟨[], rfl⟩
  | failed hs hp hc =>
    rw [Engine.concluded, conclude_none hc]
    exact ⟨[], rfl⟩
  | committed hs hp hc =>
    obtain ⟨next, -, -, hpost⟩ := conclude_some hc
    obtain ⟨entries, hst⟩ := hphases hp
    rw [Engine.concluded, hpost]
    exact ⟨entries, hst⟩

/-- A run of `RunCycle`: a panic goes unnoticed. -/
theorem run_runCycle (h : Run (runCycle X e) t e') : ∃ x, Cycled X e t x e' := by
  obtain ⟨⟨x, s⟩, rfl, h⟩ := run_map.1 h
  exact ⟨x, runs_cycleBody X h⟩

end Gleipnir
