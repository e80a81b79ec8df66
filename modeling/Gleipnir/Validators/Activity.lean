import Gleipnir.Consensus.Agreement
import Mathlib.Tactic.Linarith
import Mathlib.Tactic.NormNum
import Mathlib.Tactic.Ring

/-!
# How long a validator stays electable

Every committed block applies the state transition with the heartbeat of the node itself and no other, so in the state of
each node the others lose a twentieth of their status with every block, whether they take part or not. `inactive_iff`: an
engine holds another validator for inactive from the twentieth block on. `rejects_iff`: from then on, and not before, a cycle
that elects another validator ends there.
-/

namespace Gleipnir

open Atomic Atomic.Body

variable {X : Prims}

/-! ## The end of a PREPARE phase -/

/-- The result is not the refusal of an inactive proposer. -/
def NotInactive {α : Type} (r : Except PrepareError α) : Prop := ∀ id, r ≠ .error (.inactive id)

theorem yields_elect (cycle : UInt64) (root : Hash) : Yields NotInactive (elect X cycle root) := by
  refine yields_bind fun e => ?_
  split
  · exact yields_pure fun _ h => by cases h
  · refine yields_bind fun _ => yields_bind fun proofs => ?_
    split
    · exact yields_pure fun _ h => by cases h
    · exact yields_pure fun _ h => by cases h

theorem yields_buildCandidate (cycle : UInt64) (p : Peer) (entries : List ProvenanceEntry) (q : Nat) :
    Yields NotInactive (buildCandidate X cycle p entries q) := by
  have hok : ∀ block : Block, NotInactive (.ok block) := fun _ _ h => by cases h
  refine yields_ite (yields_pure fun _ h => by cases h) ?_
  refine yields_bind fun e => yields_bind fun now => yields_bind fun _ => yields_ite ?_ (yields_pure (hok _))
  exact yields_bind fun _ => yields_bind fun _ => yields_pure (hok _)

theorem yields_voteOn (cycle : UInt64) (p : Peer) (block : Block) : Yields NotInactive (voteOn X cycle p block) := by
  refine yields_bind fun e => yields_ite (yields_pure fun _ h => by cases h) ?_
  refine yields_ite (yields_pure fun _ h => by cases h) ?_
  split
  · exact yields_panic
  · refine yields_ite (yields_bind fun _ => yields_pure fun _ h => by cases h) (yields_pure fun _ h => by cases h)

/-- No candidate is missing for want of an active proposer. -/
theorem yields_obtainCandidate (cycle : UInt64) (p : Peer) (batch : List ProvenanceEntry) (cq : Bool) (q : Nat) (am : Bool) :
    Yields NotInactive (obtainCandidate X cycle p batch cq q am) := by
  refine yields_ite ?_ ?_
  · refine yields_bind fun e => yields_ite (yields_ite ?_ ?_) (yields_buildCandidate _ _ _ _)
    · refine yields_bind fun found => ?_
      cases found with
      | none => exact yields_pure fun _ h => by cases h
      | some block => exact yields_pure fun _ h => by cases h
    · exact yields_bind fun entries => yields_buildCandidate _ _ _ _
  · refine yields_bind fun e => yields_ite ?_ (yields_pure fun _ h => by cases h)
    refine yields_bind fun found => ?_
    cases found with
    | none => exact yields_pure fun _ h => by cases h
    | some block => exact yields_bind fun _ => yields_voteOn _ _ _

variable {e e' : Engine} {t : Trace} {id : String} {l : Called}

/-- **A PREPARE phase ends with the refusal of a proposer** exactly if it has elected it and holds it for inactive. -/
theorem prepare_rejects_iff {cycle : UInt64} {root : Hash} {batch : List ProvenanceEntry} {cq : Bool} {q : Nat} :
    Runs (runPreparePhase X cycle root batch cq q) e t (.done (.error (.inactive id))) e' ↔
      e' = e ∧ ∃ p, Runs (elect X cycle root) e t (.done (.ok p)) e ∧ p.uid.id = id ∧ e.inactive id = true := by
  unfold runPreparePhase
  constructor
  · intro h
    obtain ⟨t₁, r, e₁, t₂, rfl, h₁, h₂⟩ := runs_bind_done.1 h
    obtain ⟨rfl, -⟩ := runs_elect X h₁
    cases r with
    | error err =>
      obtain ⟨-, herr, -⟩ := runs_pure.1 h₂
      cases herr
      exact absurd rfl (yields_elect _ _ _ _ _ _ h₁ id)
    | ok p =>
      rw [runs_get_bind] at h₂
      split at h₂
      · next hinactive =>
        obtain ⟨rfl, herr, rfl⟩ := runs_pure.1 h₂
        cases herr
        exact ⟨rfl, p, by rwa [List.append_nil], rfl, hinactive⟩
      · -- the phase goes on and ends otherwise
        obtain ⟨t₃, y, e₂, t₄, rfl, h₃, h₄⟩ := runs_bind_done.1 h₂
        cases y with
        | error err =>
          obtain ⟨-, herr, -⟩ := runs_pure.1 h₄
          cases herr
          exact absurd rfl (yields_obtainCandidate _ _ _ _ _ _ _ _ _ _ h₃ id)
        | ok block =>
          obtain ⟨t₅, pr, e₃, t₆, -, -, h₆⟩ := runs_bind_done.1 h₄
          obtain ⟨-, herr, -⟩ := runs_pure.1 h₆
          cases herr
  · rintro ⟨rfl, p, helect, rfl, hinactive⟩
    refine runs_bind_done.2 ⟨t, .ok p, _, [], (List.append_nil t).symm, helect, ?_⟩
    rw [runs_get_bind, if_pos hinactive]
    exact runs_pure.2 ⟨rfl, rfl, rfl⟩

/-! ## The status of a validator -/

/-- What is left of the status of a silent validator after `k` blocks. -/
def decayed (k : Nat) : ℚ := max 0 (1 - k * (5 / 100))

theorem decayed_succ (k : Nat) :
    (if decayed k - 5 / 100 < 0 then 0 else decayed k - 5 / 100) = decayed (k + 1) := by
  unfold decayed
  push_cast
  rcases le_total (0 : ℚ) (1 - k * (5 / 100)) with h | h
  · rw [max_eq_right h]
    split
    · next hneg => rw [max_eq_left (by linarith)]
    · next hpos => rw [max_eq_right (by linarith)]; ring
  · rw [max_eq_left h, if_pos (by norm_num), max_eq_left (by linarith)]

/-- Nothing is left after twenty blocks. -/
theorem decayed_nonpos_iff (k : Nat) : decayed k ≤ 0 ↔ 20 ≤ k := by
  unfold decayed
  rw [max_le_iff]
  constructor
  · rintro ⟨-, h⟩
    have hk : (20 : ℚ) ≤ k := by linarith
    exact_mod_cast hk
  · intro h
    have hk : (20 : ℚ) ≤ k := by exact_mod_cast h
    exact ⟨le_rfl, by linarith⟩

/-- The node itself is always fully there; every other one has decayed since the first block. -/
def Engine.standing (e : Engine) (id : String) : ℚ := if id = e.node.uid.id then 1 else decayed e.blocks.length

/-- The network state of an engine knows the node and its peers, each with its standing. -/
structure Aged (e : Engine) : Prop where
  cfg : e.cfg = defaultConfig
  known : ∀ id, id ∈ e.state.nodes ↔ id = e.node.uid.id ∨ id ∈ e.peers.map (·.uid.id)
  status : ∀ id n, e.state.nodes.lookup id = some n → n.status = e.standing id

/-! ### At the start -/

theorem mem_registerNodes (peers : List Peer) (id : String) : ∀ nodes : AList fun _ : String => NodeState,
    id ∈ registerNodes nodes peers ↔ id ∈ nodes ∨ id ∈ peers.map (·.uid.id) := by
  induction peers with
  | nil => simp [registerNodes]
  | cons p peers ih =>
    intro nodes
    have hcons : registerNodes nodes (p :: peers) = registerNodes (if p.uid.id ∈ nodes then nodes else _) peers := rfl
    rw [hcons, ih, List.map_cons, List.mem_cons]
    split
    · next hmem =>
      constructor
      · exact fun h => h.imp_right .inr
      · rintro (h | rfl | h)
        · exact .inl h
        · exact .inl hmem
        · exact .inr h
    · rw [AList.mem_insert]
      tauto

/-- Whoever is registered starts with the full status. -/
theorem status_registerNodes (peers : List Peer) : ∀ nodes : AList fun _ : String => NodeState,
    (∀ id n, nodes.lookup id = some n → n.status = 1) →
      ∀ id n, (registerNodes nodes peers).lookup id = some n → n.status = 1 := by
  induction peers with
  | nil => exact fun nodes h => h
  | cons p peers ih =>
    intro nodes h
    refine ih _ fun id n hn => ?_
    dsimp only at hn
    split at hn
    · exact h id n hn
    · by_cases hid : id = p.uid.id
      · subst hid
        rw [AList.lookup_insert] at hn
        obtain rfl := Option.some.inj hn
        rfl
      · rw [AList.lookup_insert_ne hid] at hn
        exact h id n hn

theorem status_newEngine {node : Node} {hasGossip : Bool} {peers : List Peer} {n : NodeState}
    (h : (newEngine node hasGossip peers).state.nodes.lookup id = some n) : n.status = 1 := by
  have hmem := AList.mem_lookup_iff.1 h
  obtain ⟨-, h⟩ := Sigma.mk.inj (List.mem_singleton.1 hmem)
  cases h
  rfl

theorem decayed_zero : decayed 0 = 1 := by norm_num [decayed]

theorem aged_fresh (h : e.Fresh) : Aged e := by
  have hstanding : ∀ id, e.standing id = 1 := by
    intro id
    unfold Engine.standing
    rw [h.blank.blocks, List.length_nil, decayed_zero, ite_self]
  rcases h with ⟨node, rfl⟩ | ⟨node, hasGossip, peers, rfl⟩
  · refine ⟨rfl, fun id => ?_, fun id n hn => ?_⟩
    · have hself : id ∈ (Engine.new node).peers.map (·.uid.id) ↔ id = (Engine.new node).node.uid.id := List.mem_singleton
      rw [hself, or_self]
      exact List.mem_singleton
    · rw [hstanding]
      exact status_newEngine hn
  · refine ⟨rfl, fun id => ?_, fun id n hn => ?_⟩
    · exact (mem_registerNodes peers id _).trans (or_congr_left List.mem_singleton)
    · rw [hstanding]
      exact status_registerNodes peers _ (fun _ _ => status_newEngine) id n hn

/-! ### Along a run -/

/-- What a transition does to the nodes: nothing, or one beat with a block. -/
def Counts (e e' : Engine) : Prop :=
  (e'.blocks = e.blocks ∧ e'.state.nodes = e.state.nodes) ∨
    ((∃ b, e'.blocks = e.blocks ++ [b]) ∧ e'.state.nodes = mapNodes (beat [e.node.uid.id] e.cfg) e.state.nodes)

theorem ready_cfg (e : Engine) (pool : List ProvenanceEntry) : (e.ready X pool).cfg = e.cfg := by
  obtain ⟨p, v, r, h⟩ := e.ready_eq X pool
  rw [h]

theorem Committing.counts (cm : Committing X e t e') : Counts e e' ∧ e'.cfg = e.cfg := by
  obtain ⟨st, hframe⟩ := cm.frame
  have hnode : cm.e₂.node = e.node := by rw [hframe, Engine.ready_node]
  have hstate : cm.e₂.state = e.state := by rw [hframe, Engine.ready_state]
  have hcfg : cm.e₂.cfg = e.cfg := by rw [hframe, ready_cfg]
  have hnext := apply_nodes X cm.moved
  rw [hnode, hstate, hcfg] at hnext
  have hnodes : e'.state.nodes = cm.next.nodes := congrArg (fun e : Engine => e.state.nodes) cm.post
  have hpost := congrArg Engine.cfg cm.post
  exact ⟨.inr ⟨⟨_, cm.blocks_eq⟩, hnodes.trans hnext⟩, hpost.trans hcfg⟩

theorem counts_cycle {x : Exit Unit} (h : Cycled X e t x e') : Counts e e' ∧ e'.cfg = e.cfg := by
  rcases cycle_blocks X h with hblocks | ⟨⟨cm⟩⟩
  · have hkept : e'.state.nodes = e.state.nodes ∧ e'.cfg = e.cfg := by
      have hphases : ∀ {pool t y e₂}, e.Phases X pool t y e₂ → e₂.state.nodes = e.state.nodes ∧ e₂.cfg = e.cfg := by
        intro pool t y e₂ hp
        obtain ⟨st, rfl⟩ := phases_frame X hp
        exact ⟨by simp, ready_cfg e pool⟩
      cases h with
      | @skipped pool hs =>
        obtain ⟨pending, hstart⟩ := e.start_eq pool
        rw [hstart]
        exact ⟨rfl, rfl⟩
      | panicked hs hp => exact hphases hp
      | aborted hs hp =>
        obtain ⟨hnodes, hcfg⟩ := hphases hp
        exact ⟨hnodes, hcfg⟩
      | failed hs hp hc =>
        rw [conclude_none hc]
        obtain ⟨hnodes, hcfg⟩ := hphases hp
        exact ⟨hnodes, hcfg⟩
      | committed hs hp hc =>
        rw [concluded_blocks X hp hc] at hblocks
        simp at hblocks
    exact ⟨.inl ⟨hblocks, hkept.1⟩, hkept.2⟩
  · exact cm.counts

theorem counts_step (h : EngineStep X e l e') : Counts e e' ∧ e'.cfg = e.cfg := by
  by_cases hc : l.call = .runCycle
  · rw [EngineStep, hc] at h
    obtain ⟨x, hcycled⟩ := run_runCycle X h
    exact counts_cycle hcycled
  · obtain ⟨⟨x, s⟩, rfl, hrun⟩ := run_map.1 h
    cases filed_call X hc hrun with
    | nothing hwork ht =>
      simp only [Engine.work, Prod.mk.injEq] at hwork
      obtain ⟨-, hstate, hcfg, -, hblocks, -⟩ := hwork
      exact ⟨.inl ⟨hblocks, by rw [hstate]⟩, hcfg⟩
    | queued entry hwork hadmits ht =>
      simp only [Engine.work, Engine.push, Prod.mk.injEq] at hwork
      obtain ⟨-, hstate, hcfg, -, hblocks, -⟩ := hwork
      exact ⟨.inl ⟨hblocks, by rw [hstate]⟩, hcfg⟩

/-- **One step** keeps the record of an engine in line with its chain. -/
theorem aged_step (hstep : EngineStep X e l e') (h : Aged e) : Aged e' := by
  obtain ⟨hcounts, hcfg⟩ := counts_step hstep
  have hsame := sameEngine_step X hstep
  rcases hcounts with ⟨hblocks, hnodes⟩ | ⟨⟨b, hblocks⟩, hnodes⟩
  · refine ⟨hcfg.trans h.cfg, fun id => ?_, fun id n hn => ?_⟩
    · rw [hnodes, hsame.node, hsame.peers]
      exact h.known id
    · rw [hnodes] at hn
      rw [h.status id n hn, Engine.standing, Engine.standing, hsame.node, hblocks]
  · refine ⟨hcfg.trans h.cfg, fun id => ?_, fun id n hn => ?_⟩
    · rw [hnodes, hsame.node, hsame.peers, ← h.known id, ← AList.lookup_isSome, lookup_mapNodes, Option.isSome_map,
        AList.lookup_isSome]
    · rw [hnodes, lookup_mapNodes] at hn
      obtain ⟨m, hm, rfl⟩ := Option.map_eq_some_iff.1 hn
      have hstatus := h.status id m hm
      unfold Engine.standing at hstatus ⊢
      rw [hsame.node, hblocks, List.length_append, List.length_singleton]
      by_cases hid : id = e.node.uid.id
      · -- the heartbeat of the node itself
        rw [if_pos hid]
        simp [beat, hid]
      · rw [if_neg hid] at hstatus ⊢
        rw [← decayed_succ, ← hstatus]
        simp [beat, hid, h.cfg, defaultConfig]

/-- **The record of a run.** -/
theorem aged_run {e₀ : Engine} {τ : List (Transition Engine Called)} (hf : e₀.Fresh) (h : EngineRun X e₀ τ e) : Aged e :=
  h.preserves (fun _ _ _ hstep hinv => aged_step hstep hinv) (aged_fresh hf)

/-- **Who is inactive**: every other validator, from the twentieth block on. -/
theorem inactive_iff (h : Aged e) (id : String) : e.inactive id = true ↔
    id ≠ e.node.uid.id ∧ id ∈ e.peers.map (·.uid.id) ∧ 20 ≤ e.blocks.length := by
  unfold Engine.inactive
  cases hn : e.state.nodes.lookup id with
  | none =>
    have hnot : ¬ (id = e.node.uid.id ∨ id ∈ e.peers.map (·.uid.id)) := by
      rw [← h.known]
      exact AList.lookup_eq_none.1 hn
    rw [not_or] at hnot
    exact ⟨fun hf => (by cases hf), fun hall => absurd hall.2.1 hnot.2⟩
  | some n =>
    have hmem : id = e.node.uid.id ∨ id ∈ e.peers.map (·.uid.id) := by
      rw [← h.known, ← AList.lookup_isSome, hn]
      rfl
    simp only [decide_eq_true_eq, h.status id n hn, Engine.standing]
    by_cases hid : id = e.node.uid.id
    · rw [if_pos hid]
      exact ⟨fun hone => absurd hone (not_le.2 one_pos), fun hall => absurd hid hall.1⟩
    · rw [if_neg hid, decayed_nonpos_iff]
      exact ⟨fun hlong => ⟨hid, hmem.resolve_left hid, hlong⟩, fun hall => hall.2.2⟩

/-! ## The proposer of a cycle -/

/-- The exchange `t` is that of a cycle of `e` up to an election, of the first PREPARE phase or of the quorum check, that
elects `p`. -/
inductive Elects (X : Prims) (e : Engine) (t : Trace) (p : Peer) : Prop
  | first {pool : List ProvenanceEntry} {u : Trace} (ht : t = e.ingestTrace pool ++ u) (hs : ¬ e.Skips pool)
      (h : Runs (elect X e.nextCycle e.st.root) (e.ready X pool) u (.done (.ok p)) (e.ready X pool))
  | second {pool : List ProvenanceEntry} {u v : Trace} {pr : PrepareResult} {e₁ : Engine}
      (ht : t = e.ingestTrace pool ++ (u ++ v)) (hs : ¬ e.Skips pool)
      (h₁ : e.Prepares X pool false (e.ready X pool) u (.done (.ok pr)) e₁)
      (h : Runs (elect X e.nextCycle e.st.root) e₁ v (.done (.ok p)) e₁)

/-- The exchange `t` is that of a cycle of `e` up to a PREPARE phase that refuses the proposer `id` as inactive. -/
inductive Rejects (X : Prims) (e : Engine) (t : Trace) (id : String) : Prop
  | first {pool : List ProvenanceEntry} {u : Trace} {e₁ : Engine} (ht : t = e.ingestTrace pool ++ u) (hs : ¬ e.Skips pool)
      (h : e.Prepares X pool false (e.ready X pool) u (.done (.error (.inactive id))) e₁)
  | second {pool : List ProvenanceEntry} {u v : Trace} {pr : PrepareResult} {e₁ e₂ : Engine}
      (ht : t = e.ingestTrace pool ++ (u ++ v)) (hs : ¬ e.Skips pool)
      (h₁ : e.Prepares X pool false (e.ready X pool) u (.done (.ok pr)) e₁)
      (h : e.Prepares X pool true e₁ v (.done (.error (.inactive id))) e₂)

theorem inactive_ready (e : Engine) (pool : List ProvenanceEntry) (id : String) :
    (e.ready X pool).inactive id = e.inactive id := by
  unfold Engine.inactive
  rw [Engine.ready_state]

theorem inactive_prepared {e₁ : Engine} {pool : List ProvenanceEntry} {cq : Bool} {x : Exit (Except PrepareError PrepareResult)}
    (h : e.Prepares X pool cq (e.ready X pool) t x e₁) (id : String) : e₁.inactive id = e.inactive id := by
  obtain ⟨st, rfl⟩ := prepare_frame X h
  exact inactive_ready e pool id

theorem rejects_iff_inactive : Rejects X e t id ↔ (∃ p, Elects X e t p ∧ p.uid.id = id) ∧ e.inactive id = true := by
  constructor
  · rintro (⟨ht, hs, h⟩ | ⟨ht, hs, h₁, h⟩)
    · obtain ⟨rfl, p, helect, hid, hinactive⟩ := prepare_rejects_iff.1 h
      rw [inactive_ready] at hinactive
      exact ⟨⟨p, .first ht hs helect, hid⟩, hinactive⟩
    · obtain ⟨rfl, p, helect, hid, hinactive⟩ := prepare_rejects_iff.1 h
      rw [inactive_prepared h₁] at hinactive
      exact ⟨⟨p, .second ht hs h₁ helect, hid⟩, hinactive⟩
  · rintro ⟨⟨p, ⟨ht, hs, helect⟩ | ⟨ht, hs, h₁, helect⟩, hid⟩, hinactive⟩
    · rw [← inactive_ready] at hinactive
      exact .first ht hs (prepare_rejects_iff.2 ⟨rfl, p, helect, hid, hinactive⟩)
    · rw [← inactive_prepared h₁] at hinactive
      exact .second ht hs h₁ (prepare_rejects_iff.2 ⟨rfl, p, helect, hid, hinactive⟩)

/-- **Who is refused.** In every state of every run of an engine: a cycle refuses a proposer as inactive exactly if it has
elected it, it is another one of the validators, and twenty blocks or more have been committed. -/
theorem rejects_iff {e₀ e : Engine} {τ : List (Transition Engine Called)} (hf : e₀.Fresh) (h : EngineRun X e₀ τ e)
    (t : Trace) (id : String) : Rejects X e t id ↔ (∃ p, Elects X e t p ∧ p.uid.id = id) ∧
      id ≠ e.node.uid.id ∧ id ∈ e.peers.map (·.uid.id) ∧ 20 ≤ e.blocks.length := by
  rw [rejects_iff_inactive, inactive_iff (aged_run hf h)]

namespace Sample

/-- A cycle on a bus until its first election. -/
def election (e : Engine) (b : MemoryBus) : (Exit (Except PrepareError Peer) × Engine) × Trace × MemoryBus :=
  serveOn b (.call .snapshot fun pool => elect prims e.nextCycle e.st.root (e.ready prims pool))

/-- Whom an election chose. -/
def chosen : Exit (Except PrepareError Peer) → Option String
  | .done (.ok p) => some p.uid.id
  | _ => none

/-- An election on a bus is an election of the engine. -/
theorem elects_of_chosen {e : Engine} {b : MemoryBus} {id : String} (hg : e.hasGossip = true)
    (hbatch : (e.start b.entries).allPending ≠ []) (h : chosen (election e b).1.1 = some id) :
    ∃ p, Elects prims e (election e b).2.1 p ∧ p.uid.id = id := by
  let x := serveOn b (elect prims e.nextCycle e.st.root (e.ready prims b.entries))
  have htrace : (election e b).2.1 = e.ingestTrace b.entries ++ x.2.1 := by
    rw [Engine.ingestTrace, if_pos hg]
    rfl
  have hrun : Runs (elect prims e.nextCycle e.st.root) (e.ready prims b.entries) x.2.1 x.1.1 x.1.2 :=
    run_serveOn b (elect prims e.nextCycle e.st.root (e.ready prims b.entries))
  change chosen x.1.1 = some id at h
  obtain ⟨hsame, -, ⟨-, err, herr⟩ | ⟨p, hp, -⟩⟩ := runs_elect prims hrun
  · rw [herr] at h
    cases h
  · rw [hp, hsame] at hrun
    rw [hp] at h
    exact ⟨p, htrace ▸ .first rfl (fun hs => hbatch hs.1) hrun, Option.some.inj h⟩

/-- An entry whose hash ends in `k`. -/
def spread (k : UInt8) : ProvenanceEntry := { entry 1 with hash := Arr.copy 32 (1 :: List.replicate 30 0 ++ [k]) }

/-- The first block of two validators takes the proposer two attempts. -/
def firstBlock : List (Bool × Call) :=
  [(false, .enqueue (spread 0)), (true, .runCycle), (false, .runCycle), (true, .runCycle), (false, .runCycle),
    (true, .runCycle)]

/-- From then on, below the minimum of validators, one attempt is enough. -/
def laterBlock (k : UInt8) : List (Bool × Call) :=
  [(false, .enqueue (spread k)), (true, .runCycle), (false, .runCycle), (true, .runCycle)]

/-- An engine of a schedule runs its own calls. -/
theorem engineRun_schedule (i : Bool) (cs : List (Bool × Call)) : ∀ (es : Bool → Engine) (b : MemoryBus),
    ∃ τ, EngineRun prims (es i) τ ((schedule cs es b).1 i) := by
  induction cs with
  | nil => exact fun es b => ⟨[], .nil _⟩
  | cons c cs ih =>
    intro es b
    obtain ⟨j, c⟩ := c
    rw [schedule_cons]
    obtain ⟨τ, hrun⟩ := ih (Function.update es j (serveOn b (c.prog prims (es j))).1) (serveOn b (c.prog prims (es j))).2.2
    by_cases hij : i = j
    · subst hij
      rw [Function.update_self] at hrun
      exact ⟨_, .cons (step_serveOn c (es i) b) hrun⟩
    · rw [Function.update_of_ne hij] at hrun
      exact ⟨τ, hrun⟩

/-- Two blocks, and the proof of the first validator for the election of the next. -/
def afterTwo : (Bool → Engine) × MemoryBus :=
  schedule (firstBlock ++ laterBlock 128 ++ [(false, .enqueue (spread 64)), (false, .runCycle)]) pairEngines MemoryBus.new

/-- The second validator elects the first. -/
def afterTwoElects : Computed afterTwo fun w =>
    (w.1 true).blocks.length = 2 ∧ (w.1 true).hasGossip = true ∧ ((w.1 true).start w.2.entries).allPending ≠ [] ∧
      (uid 1).id ≠ (w.1 true).node.uid.id ∧ chosen (election (w.1 true) w.2).1.1 = some (uid 1).id :=
  computed _ (by decide +kernel)

/-- After two blocks, the second validator accepts the first as proposer. -/
theorem newcomer_accepts : ∃ τ e t p, EngineRun prims (two 2) τ e ∧ e.blocks.length = 2 ∧ Elects prims e t p ∧
    p.uid.id ≠ e.node.uid.id ∧ ¬ Rejects prims e t p.uid.id := by
  obtain ⟨w, hw, htwo, hg, hbatch, hother, hchosen⟩ := afterTwoElects
  obtain ⟨τ, hrun⟩ := engineRun_schedule true
    (firstBlock ++ laterBlock 128 ++ [(false, .enqueue (spread 64)), (false, .runCycle)]) pairEngines MemoryBus.new
  rw [← afterTwo, ← hw] at hrun
  obtain ⟨p, helects, hp⟩ := elects_of_chosen hg hbatch hchosen
  refine ⟨τ, w.1 true, _, p, hrun, htwo, helects, hp ▸ hother, fun hrejects => ?_⟩
  obtain ⟨-, -, -, hlong⟩ := (rejects_iff (.inr ⟨_, _, _, rfl⟩) hrun _ _).1 hrejects
  omega

/-- Twenty blocks, and the proof of the first validator for the election of the next. -/
def twentyBlocks : List (Bool × Call) :=
  firstBlock ++ [128, 64, 192, 32, 96, 160, 224, 16, 80, 48, 112, 144, 176, 208, 240, 8, 40, 72, 104].flatMap laterBlock ++
    [(false, .enqueue (spread 24)), (false, .runCycle)]

@[inherit_doc twentyBlocks]
def afterTwenty : (Bool → Engine) × MemoryBus := schedule twentyBlocks pairEngines MemoryBus.new

/-- The second validator counts the first as inactive and elects it. -/
def afterTwentyElects : Computed afterTwenty fun w =>
    (∀ i, (w.1 i).blocks.length = 20) ∧
      (w.1 false).blocks.map (·.blockHash) = (w.1 true).blocks.map (·.blockHash) ∧
      (w.1 true).hasGossip = true ∧ ((w.1 true).start w.2.entries).allPending ≠ [] ∧
      (w.1 true).inactive (uid 1).id = true ∧ chosen (election (w.1 true) w.2).1.1 = some (uid 1).id :=
  computed _ (by decide +kernel)

/-- Two validators that have committed twenty blocks together: the second one refuses the first. -/
theorem live_rejected : ∃ τ w, NetworkRun prims (Network.fresh pair [peer 1, peer 2]) τ w ∧
    (∀ i, w.threads i = .idle (w.engine i) ∧ (w.engine i).blocks.length = 20) ∧
    (w.engine false).blocks.map (·.blockHash) = (w.engine true).blocks.map (·.blockHash) ∧
    ∃ t b, w.shared.ServedBy t b ∧ Rejects prims (w.engine true) t (uid 1).id := by
  obtain ⟨w, hw, hlen, hsame, hg, hbatch, hinactive, hchosen⟩ := afterTwentyElects
  obtain ⟨τ, h, -⟩ := run_schedule twentyBlocks pairEngines MemoryBus.new (scheduleMeets_true _ _ _)
  rw [← afterTwenty, ← hw] at h
  exact ⟨τ, World.idle w.1 w.2, h, fun i => ⟨rfl, hlen i⟩, hsame, (election (w.1 true) w.2).2.1, _,
    servedBy_serveOn w.2 _, rejects_iff_inactive.2 ⟨elects_of_chosen hg hbatch hchosen, hinactive⟩⟩

end Sample

end Gleipnir
