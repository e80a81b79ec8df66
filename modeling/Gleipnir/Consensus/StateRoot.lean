import Gleipnir.Consensus.Agreement
import Gleipnir.Consensus.Atomicity

/-!
# The live tree and the chain

Between its calls the tree of an engine should have the root that its last block names. Aborted cycles restore the tree, and
the validators compare their tree with the candidate; but a proposer grows its tree by the candidate it builds, while the
slot keeps the first candidate of the index. `rooted_of_fitting` says that the roots agree as long as whatever is proposed to
an occupied slot leads to the root of the candidate in it.
-/

namespace Gleipnir

open Atomic

variable (X : Prims) {ι : Type}

/-- The root that the last block names, that of the empty tree if there is none. -/
def Engine.lastRoot (e : Engine) : Bytes :=
  (e.blocks.getLast?.map (·.stateRoot)).getD (SparseMerkleTree.new defaultConfig.smtDepth).root.toList

/-- The tree of the engine has the root of its last block. -/
def Engine.AtLastRoot (e : Engine) : Prop := e.st.root.toList = e.lastRoot

/-- When an engine is about to propose and the slot of its index is occupied, then the pool it has read, put into its tree,
gives the root of the candidate in the slot. -/
def Fitting : CallCondition := fun e _ past b ev =>
  ∀ block id, ev.op = .propose block id → ∀ held, b.proposals e.nextCycle = some held →
    e.rootWith X (lastSnapshot past) = held.stateRoot

instance (e : Engine) (c : Call) (past : Trace) (b : MemoryBus) (ev : Event) : Decidable (Fitting X e c past b ev) :=
  match ho : ev.op with
  | .propose block id =>
    decidable_of_iff (∀ held ∈ b.proposals e.nextCycle, e.rootWith X (lastSnapshot past) = held.stateRoot)
      ⟨fun h _ _ _ held hb => h held hb, fun h held hb => h block id ho held hb⟩
  | .publish _ | .snapshot | .removeEntries _ | .getProposed _ | .publishFinal _ _ | .getFinal _ | .publishSig _
  | .getSigs _ | .publishVRFProof _ | .getVRFProofs _ | .now | .patience =>
    .isTrue fun _ _ h => by rw [ho] at h; cases h

variable {X}

/-! ## Cycles that append nothing -/

variable {C : CallCondition} {e e' : Engine} {c : Call} {b₀ b : MemoryBus} {past : Trace}

/-- On a sound bus no cycle panics. -/
theorem not_panic {x : Exit Unit} (hsince : OnBusSince C e c b₀ past b) (hb : BusSound b)
    (h : Body.Runs (cycleBody X) e past x e') : x ≠ .panic := by
  rintro rfl
  obtain ⟨block, hread, hsigs⟩ := unsigned_of_panics X h
  exact hb.signed _ _ (MemoryBus.servedBy_candidate (servedBy_of_since hsince) hread) hsigs

theorem step_restores (hsince : OnBusSince C e c b₀ past b) (hb : BusSound b) (hrun : Run (c.prog X e) past e')
    (hblocks : e'.blocks = e.blocks) : e'.st = e.st := by
  obtain ⟨⟨x, s⟩, rfl, hbody⟩ := run_map.1 hrun
  by_cases hc : c = .runCycle
  · subst hc
    exact cycle_restores (runs_cycleBody X hbody) hblocks (not_panic hsince hb hbody)
  · exact (call_within X hc _ _ _ _ hbody).1.st

/-! ## Cycles that commit -/

/-- The tree of a committed cycle has the root of the candidate in the slot, if its proposal was fitting. -/
theorem committed_root (hg : e.hasGossip = true) (hsince : OnBusSince (Fitting X) e c b₀ past b)
    (hrun : Run (c.prog X e) past e') (cm : Committing X e past e') {cand : Block} (hslot : b.proposals e.nextCycle = some cand) :
    e'.st.root.toList = cand.stateRoot := by
  rcases cm.rooted X hg with ⟨block, hread, hroot⟩ | ⟨block, id, hpropose, hroot⟩
  · have hread := MemoryBus.servedBy_candidate (servedBy_of_since hsince) hread
    rw [hroot, Option.some.inj (hread.symm.trans hslot)]
  · obtain ⟨u, v, rfl⟩ := List.append_of_mem hpropose
    obtain ⟨b₁, b₂, -, ⟨-, -, ⟨now, wait, hs⟩, hfit⟩, hrest⟩ := hsince.at_call
    obtain ⟨x, hcycled⟩ := cycled_of_call hrun rfl
    have hprop := cycle_proposal X hcycled hg
    have hle := MemoryBus.servedBy_le (hrest.mono (fun _ _ hf => hf.2.2) fun _ _ _ _ ho => ho.2.2.1)
    -- the slot after the proposal
    have hb₂ : b₂ = b₁.propose block := by
      cases hs
      rfl
    have hheld : b₂.proposals e.nextCycle = some ((b₁.proposals e.nextCycle).getD block) := by
      rw [hb₂, ← hprop.index, MemoryBus.propose_slot]
    have hcand : (b₁.proposals e.nextCycle).getD block = cand :=
      Option.some.inj ((hle.proposals _ _ hheld).symm.trans hslot)
    rw [hroot, ← hcand]
    cases hfirst : b₁.proposals e.nextCycle with
    | none => rfl
    | some held =>
      rw [Option.getD_some, hprop.stateRoot]
      exact hfit block id rfl held hfirst

/-! ## Runs -/

theorem lastRoot_append {block : Block} (h : e'.blocks = e.blocks ++ [block]) : e'.lastRoot = block.stateRoot := by
  simp [Engine.lastRoot, h]

/-- The chain is recorded and the tree has the root of the last block. -/
structure InStep (X : Prims) (e : Engine) (b : MemoryBus) : Prop where
  recorded : Recorded X e b
  rooted : e.AtLastRoot

theorem inStep_finish (h : InStep X e b₀) (hsince : OnBusSince (Fitting X) e c b₀ past b) (hb : BusSound b)
    (hrun : Run (c.prog X e) past e') : InStep X e' b := by
  refine ⟨recorded_finish h.recorded hsince hrun, ?_⟩
  have hstep : EngineStep X e ⟨c, past⟩ e' := hrun
  rcases step_blocks X hstep with hsame | ⟨-, ⟨cm⟩⟩
  · rw [Engine.AtLastRoot, step_restores hsince hb hrun hsame, Engine.lastRoot, hsame]
    exact h.rooted
  · obtain ⟨-, cand, hslot, hheader⟩ := committed_slot h.recorded.gossip hsince cm
    rw [Engine.AtLastRoot, committed_root h.recorded.gossip hsince hrun cm hslot, lastRoot_append cm.blocks_eq,
      hheader.stateRoot]

theorem upheld_inStep : Upheld (fun c e => c.prog X e) MemoryBus.Serves BusSound (InStep X) (Fitting X) where
  stable := fun h _ _ hs => ⟨h.recorded.mono (MemoryBus.serves_le hs), h.rooted⟩
  serve := fun h hsince hb hrun _ hs => busSound_call h.recorded.gossip hsince hb hrun hs
  finish := fun h _ hsince hb hrun => inStep_finish h hsince hb hrun

variable [DecidableEq ι]

/-- **The state root.** In every run of a network in which every proposal to an occupied slot fits the candidate in it, each
engine has, between its calls, the tree whose root its last block names. -/
theorem rooted_of_fitting {nodes : ι → Node} {peers : List Peer} {w : Network ι}
    {τ : List (Transition (Network ι) (Move ι Call Op Op.Res))} (h : NetworkRun X (Network.fresh nodes peers) τ w)
    (hfit : ∀ x ∈ τ, CallMeets (Fitting X) x) (i : ι) : (w.engine i).AtLastRoot := by
  have hfresh : (Network.fresh nodes peers).Consistent (fun c e => c.prog X e) MemoryBus.Serves BusSound (InStep X)
      (Fitting X) := ⟨busSound_new, fun j => ⟨recorded_fresh (nodes j) peers _, rfl⟩⟩
  exact ((consistent_run upheld_inStep h hfit hfresh).state i).rooted

namespace Sample

/-- No call of the two validators overtakes another. -/
def committingFits : Computed committing fun cs => ScheduleMeets (Fitting prims) cs pairEngines MemoryBus.new :=
  computed _ (by decide +kernel)

/-- Both validators commit, the proposer at its second attempt, and have the tree of their block. -/
theorem pair_rooted : ∃ τ w, NetworkRun prims (Network.fresh pair [peer 1, peer 2]) τ w ∧
    ∀ i, (w.engine i).blocks.length = 1 ∧ (w.engine i).AtLastRoot := by
  obtain ⟨cs, hcs, hmeets⟩ := committingFits
  obtain ⟨τ, h, hfit⟩ := run_schedule cs pairEngines MemoryBus.new hmeets
  obtain ⟨w, hw, hlen⟩ := committed
  rw [hcs, ← hw] at h
  exact ⟨τ, World.idle w.1 w.2, h, fun i => ⟨hlen i, rooted_of_fitting h hfit i⟩⟩

/-- As before, but the proposer gets another entry between its two attempts. -/
def overtaken : List (Bool × Call) :=
  [(false, .enqueue (entry 9)), (false, .runCycle), (true, .runCycle), (false, .runCycle), (false, .enqueue (entry 10)),
    (true, .runCycle), (false, .runCycle)]

/-- The proposer has one block, and another tree. -/
def overtakenTree : Computed (schedule overtaken pairEngines MemoryBus.new) fun w =>
    (w.1 false).blocks.length = 1 ∧ (w.1 false).st.root.toList ≠ (w.1 false).lastRoot :=
  computed _ (by decide +kernel)

/-- It commits its first candidate with the tree of the second. -/
theorem overtaken_unrooted : ∃ τ w, NetworkRun prims (Network.fresh pair [peer 1, peer 2]) τ w ∧
    w.threads false = .idle (w.engine false) ∧ (w.engine false).blocks.length = 1 ∧ ¬ (w.engine false).AtLastRoot := by
  obtain ⟨τ, h, -⟩ := run_schedule overtaken pairEngines MemoryBus.new (scheduleMeets_true _ _ _)
  obtain ⟨w, hw, hlen, hroot⟩ := overtakenTree
  rw [← hw] at h
  exact ⟨τ, World.idle w.1 w.2, h, rfl, hlen, hroot⟩

end Sample

end Gleipnir
