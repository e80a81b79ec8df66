import Gleipnir.Sample

/-!
# Agreement

Every block that an engine of a network commits has the header of the candidate in the slot of its index (`Recorded`), and a
slot never changes. So the chains of two engines agree wherever both have a block (`chains_agree`), however their cycles
interleave, fail and are tried again, and whatever the VRF elects.
-/

namespace Gleipnir

open Atomic

variable (X : Prims) {ι : Type}

/-- The chain of an engine is recorded in the slots of the bus. -/
structure Recorded (e : Engine) (b : MemoryBus) : Prop where
  gossip : e.hasGossip = true
  chain : ∀ (k : Nat) (block : Block), e.blocks[k]? = some block → block.blockHash = computeBlockHash X block ∧
    ∃ c, b.proposals (UInt64.ofNat k) = some c ∧ SameHeader block c

variable {X}

theorem Recorded.mono {e : Engine} {b b' : MemoryBus} (h : Recorded X e b) (hle : MemoryBus.Le b b') : Recorded X e b' := by
  refine ⟨h.gossip, fun k block hk => ?_⟩
  obtain ⟨hhash, c, hc, hsame⟩ := h.chain k block hk
  exact ⟨hhash, c, hle.proposals _ c hc, hsame⟩

/-- A new engine has nothing to record. -/
theorem recorded_fresh (node : Node) (peers : List Peer) (b : MemoryBus) :
    Recorded X (Engine.newWithPeers node true peers) b :=
  ⟨rfl, fun k block hk => by cases hk⟩

/-- A call leaves the chain recorded. -/
theorem recorded_finish {C : CallCondition} {e e' : Engine} {c : Call} {b₀ b : MemoryBus} {past : Trace}
    (h : Recorded X e b₀) (hsince : OnBusSince C e c b₀ past b) (hrun : Run (c.prog X e) past e') : Recorded X e' b := by
  have hstep : EngineStep X e ⟨c, past⟩ e' := hrun
  have hb := h.mono (MemoryBus.servedBy_le (servedBy_of_since hsince))
  have hg : e'.hasGossip = true := (sameEngine_step X hstep).hasGossip.trans h.gossip
  rcases step_blocks X hstep with hsame | ⟨-, ⟨cm⟩⟩
  · exact ⟨hg, by rw [hsame]; exact hb.chain⟩
  · refine ⟨hg, fun k block hk => ?_⟩
    rw [cm.blocks_eq] at hk
    rcases Nat.lt_or_ge k e.blocks.length with hlt | hge
    · rw [List.getElem?_append_left hlt] at hk
      exact hb.chain k block hk
    · -- the block of this cycle
      obtain ⟨rfl, rfl⟩ : k = e.blocks.length ∧ block = cm.final := by
        rw [List.getElem?_append_right hge, List.getElem?_singleton] at hk
        split at hk
        · cases hk
          exact ⟨by omega, rfl⟩
        · cases hk
      exact committed_slot h.gossip hsince cm

/-- **Recording is upheld** by every call of an engine, without any condition. -/
theorem upheld_recorded (C : CallCondition) :
    Upheld (fun c e => c.prog X e) MemoryBus.Serves BusSound (Recorded X) C where
  stable := fun h _ _ hs => h.mono (MemoryBus.serves_le hs)
  serve := fun h hsince hb hrun _ hs => busSound_call h.gossip hsince hb hrun hs
  finish := fun h _ hsince _ hrun => recorded_finish h hsince hrun

variable [DecidableEq ι]

theorem recorded_run {nodes : ι → Node} {peers : List Peer} {w : Network ι}
    {τ : List (Transition (Network ι) (Move ι Call Op Op.Res))}
    (h : NetworkRun X (Network.fresh nodes peers) τ w) (i : ι) : Recorded X (w.engine i) w.shared := by
  have hfresh : (Network.fresh nodes peers).Consistent (fun c e => c.prog X e) MemoryBus.Serves BusSound (Recorded X)
      (fun _ _ _ _ _ => True) := ⟨busSound_new, fun j => recorded_fresh (nodes j) peers _⟩
  have hmeets : ∀ x ∈ τ, CallMeets (fun _ _ _ _ _ => True) x := fun _ _ _ _ _ _ _ _ _ _ => trivial
  exact (consistent_run (upheld_recorded _) h hmeets hfresh).state i

/-- **Agreement.** In every run of a network, two engines that have a block at the same position of their chains have blocks
of the same hash there. -/
theorem chains_agree {nodes : ι → Node} {peers : List Peer} {w : Network ι}
    {τ : List (Transition (Network ι) (Move ι Call Op Op.Res))} (h : NetworkRun X (Network.fresh nodes peers) τ w)
    {i j : ι} {k : Nat} {block block' : Block} (hi : (w.engine i).blocks[k]? = some block)
    (hj : (w.engine j).blocks[k]? = some block') : block.blockHash = block'.blockHash := by
  obtain ⟨hhash, c, hc, hsame⟩ := (recorded_run h i).chain k block hi
  obtain ⟨hhash', c', hc', hsame'⟩ := (recorded_run h j).chain k block' hj
  obtain rfl : c = c' := Option.some.inj (hc.symm.trans hc')
  calc block.blockHash = computeBlockHash X block := hhash
    _ = computeBlockHash X c := hsame.hash X
    _ = computeBlockHash X block' := (hsame'.hash X).symm
    _ = block'.blockHash := hhash'.symm

namespace Sample

/-- Two validators. -/
def pair (i : Bool) : Node := if i then node 2 else node 1

/-- Their engines, newly built. -/
def pairEngines (i : Bool) : Engine := Engine.newWithPeers (pair i) true [peer 1, peer 2]

/-- The first validator gets an entry. The first attempts fail for want of proofs and votes; then both commit. -/
def committing : List (Bool × Call) :=
  [(false, .enqueue (entry 9)), (false, .runCycle), (true, .runCycle), (false, .runCycle), (true, .runCycle),
    (false, .runCycle), (true, .runCycle)]

theorem scheduleMeets_true {ι : Type} [DecidableEq ι] : ∀ (cs : List (ι × Call)) (es : ι → Engine) (b : MemoryBus),
    ScheduleMeets (fun _ _ _ _ _ => True) cs es b
  | [], _, _ => trivial
  | _ :: cs, _, _ => ⟨fun _ _ => trivial, scheduleMeets_true cs _ _⟩

/-- Both have committed a block. -/
def committed : Computed (schedule committing pairEngines MemoryBus.new) fun w => ∀ i, (w.1 i).blocks.length = 1 :=
  computed _ (by decide +kernel)

/-- It is the same block. -/
theorem pair_agrees : ∃ τ w, NetworkRun prims (Network.fresh pair [peer 1, peer 2]) τ w ∧
    ∃ block block', (w.engine false).blocks[0]? = some block ∧ (w.engine true).blocks[0]? = some block' ∧
      block.blockHash = block'.blockHash := by
  obtain ⟨τ, h, -⟩ := run_schedule committing pairEngines MemoryBus.new (scheduleMeets_true _ _ _)
  obtain ⟨w, hw, hlen⟩ := committed
  rw [← hw] at h
  have hblock : ∀ i, ∃ block, (w.1 i).blocks[0]? = some block := by
    intro i
    have hi := hlen i
    exact ⟨(w.1 i).blocks.get ⟨0, by omega⟩, List.getElem?_eq_getElem _⟩
  obtain ⟨block, hb⟩ := hblock false
  obtain ⟨block', hb'⟩ := hblock true
  exact ⟨τ, World.idle w.1 w.2, h, block, block', hb, hb', chains_agree h (i := false) (j := true) hb hb'⟩

end Sample

end Gleipnir
