import Gleipnir.Consensus.Bus
import Gleipnir.Consensus.Publications
import Gleipnir.Lib.Interleave

/-!
# Engines on one bus

A network is any number of engines that share a `MemoryBus`: their calls interleave operation by operation. All of them
follow the protocol, so the bus stays sound (`BusSound`): a candidate stands under its own index and carries a signature, and
a final block has the header of the candidate of its index. `committed_slot` ties every committed block to the slot of its
index.
-/

namespace Gleipnir

open Atomic Atomic.Body

variable (X : Prims) {ι : Type}

abbrev Network (ι : Type) : Type := World ι Engine Call MemoryBus Op Op.Res

/-- A run of a network. -/
abbrev NetworkRun [DecidableEq ι] (w : Network ι) (τ : List (Transition (Network ι) (Move ι Call Op Op.Res)))
    (w' : Network ι) : Prop :=
  Path (WorldStep (fun c e => c.prog X e) MemoryBus.Serves) w τ w'

/-- The nodes have just been built, all with the same peers, over a new bus. -/
def Network.fresh (nodes : ι → Node) (peers : List Peer) : Network ι :=
  World.idle (fun i => Engine.newWithPeers (nodes i) true peers) MemoryBus.new

/-- The engine of a node, as it is between its calls. -/
def Network.engine (w : Network ι) (i : ι) : Engine := (w.threads i).state

/-! ## The bus of a network -/

structure BusSound (b : MemoryBus) : Prop where
  index : ∀ n c, b.proposals n = some c → c.index = n
  signed : ∀ n c, b.proposals n = some c → c.prepareSigs ≠ []
  final : ∀ n f, b.finals n = some f → ∃ c, b.proposals n = some c ∧ SameHeader f c

theorem busSound_new : BusSound MemoryBus.new := ⟨nofun, nofun, nofun⟩

namespace MemoryBus

theorem propose_proposals {b : MemoryBus} {block : Block} {n : UInt64} {c : Block}
    (h : (b.propose block).proposals n = some c) : b.proposals n = some c ∨ (n = block.index ∧ c = block) := by
  unfold propose at h
  split at h
  · exact .inl h
  · by_cases hn : n = block.index
    · subst hn
      simp only [Function.update_self, Option.some.injEq] at h
      exact .inr ⟨rfl, h.symm⟩
    · left
      simpa only [Function.update_of_ne hn] using h

/-- After a proposal the slot holds what it held before, or the proposal. -/
theorem propose_slot (b : MemoryBus) (block : Block) : (b.propose block).proposals block.index =
    some ((b.proposals block.index).getD block) := by
  unfold propose
  split
  · next h => rw [h, Option.getD_some]
  · next h => simp [h]

theorem propose_finals (b : MemoryBus) (block : Block) : (b.propose block).finals = b.finals := by
  unfold propose
  split <;> rfl

end MemoryBus

/-- Operations keep the bus sound, if the candidates are signed and the final blocks are those of candidates. -/
theorem busSound_serves {b b' : MemoryBus} {ev : Event} (h : BusSound b) (hs : b.Serves ev.op ev.res b')
    (hpropose : ∀ block id, ev.op = .propose block id → block.prepareSigs ≠ [])
    (hfinal : ∀ f id, ev.op = .publishFinal f id → ∃ c, b.proposals f.index = some c ∧ SameHeader f c) : BusSound b' := by
  obtain ⟨o, r⟩ := ev
  obtain ⟨now, wait, hs⟩ := hs
  have hb : b' = (b.answer now wait o).2 := by rw [hs]
  subst hb
  cases o with
  | propose block id =>
    have hle := MemoryBus.propose_le b block
    refine ⟨fun n c hc => ?_, fun n c hc => ?_, fun n f hf => ?_⟩
    · rcases MemoryBus.propose_proposals hc with hc | ⟨rfl, rfl⟩
      · exact h.index n c hc
      · rfl
    · rcases MemoryBus.propose_proposals hc with hc | ⟨rfl, rfl⟩
      · exact h.signed n c hc
      · exact hpropose _ _ rfl
    · obtain ⟨c, hc, hsame⟩ := h.final n f (by rwa [← MemoryBus.propose_finals b block])
      exact ⟨c, hle.proposals n c hc, hsame⟩
  | publishFinal block id =>
    refine ⟨h.index, h.signed, fun n f hf => ?_⟩
    by_cases hn : n = block.index
    · subst hn
      simp only [MemoryBus.answer, Function.update_self, Option.some.injEq] at hf
      exact hf ▸ hfinal block id rfl
    · simp only [MemoryBus.answer, Function.update_of_ne hn] at hf
      exact h.final n f hf
  | publishSig sig =>
    simp only [MemoryBus.answer, MemoryBus.publishSig]
    split
    · exact h
    · exact ⟨h.index, h.signed, h.final⟩
  | publishVRFProof proof =>
    simp only [MemoryBus.answer, MemoryBus.publishVRFProof]
    split
    · exact h
    · exact ⟨h.index, h.signed, h.final⟩
  | _ => exact ⟨h.index, h.signed, h.final⟩

/-! ## One engine among the others -/

/-- A condition on the calls that an engine makes. -/
abbrev CallCondition : Type := Engine → Call → Trace → MemoryBus → Event → Prop

/-- The engine `e` has made the calls `past` of `c` since the bus was `b₀`. -/
abbrev OnBusSince (C : CallCondition) (e : Engine) (c : Call) (b₀ : MemoryBus) (past : Trace) (b : MemoryBus) : Prop :=
  Since MemoryBus.Serves BusSound C e c b₀ past b

section OneEngine

variable {X} {C : CallCondition} {e e' : Engine} {c : Call} {b₀ b b' : MemoryBus} {past : Trace}

theorem servedBy_of_since (h : OnBusSince C e c b₀ past b) : b₀.ServedBy past b :=
  h.mono (fun _ _ hf => hf.2.2) fun _ _ _ _ ho => ho.2.2.1

/-- Only `RunCycle` proposes or publishes final blocks. -/
theorem cycled_of_call {u v : Trace} {ev : Event} (h : Run (c.prog X e) (u ++ ev :: v) e')
    (hev : ev.op.submitting = false) : ∃ x, Cycled X e (u ++ ev :: v) x e' := by
  by_cases hc : c = .runCycle
  · subst hc
    exact run_runCycle X h
  · obtain ⟨⟨x, s⟩, rfl, hrun⟩ := run_map.1 h
    have hsub : ev.op.submitting = true :=
      (call_within X hc _ _ _ _ hrun).2.1 ev (List.mem_append_right _ List.mem_cons_self)
    rw [hev] at hsub
    cases hsub

/-- **Every call of an engine keeps the bus sound.** -/
theorem busSound_call {v : Trace} {ev : Event} (hg : e.hasGossip = true) (hsince : OnBusSince C e c b₀ past b)
    (hb : BusSound b) (hrun : Run (c.prog X e) (past ++ ev :: v) e') (hs : b.Serves ev.op ev.res b') : BusSound b' := by
  obtain ⟨o, r⟩ := ev
  refine busSound_serves hb hs (fun block id ho => ?_) fun f id ho => ?_
  · change o = _ at ho
    subst ho
    obtain ⟨x, hcycled⟩ := cycled_of_call hrun rfl
    exact (cycle_proposal X hcycled hg).signed
  · change o = _ at ho
    subst ho
    obtain ⟨x, hcycled⟩ := cycled_of_call hrun rfl
    obtain ⟨cand, hread, hsame⟩ := cycle_final X hcycled hg
    have hslot := MemoryBus.servedBy_candidate (servedBy_of_since hsince) hread
    exact ⟨cand, by rwa [hsame.index, hb.index _ _ hslot], hsame⟩

/-- **A committed block has the header of the candidate in the slot of its index.** -/
theorem committed_slot (hg : e.hasGossip = true) (hsince : OnBusSince C e c b₀ past b) (cm : Committing X e past e') :
    cm.final.blockHash = computeBlockHash X cm.final ∧
      ∃ cand, b.proposals e.nextCycle = some cand ∧ SameHeader cm.final cand := by
  obtain ⟨p, -, hhash, hsource⟩ := cm.source
  refine ⟨hhash, ?_⟩
  cases hsource with
  | final hme hread hb =>
    obtain ⟨u, v, rfl⟩ := List.append_of_mem hread
    obtain ⟨b₁, b₂, -, ⟨hsound, -, hs, -⟩, hrest⟩ := hsince.at_call
    obtain ⟨hr, -⟩ := MemoryBus.serves_getFinal hs
    obtain ⟨cand, hslot, hsame⟩ := hsound.final _ _ hr.symm
    have hle : MemoryBus.Le b₁ b := (MemoryBus.serves_le hs).trans
      (MemoryBus.servedBy_le (hrest.mono (fun _ _ hf => hf.2.2) fun _ _ _ _ ho => ho.2.2.1))
    exact ⟨cand, hle.proposals _ _ hslot, hb.trans hsame⟩
  | candidate hme hread hb => exact ⟨_, MemoryBus.servedBy_candidate (servedBy_of_since hsince) hread, hb⟩
  | built hme halone hindex hprev hproposer hanchored =>
    rw [hg] at halone
    cases halone

end OneEngine

end Gleipnir
