import Gleipnir.Consensus.Origin
import Gleipnir.Sample

/-!
# The links of the chain

Every block of an engine's chain names its own hash. Its index, its predecessor and its proposer are those of the block
that was taken from the channel, and no phase compares them with the engine's own: `wellFormed_of_faithful` says that they
are right in every run whose channel hands out blocks that are.
-/

namespace Gleipnir

open Atomic Atomic.Body

variable (X : Prims)

/-- The hash that block `i` of a chain has to point to. -/
def linkHash (blocks : List Block) : Nat → Bytes
  | 0 => List.replicate 32 0
  | i + 1 => (blocks[i]?.map (·.blockHash)).getD []

/-- Block `i` of the chain that the run `τ` has built is well formed: its proposer is the validator elected in the cycle that
appended it. -/
structure WellFormedBlock (τ : List (Transition Engine Called)) (blocks : List Block) (i : Nat) (b : Block) : Prop where
  index : b.index = UInt64.ofNat i
  prevHash : b.prevHash = linkHash blocks i
  proposer : ∃ x ∈ τ, x.label.call = .runCycle ∧ x.pre.blocks = blocks.take i ∧ x.post.blocks = x.pre.blocks ++ [b] ∧
    ∃ p, electedBy X x.pre x.pre.nextCycle x.pre.st.root x.label.trace = some p ∧ b.proposer = p.uid.rootID
  blockHash : b.blockHash = computeBlockHash X b

/-- What the channel hands out in a cycle to be committed, the candidate to the elected validator and the final block to the
others, has the index of the cycle, points to the last block, and names the elected validator. -/
def FaithfulStep (x : Transition Engine Called) : Prop :=
  ∀ p, electedBy X x.pre x.pre.nextCycle x.pre.st.root x.label.trace = some p → ∀ block,
    (p.uid.id = x.pre.node.uid.id ∧ ⟨.getProposed x.pre.nextCycle, some block⟩ ∈ x.label.trace ∨
      p.uid.id ≠ x.pre.node.uid.id ∧ ⟨.getFinal x.pre.nextCycle, some block⟩ ∈ x.label.trace) →
    block.index = x.pre.nextCycle ∧ block.prevHash = x.pre.prevHash ∧ block.proposer = p.uid.rootID

theorem step_grows (e : Engine) (l : Called) (e' : Engine) (h : EngineStep X e l e') :
    e'.blocks = e.blocks ∨ ∃ b, e'.blocks = e.blocks ++ [b] := by
  rcases step_blocks X h with heq | ⟨-, ⟨c⟩⟩
  · exact .inl heq
  · exact .inr ⟨_, c.blocks_eq⟩

/-- Every block of a chain was appended by a committed cycle of the run. -/
theorem appended_by {e e' : Engine} {τ : List (Transition Engine Called)} (hf : e.Fresh) (h : EngineRun X e τ e') {i : Nat}
    {b : Block} (hb : e'.blocks[i]? = some b) :
    ∃ x ∈ τ, x.label.call = .runCycle ∧ x.pre.blocks = e'.blocks.take i ∧ x.post.blocks = x.pre.blocks ++ [b] ∧
      ∃ c : Committing X x.pre x.label.trace x.post, c.final = b := by
  obtain ⟨x, hx, hstep, hpre, hpost⟩ :=
    Path.added_by (f := Engine.blocks) (step_grows X) h (by simp [hf.blank.blocks]) hb
  rcases step_blocks X hstep with heq | ⟨hcall, ⟨c⟩⟩
  · simp [heq] at hpost
  · refine ⟨x, hx, hcall, hpre, hpost, c, ?_⟩
    have := c.blocks_eq
    rw [hpost] at this
    simpa using this.symm

theorem prevHash_eq_linkHash {e : Engine} {blocks : List Block} {i : Nat} (hi : i ≤ blocks.length)
    (h : e.blocks = blocks.take i) : e.prevHash = linkHash blocks i := by
  unfold Engine.prevHash
  rw [h]
  cases i with
  | zero => rfl
  | succ i =>
    have hlt : i < blocks.length := hi
    rw [List.getLast?_take, if_neg (Nat.succ_ne_zero i)]
    simp [linkHash, List.getElem?_eq_getElem hlt]

/-- **Well-formedness of the chain.** In every run each block carries its own hash; if the channel is faithful in every
step, each block is well formed. -/
theorem wellFormed_of_faithful {e e' : Engine} {τ : List (Transition Engine Called)} (hf : e.Fresh)
    (h : EngineRun X e τ e') :
    (∀ (i : Nat) (b : Block), e'.blocks[i]? = some b → b.blockHash = computeBlockHash X b) ∧
      ((∀ x ∈ τ, FaithfulStep X x) → ∀ (i : Nat) (b : Block), e'.blocks[i]? = some b →
        WellFormedBlock X τ e'.blocks i b) := by
  refine ⟨fun i b hb => ?_, fun hfaithful i b hb => ?_⟩
  · obtain ⟨x, -, -, -, -, c, rfl⟩ := appended_by X hf h hb
    obtain ⟨p, -, hhash, -⟩ := c.source
    exact hhash
  · obtain ⟨x, hx, hcall, hpre, hpost, c, rfl⟩ := appended_by X hf h hb
    obtain ⟨p, hel, hhash, hsource⟩ := c.source
    have hi : i ≤ e'.blocks.length := (List.getElem?_eq_some_iff.1 hb).1.le
    have hindex : x.pre.nextCycle = UInt64.ofNat i := by
      rw [Engine.nextCycle, hpre, List.length_take, Nat.min_eq_left hi]
    have hprev := prevHash_eq_linkHash hi hpre
    have key : c.final.index = x.pre.nextCycle ∧ c.final.prevHash = x.pre.prevHash ∧ c.final.proposer = p.uid.rootID := by
      cases hsource with
      | final hme hread hsame =>
        obtain ⟨h₁, h₂, h₃⟩ := hfaithful x hx p hel _ (.inr ⟨hme, hread⟩)
        exact ⟨hsame.index.trans h₁, hsame.prevHash.trans h₂, hsame.proposer.trans h₃⟩
      | candidate hme hread hsame =>
        obtain ⟨h₁, h₂, h₃⟩ := hfaithful x hx p hel _ (.inl ⟨hme, hread⟩)
        exact ⟨hsame.index.trans h₁, hsame.prevHash.trans h₂, hsame.proposer.trans h₃⟩
      | built hme hg hindex hprev hproposer hanchored => exact ⟨hindex, hprev, hproposer⟩
    exact ⟨key.1.trans hindex, key.2.1.trans hprev, ⟨x, hx, hcall, hpre, hpost, p, hel, key.2.2⟩, hhash⟩

namespace Sample

/-- A single node that queues an entry and runs a cycle. -/
def solo : List (Transition Engine Called) × Engine × MemoryBus :=
  calls [.enqueue (entry 9), .runCycle] (Engine.new (node 1)) MemoryBus.new

/-- Its chain has one block; without a channel nothing is read from one. -/
def soloBlock : Computed solo fun x =>
    x.2.1.blocks.length = 1 ∧ ∀ y ∈ x.1, ∀ ev ∈ y.label.trace, (ev.op matches .now) = true :=
  computed _ (by decide +kernel)

/-- Its chain has one block, and the block is well formed. -/
theorem solo_wellFormed : ∃ b, solo.2.1.blocks[0]? = some b ∧ WellFormedBlock prims solo.1 solo.2.1.blocks 0 b := by
  have hrun : EngineRun prims (Engine.new (node 1)) solo.1 solo.2.1 := run_calls _ _ _
  obtain ⟨run, heq, hone, hclock⟩ := soloBlock
  rw [← heq] at hrun ⊢
  have hb : run.2.1.blocks[0]? = some (run.2.1.blocks.get ⟨0, by omega⟩) := List.getElem?_eq_getElem _
  refine ⟨_, hb, (wellFormed_of_faithful prims (.inl ⟨_, rfl⟩) hrun).2 ?_ 0 _ hb⟩
  intro x hx p _ block hread
  rcases hread with ⟨-, hread⟩ | ⟨-, hread⟩
  · cases hclock x hx _ hread
  · cases hclock x hx _ hread

/-- A candidate of the first validator that the others vote for. -/
def candidate : Block :=
  let b := bareBlock 0 1 [entry 9] (rootOf [entry 9]) ⟨4, 3⟩
  { b with prepareSigs := [stamp 1 b.blockHash] }

/-- A final block with the index 7, another predecessor and another proposer, signed by three of four validators. -/
def forged : Block :=
  let b := { bareBlock 7 3 [] [] ⟨4, 3⟩ with prevHash := [1] }
  let blockHash := computeBlockHash prims b
  { b with
    blockHash
    prepareSigsBitmap := [13]
    prepareSigs := [stamp 1 blockHash, stamp 3 blockHash, stamp 4 blockHash]
    commitSig := stamp 1 blockHash }

def forgedBus : MemoryBus where
  entries := [entry 9]
  proposals := fun _ => some candidate
  finals := fun _ => some forged
  sigs := fun _ => [1, 3].map fun k => ⟨0, stamp k candidate.blockHash, (uid k).id⟩
  vrfProofs := fun _ => [1, 3, 4].map fun k => vrfMsg k 0 (List.replicate 32 0)

/-- The cycle of the second validator on it. -/
def forgedCycle : Computed (calls [.runCycle] four forgedBus) fun x =>
    x.2.1.blocks.length = 1 ∧ (∀ b ∈ x.2.1.blocks, b.index = 7 ∧ b.prevHash = [1] ∧ b.proposer = (uid 3).rootID) ∧
      ∀ y ∈ x.1, electedBy prims y.pre y.pre.nextCycle y.pre.st.root y.label.trace = some (peer 1) :=
  computed _ (by decide +kernel)

/-- The second validator votes for the candidate and commits the other block. -/
theorem forged_committed : ∃ e τ e' b, e.Fresh ∧ EngineRun prims e τ e' ∧ e'.blocks[0]? = some b ∧
    b.index = 7 ∧ b.prevHash = [1] ∧ b.proposer = (uid 3).rootID ∧
    (∀ x ∈ τ, electedBy prims x.pre x.pre.nextCycle x.pre.st.root x.label.trace = some (peer 1)) ∧
    ¬ WellFormedBlock prims τ e'.blocks 0 b := by
  have hrun := run_calls [.runCycle] four forgedBus
  obtain ⟨run, heq, hone, hfields, hel⟩ := forgedCycle
  rw [← heq] at hrun
  have hlen : 0 < run.2.1.blocks.length := hone ▸ Nat.zero_lt_one
  obtain ⟨hindex, hprev, hproposer⟩ := hfields _ (List.getElem_mem hlen)
  refine ⟨four, _, _, _, .inr ⟨_, _, _, rfl⟩, hrun, List.getElem?_eq_getElem hlen, hindex, hprev, hproposer, hel,
    fun hwf => ?_⟩
  rw [hwf.index] at hindex
  cases hindex

end Sample

end Gleipnir
