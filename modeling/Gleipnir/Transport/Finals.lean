import Gleipnir.Transport.GossipBus
import Mathlib.Data.List.Perm.Basic

/-!
# Final blocks on the network bus

`GetFinal` reads a slot that only the node's own `PublishFinal` writes: the handler of the protocol on which a final block
travels fills the candidate slot (`step_finals`, `finals_run`).

`final_read_iff`: after a leader's message and any traffic for other cycles, a node reads the final block exactly if its
own slot held that block before.
-/

namespace Gleipnir

open Atomic Atomic.Body

/-- The cycle that an operation is about. -/
def Op.cycle : Op → Option UInt64
  | .propose block _ | .publishFinal block _ => some block.index
  | .getProposed cycle | .getFinal cycle | .getSigs cycle | .getVRFProofs cycle => some cycle
  | .publishSig sig => some sig.cycle
  | .publishVRFProof proof => some proof.cycle
  | .publish _ | .snapshot | .removeEntries _ | .now | .patience => none

/-- The final block that an input publishes for a cycle. -/
def BusInput.publishedFinal (n : UInt64) : BusInput → Option Block
  | .call _ _ (.publishFinal block _) => if block.index = n then some block else none
  | _ => none

namespace GossipBus

variable {C : Codec} {b b' : GossipBus} {n : UInt64}

/-! ## The slot -/

/-- No stream reaches the final blocks. -/
theorem receive_finals (protocol : Protocol) (stream : Bytes) : (b.receive C stream protocol).finals = b.finals := by
  cases protocol with
  | entries =>
    simp only [receive, handleEntriesStream]
    split
    · rfl
    · rfl
  | proposals =>
    simp only [receive, handleProposalsStream]
    split
    · rfl
    · rfl
  | sigs =>
    simp only [receive, handleSigsStream]
    split
    · rfl
    · rfl
  | vrfProofs =>
    simp only [receive, handleVRFProofsStream]
    split
    · rfl
    · split
      · rfl
      · rfl

/-- Of the calls, `PublishFinal` does. -/
theorem answer_finals (now : Int) (wait : Patience) (o : Op) :
    (b.answer C now wait o).2.1.finals n = ((BusInput.call now wait o).publishedFinal n).or (b.finals n) := by
  cases o with
  | publishFinal block id =>
    simp only [answer, publishFinal, BusInput.publishedFinal, Function.update_apply]
    by_cases hn : n = block.index
    · rw [if_pos hn, if_pos hn.symm, Option.some_or]
    · rw [if_neg hn, if_neg (Ne.symm hn), Option.none_or]
  | propose block id =>
    simp only [answer, propose, BusInput.publishedFinal, Option.none_or]
    split
    · rfl
    · rfl
  | publishVRFProof proof =>
    simp only [answer, publishVRFProof, BusInput.publishedFinal, Option.none_or]
    split
    · rfl
    · rfl
  | _ => rfl

/-- **One input.** -/
theorem step_finals (i : BusInput) : (b.step C i).finals n = (i.publishedFinal n).or (b.finals n) := by
  cases i with
  | call now wait o => exact answer_finals now wait o
  | receive protocol stream => exact congrFun (receive_finals protocol stream) n

/-- **Any sequence of inputs**: the slot holds what the node published last. -/
theorem finals_run (is : List BusInput) :
    (b.run C is).finals n = (is.reverse.findSome? (BusInput.publishedFinal n)).or (b.finals n) := by
  induction is using List.reverseRecOn with
  | nil => rfl
  | append_singleton is i ih =>
    have hrun : b.run C (is ++ [i]) = (b.run C is).step C i := List.foldl_concat _ _ _ _
    rw [hrun, step_finals, ih, List.reverse_append, List.reverse_singleton, List.singleton_append, List.findSome?_cons]
    cases i.publishedFinal n with
    | none => rfl
    | some block => rfl

theorem finals_run_of_quiet {is : List BusInput} (h : ∀ i ∈ is, i.publishedFinal n = none) :
    (b.run C is).finals n = b.finals n := by
  have hnone : is.reverse.findSome? (BusInput.publishedFinal n) = none :=
    List.findSome?_eq_none_iff.2 fun i hi => h i (List.mem_reverse.1 hi)
  rw [finals_run, hnone, Option.none_or]

/-- Traffic for other cycles does not publish for this one. -/
theorem publishedFinal_eq_none {i : BusInput} (h : (asOp C i).bind Op.cycle ≠ some n) : i.publishedFinal n = none := by
  unfold BusInput.publishedFinal
  split
  · next block id =>
    refine if_neg fun hn => h ?_
    simp only [asOp, Option.bind_some, Op.cycle, hn]
  · rfl

/-- **Reading a leader's final block.** The messages of `PublishFinal` reach a node in any order with traffic for other
cycles. Then `GetFinal` returns the block exactly if it did so before. -/
theorem final_read_iff {leader node : GossipBus} {block : Block} {other is : List BusInput}
    (hother : ∀ i ∈ other, (asOp C i).bind Op.cycle ≠ some block.index)
    (his : is.Perm (streamsOf (leader.publishFinal C block).2 ++ other)) (now : Int) (wait : Patience) :
    ((node.run C is).answer C now wait (.getFinal block.index)).1 = some block ↔
      (node.answer C now wait (.getFinal block.index)).1 = some block := by
  have hquiet : ∀ i ∈ is, i.publishedFinal block.index = none := by
    intro i hi
    rcases List.mem_append.1 (his.mem_iff.1 hi) with hsent | hi
    · -- what the leader sent arrives as a stream
      obtain ⟨m, -, hm⟩ := List.mem_filterMap.1 hsent
      obtain ⟨stream, -, rfl⟩ := Option.map_eq_some_iff.1 hm
      rfl
    · exact publishedFinal_eq_none (hother i hi)
  change (node.run C is).finals block.index = some block ↔ node.finals block.index = some block
  rw [finals_run_of_quiet hquiet]

end GossipBus

namespace Sample

open GossipBus

/-- A node that has published the block itself goes on reading it. -/
theorem own_final_read : (((new.publishFinal twoBlocks certifiedDraft).1.run twoBlocks
      (.receive .sigs [] :: streamsOf (new.publishFinal twoBlocks certifiedDraft).2)).answer twoBlocks 0 ⟨0, false⟩
        (.getFinal certifiedDraft.index)).1 = some certifiedDraft := by
  have hother : ∀ i ∈ [BusInput.receive .sigs []], (asOp twoBlocks i).bind Op.cycle ≠ some certifiedDraft.index := by
    intro i hi hcycle
    obtain rfl := List.mem_singleton.1 hi
    cases hcycle
  exact (final_read_iff hother (List.perm_append_singleton _ _).symm 0 ⟨0, false⟩).2 rfl

/-- Another node gets the final block of the leader, and does not read it. -/
theorem final_unread : ∃ (C : Codec) (leader node : GossipBus) (block : Block),
    C.unmarshalBlock (C.marshalBlock block) = some block ∧ 0 < (C.marshalBlock block).length ∧
    (C.marshalBlock block).length ≤ maxStreamMessage ∧
    (node.run C (streamsOf (leader.publishFinal C block).2)).getProposed block.index = some block ∧
    ((node.run C (streamsOf (leader.publishFinal C block).2)).answer C 0 ⟨0, false⟩ (.getFinal block.index)).1 ≠
      some block := by
  refine ⟨twoBlocks, new, new, certifiedDraft, rfl, Nat.one_pos, by decide, rfl, fun h => ?_⟩
  cases h

end Sample

end Gleipnir
