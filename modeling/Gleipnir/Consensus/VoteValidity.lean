import Gleipnir.Consensus.Equivocation
import Gleipnir.Consensus.Bus
import Gleipnir.Sample

/-!
# What a vote stands for

Both PREPARE phases of a cycle insert the entries of the candidate into the same tree, and both vote. On a `MemoryBus` the
candidate does not change between them, nor does the elected proposer, and the second phase only runs if the first one
approved the candidate: so both votes are for a candidate that fits the tree the cycle began with (`votes_valid`).
-/

namespace Gleipnir

open Atomic Atomic.Body MemoryBus

variable (X : Prims)

/-- The vote `s`, in a cycle of `e` with the trace `t`, is for the candidate `c` of the elected proposer `p`, which fits the
tree the cycle began with and carries a signature of `p`. -/
structure SoundVote (e : Engine) (t : Trace) (p : Peer) (c : Block) (s : BlockSig) : Prop where
  hash : s = e.vote X e.nextCycle (computeBlockHash X c)
  root : (e.st.insertHashes X c.anchored).root.toList = c.stateRoot
  signature : ∃ pool sig sigs, e.ingestTrace pool <+: t ∧ c.prepareSigs = sig :: sigs ∧
    (e.ready X pool).ActiveSignature X e.nextCycle p.uid.rootID (computeBlockHash X c) sig

variable {cycle : UInt64} {batch pool : List ProvenanceEntry} {cq : Bool} {q : Nat} {e e' : Engine} {t : Trace} {p : Peer}
  {s : BlockSig}

theorem prepare_readsProofs {root : Hash} {x : Exit (Except PrepareError PrepareResult)}
    (h : Runs (runPreparePhase X cycle root batch cq q) e t x e') : ReadsProofsOf cycle t := by
  have helect : ∀ {u : Trace}, (∀ ev ∈ u, ev.op.electing cycle = true) → ReadsProofsOf cycle u := by
    intro u hu ev hev c hc
    have := hu ev hev
    rw [hc] at this
    exact eq_of_beq this
  obtain ⟨t₁, ht₁, ⟨rfl, -⟩ | ⟨p, t₂, t₃, y, rfl, -, ho, hc⟩⟩ := runs_preparePhase X h
  · exact helect ht₁
  · refine (helect ht₁).append (ReadsProofsOf.append ?_ ?_)
    · exact fun ev hev c hop => absurd hop (quiet_of_op (fun _ => rfl) (obtained_dealing X ho) ev hev c)
    · exact fun ev hev c hop => absurd hop (quiet_of_op (fun _ => rfl) (counted_counting hc) ev hev c)

theorem ingest_readsProofs (e : Engine) (pool : List ProvenanceEntry) (n : UInt64) :
    ReadsProofsOf n (e.ingestTrace pool) := by
  intro ev hev c hop
  unfold Engine.ingestTrace at hev
  split at hev
  · obtain rfl := List.mem_singleton.1 hev
    cases hop
  · cases hev

/-- A validator that is not the proposer gets its candidate from the channel and approves it. -/
theorem obtained_follower {am : Bool} {block : Block} (h : Obtained X e cycle p batch cq q am t (.done (.ok block)) e')
    (ham : am = false) : ⟨.getProposed cycle, some block⟩ ∈ t ∧ Approved X e cycle p block ∧ e' = e.grow X block.anchored := by
  cases h with
  | readBack block ham' hg hcq =>
    rw [ham] at ham'
    cases ham'
  | built entries now ham' hcq hpend hpool ht =>
    rw [ham] at ham'
    cases ham'
  | judged block ham' hg ht hread hv =>
    cases hv with
    | voted hroot hhash hsigs hsig =>
      exact ⟨List.mem_append_left _ hread, ⟨hroot, hhash, _, _, hsigs, hsig⟩, rfl⟩

/-- An approval in the engine of the phases is sound for the cycle. -/
theorem soundVote_of_approved {c : Block} (h : Approved X (e.ready X pool) e.nextCycle p c) (hpool : e.ingestTrace pool <+: t)
    (hs : s = e.vote X e.nextCycle c.blockHash) : SoundVote X e t p c s := by
  obtain ⟨hroot, hhash, sig, sigs, hsigs, hverify⟩ := h
  refine ⟨by rw [hs, hhash], by rwa [Engine.ready_st] at hroot, pool, sig, sigs, hpool, hsigs, ?_⟩
  rw [hhash]
  exact (verifySignatureWithOverlap_iff X).1 hverify

/-- A vote of the quorum check is for the candidate that was approved in the first phase. -/
theorem second_vote {e₁ e₂ : Engine} {w v : Trace} {pr : PrepareResult} {y : Exit (Except PrepareError PrepareResult)}
    {b b₁ b' : MemoryBus} (h₁ : e.Prepares X pool false (e.ready X pool) t (.done (.ok pr)) e₁)
    (h₂ : e.Prepares X pool true e₁ (w ++ ⟨.publishSig s, ()⟩ :: v) y e₂)
    (hserved : b.ServedBy (e.ingestTrace pool ++ (t ++ w)) b₁) (hle : Le b₁ b') :
    ∃ p, electedBy X e e.nextCycle e.st.root (e.ingestTrace pool ++ (t ++ w)) = some p ∧
      (p.uid.id ≠ e.node.uid.id → ∃ c, b'.proposals e.nextCycle = some c ∧
        Approved X (e.ready X pool) e.nextCycle p c ∧ s = e.vote X e.nextCycle c.blockHash) := by
  obtain ⟨p₁, t₁, t₂, t₃, ht, hel₁, -, hob, -⟩ := prepare_ok X h₁
  obtain ⟨p, hel₂, hvoted⟩ := prepare_vote X h₂
  obtain ⟨st, hframe⟩ := prepare_frame X h₁
  have hnode : e₁.node = e.node := by rw [hframe, Engine.ready_node]
  have hsecond : electedBy X e e.nextCycle e.st.root (e.ingestTrace pool ++ (t ++ w)) = some p := by
    have hcongr := electedBy_congr X hnode (by rw [hframe, Engine.ready_hasGossip]) (by rw [hframe, Engine.ready_peers])
      e.nextCycle e.st.root (e.ingestTrace pool ++ (t ++ w))
    rw [← hcongr, ← List.append_assoc]
    exact hel₂.outcome _
  -- the two phases elect the same validator
  have hfirst : electedBy X e e.nextCycle e.st.root (e.ingestTrace pool ++ t) = some p₁ := by
    rw [← electedBy_ready X e pool]
    exact hel₁ _
  have hreads : ReadsProofsOf e.nextCycle (e.ingestTrace pool ++ t ++ w) :=
    ((ingest_readsProofs e pool _).append (prepare_readsProofs X h₁)).append (prepare_readsProofs X h₂).left
  rw [← List.append_assoc] at hserved hsecond ⊢
  obtain rfl := servedBy_elected X hserved hreads hfirst hsecond
  refine ⟨p₁, hsecond, fun hne => ?_⟩
  obtain ⟨hread, happroved, -⟩ := obtained_follower X hob (by simpa using hne)
  have hread₁ : ⟨.getProposed e.nextCycle, some pr.block⟩ ∈ t := by
    rw [ht]
    simp [hread]
  have hslot := hle.proposals _ _ (servedBy_candidate hserved (List.mem_append_left _ (List.mem_append_right _ hread₁)))
  cases hvoted with
  | proposed hme => exact absurd (by rwa [hnode] at hme) hne
  | judged hme hread₂ _ hs =>
    have hslot' := hle.proposals _ _ (servedBy_candidate hserved (List.mem_append_right _ hread₂))
    obtain rfl := Option.some.inj (hslot.symm.trans hslot')
    exact ⟨_, hslot, happroved, by rw [hs, Engine.vote, Engine.vote, hnode]⟩

/-- **Validity of PREPARE votes.** In a cycle on a bus that others use in any way, every vote of an engine that is not the
elected proposer is for the candidate in the slot of the index, which fits the tree the cycle began with and is signed by
the elected proposer; all such votes of the cycle are the same. -/
theorem votes_valid {e e' : Engine} {t : Trace} {b b' : MemoryBus} (h : Run (runCycle X e) t e')
    (hbus : b.ServedBy t b') :
    (∀ u s v, t = u ++ ⟨.publishSig s, ()⟩ :: v → ∃ p, electedBy X e e.nextCycle e.st.root u = some p ∧
      (p.uid.id ≠ e.node.uid.id → ∃ c, b'.proposals e.nextCycle = some c ∧ SoundVote X e t p c s)) ∧
    ∀ u s v p u' s' v' p', t = u ++ ⟨.publishSig s, ()⟩ :: v → t = u' ++ ⟨.publishSig s', ()⟩ :: v' →
      electedBy X e e.nextCycle e.st.root u = some p → p.uid.id ≠ e.node.uid.id →
      electedBy X e e.nextCycle e.st.root u' = some p' → p'.uid.id ≠ e.node.uid.id → s = s' := by
  have hsound : ∀ u s v, t = u ++ ⟨.publishSig s, ()⟩ :: v → ∃ p, electedBy X e e.nextCycle e.st.root u = some p ∧
      (p.uid.id ≠ e.node.uid.id → ∃ c, b'.proposals e.nextCycle = some c ∧ SoundVote X e t p c s) := by
    intro u s v ht
    obtain ⟨x, hcycled⟩ := run_runCycle X h
    have hu : u <+: t := ht ▸ List.prefix_append _ _
    rw [ht] at hbus hcycled
    obtain ⟨b₁, b₂, hserved, hs, hrest⟩ := hbus.at_call
    have hle : Le b₁ b' := (serves_le hs).trans (servedBy_le hrest)
    cases cycle_preparing X hcycled rfl with
    | @first pool w v' y e₁ hw h₁ =>
      obtain ⟨p, hel, hvoted⟩ := prepare_vote X h₁
      refine ⟨p, by rw [hw, ← electedBy_ready X e pool]; exact hel.outcome _, fun hne => ?_⟩
      cases hvoted with
      | proposed hme => exact absurd (by rwa [Engine.ready_node] at hme) hne
      | judged hme hread happroved hs' =>
        refine ⟨_, hle.proposals _ _ (servedBy_candidate hserved (hw ▸ List.mem_append_right _ hread)), ?_⟩
        refine soundVote_of_approved X happroved ((hw ▸ List.prefix_append _ _ : _ <+: u).trans hu) ?_
        rw [hs', Engine.vote, Engine.vote, Engine.ready_node]
    | @second pool t₁ w v' pr y e₁ e₂ hw h₁ h₂ =>
      rw [hw] at hserved
      obtain ⟨p, hel, hvote⟩ := second_vote X h₁ h₂ hserved hle
      refine ⟨p, hw ▸ hel, fun hne => ?_⟩
      obtain ⟨c, hslot, happroved, hs'⟩ := hvote hne
      exact ⟨c, hslot, soundVote_of_approved X happroved ((hw ▸ List.prefix_append _ _ : _ <+: u).trans hu) hs'⟩
  refine ⟨hsound, fun u s v p u' s' v' p' ht ht' hp hne hp' hne' => ?_⟩
  obtain ⟨q, hq, hvote⟩ := hsound u s v ht
  obtain ⟨q', hq', hvote'⟩ := hsound u' s' v' ht'
  obtain rfl := Option.some.inj (hp.symm.trans hq)
  obtain rfl := Option.some.inj (hp'.symm.trans hq')
  obtain ⟨c, hslot, hvalid⟩ := hvote hne
  obtain ⟨c', hslot', hvalid'⟩ := hvote' hne'
  obtain rfl := Option.some.inj (hslot.symm.trans hslot')
  rw [hvalid.hash, hvalid'.hash]

namespace Sample

/-- A bus with a candidate of the first validator. -/
def candidateBus : MemoryBus :=
  let c := bareBlock 0 1 [entry 9] (rootOf [entry 9]) ⟨2, 2⟩
  { MemoryBus.new with
    entries := [entry 9]
    proposals := fun _ => some { c with prepareSigs := [stamp 1 c.blockHash] }
    vrfProofs := fun _ => [vrfMsg 1 0 (List.replicate 32 0)] }

/-- The cycle of the second validator on it. -/
def voting : Engine × Trace × MemoryBus := serveOn candidateBus (runCycle prims (two 2))

theorem run_voting : Run (runCycle prims (two 2)) voting.2.1 voting.1 := run_serveOn candidateBus _

theorem servedBy_voting : candidateBus.ServedBy voting.2.1 voting.2.2 := servedBy_serveOn candidateBus _

/-- Its vote in the quorum check is sound. -/
theorem second_vote_sound : ∃ u s v, voting.2.1 = u ++ ⟨.publishSig s, ()⟩ :: v ∧
    ∃ c, voting.2.2.proposals (two 2).nextCycle = some c ∧ SoundVote prims (two 2) voting.2.1 (peer 1) c s := by
  have hop : voting.2.1[12]?.any (fun ev => (votesIn [ev]).length == 1) = true := by decide +kernel
  have hel : electedBy prims (two 2) (two 2).nextCycle (two 2).st.root (voting.2.1.take 12) = some (peer 1) := by
    decide +kernel
  have hother : (peer 1).uid.id ≠ (two 2).node.uid.id := by decide +kernel
  have hvalid := (votes_valid prims run_voting servedBy_voting).1
  generalize voting.2.1 = t at hop hel hvalid
  cases hget : t[12]? with
  | none => simp [hget] at hop
  | some ev =>
    obtain ⟨s, rfl⟩ : ∃ s, ev = ⟨.publishSig s, ()⟩ := by
      obtain ⟨o, r⟩ := ev
      rw [hget] at hop
      cases o <;> cases hop
      exact ⟨_, rfl⟩
    obtain ⟨hlen, hev⟩ := List.getElem?_eq_some_iff.1 hget
    have hsplit : t = t.take 12 ++ ⟨.publishSig s, ()⟩ :: t.drop 13 := by
      rw [← hev, List.cons_getElem_drop_succ, List.take_append_drop]
    obtain ⟨p, hp, hvote⟩ := hvalid _ _ _ hsplit
    obtain rfl := Option.some.inj (hel.symm.trans hp)
    exact ⟨_, s, _, hsplit, hvote hother⟩

end Sample

end Gleipnir
