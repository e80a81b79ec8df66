import Gleipnir.Consensus.Votes
import Gleipnir.Sample

/-!
# Voting twice

An engine remembers neither what it proposed nor what it signed for an index. After an aborted cycle it proposes again, with
a new timestamp and the entries of that moment, and signs again. `one_hash_of_singleCandidate` gives the runs in which all
its signatures for an index cover one hash: the engine is elected in one cycle at most and nobody else is, or someone else is
and the channel always shows the same candidate.
-/

namespace Gleipnir

open Atomic Atomic.Body

variable (X : Prims)

/-- The signatures of a whole run. -/
def runVotes (τ : List (Transition Engine Called)) : List BlockSig := τ.flatMap fun x => votesIn x.label.trace

/-! ## Elections of a step -/

/-- The peers that are elected on the proofs that a call of `e` with the trace `t` reads. -/
def electedIn (e : Engine) (t : Trace) : List Peer := t.filterMap fun
  | ⟨.getVRFProofs _, msgs⟩ => electedOn X e e.nextCycle e.st.root msgs
  | _ => none

/-- An election of the call gives the engine itself. -/
def ElectsOwn (e : Engine) (t : Trace) : Prop := ∃ p ∈ electedIn X e t, p.uid.id = e.node.uid.id

/-- An election of the call gives someone else. -/
def ElectsOther (e : Engine) (t : Trace) : Prop := ∃ p ∈ electedIn X e t, p.uid.id ≠ e.node.uid.id

instance (e : Engine) (t : Trace) : Decidable (ElectsOther X e t) :=
  inferInstanceAs (Decidable (∃ p ∈ electedIn X e t, p.uid.id ≠ e.node.uid.id))

/-- What the elections of a run and its channel say about an index points to one candidate. -/
structure SingleCandidate (τ : List (Transition Engine Called)) : Prop where
  /-- The engine is elected in at most one cycle for an index; cycles that agree in everything count once. -/
  once : ∀ x ∈ τ, ∀ y ∈ τ, ElectsOwn X x.pre x.label.trace → ElectsOwn X y.pre y.label.trace →
    x.pre.nextCycle = y.pre.nextCycle → x = y
  /-- Where it is elected, nobody else is. -/
  apart : ∀ x ∈ τ, ∀ y ∈ τ, ElectsOwn X x.pre x.label.trace → ElectsOther X y.pre y.label.trace →
    x.pre.nextCycle ≠ y.pre.nextCycle
  /-- Where someone else is elected, the channel shows candidates of one hash. -/
  shown : ∀ x ∈ τ, ∀ y ∈ τ, ElectsOther X x.pre x.label.trace → ElectsOther X y.pre y.label.trace →
    x.pre.nextCycle = y.pre.nextCycle → ∀ b c, (x.pre.nextCycle, b) ∈ candidatesIn x.label.trace →
      (y.pre.nextCycle, c) ∈ candidatesIn y.label.trace → b.blockHash = c.blockHash

/-! ## Proposals of a cycle -/

theorem proposalsIn_append (t u : Trace) : proposalsIn (t ++ u) = proposalsIn t ++ proposalsIn u := List.filterMap_append

variable {t : Trace} {cycle : UInt64} {root : Hash} {batch : List ProvenanceEntry} {e e' : Engine} {l : Called} {b c : Block}
  {s : BlockSig} {τ : List (Transition Engine Called)}

theorem proposalsIn_of_op {P : Op → Bool} (hP : ∀ b id, P (.propose b id) = false) (ht : ∀ ev ∈ t, P ev.op = true) :
    proposalsIn t = [] := by
  refine List.eq_nil_iff_forall_not_mem.2 fun b hb => ?_
  obtain ⟨id, hmem⟩ := mem_proposalsIn.1 hb
  exact not_mem_of_op ht (hP b id) hmem

/-- A phase makes at most one proposal, and none in the quorum check. -/
theorem prepare_proposals {cq : Bool} {q : Nat} {x : Exit (Except PrepareError PrepareResult)}
    (h : Runs (runPreparePhase X cycle root batch cq q) e t x e') :
    (proposalsIn t).length ≤ 1 ∧ (cq = true → proposalsIn t = []) := by
  obtain ⟨t₁, helect, ⟨rfl, -⟩ | ⟨p, t₂, t₃, y, rfl, -, ho, hc⟩⟩ := runs_preparePhase X h
  · simp [proposalsIn_of_op (P := Op.electing cycle) (fun _ _ => rfl) helect]
  · rw [proposalsIn_append, proposalsIn_append, proposalsIn_of_op (P := Op.electing cycle) (fun _ _ => rfl) helect,
      proposalsIn_of_op (P := Op.counting) (fun _ _ => rfl) (counted_counting hc), List.nil_append, List.append_nil]
    cases ho with
    | nothing err ht => simp [proposalsIn_of_op (P := Op.looking) (fun _ _ => rfl) ht]
    | readBack block ham hg hcq => exact ⟨Nat.zero_le _, fun _ => rfl⟩
    | built entries now ham hcq hpend hpool ht =>
      rw [proposalsIn_append, proposalsIn_of_op (P := Op.looking) (fun _ _ => rfl) ht]
      unfold Engine.broadcast
      split
      · next hg => exact ⟨le_rfl, fun htrue => absurd (htrue.symm.trans (hcq hg)) Bool.noConfusion⟩
      · exact ⟨Nat.zero_le _, fun _ => rfl⟩
    | judged block ham hg ht hread hv =>
      rw [proposalsIn_append, proposalsIn_of_op (P := Op.looking) (fun _ _ => rfl) ht]
      cases hv with
      | refused err => exact ⟨Nat.zero_le _, fun _ => rfl⟩
      | panicked hroot hhash hsigs => exact ⟨Nat.zero_le _, fun _ => rfl⟩
      | voted hroot hhash hsigs hsig => exact ⟨Nat.zero_le _, fun _ => rfl⟩

theorem phases_proposals {q : Nat} {x : Exit (Option (Block × Bool))} (h : Runs (runPhases X cycle root batch q) e t x e') :
    (proposalsIn t).length ≤ 1 := by
  cases runs_phases X h with
  | first h₁ hs => exact (prepare_proposals X h₁).1
  | second h₁ h₂ hs =>
    rw [proposalsIn_append, (prepare_proposals X h₂).2 rfl, List.append_nil]
    exact (prepare_proposals X h₁).1
  | third h₁ h₂ h₃ =>
    have hfinal : proposalsIn _ = [] := List.eq_nil_iff_forall_not_mem.2 fun b hb => by
      obtain ⟨id, hmem⟩ := mem_proposalsIn.1 hb
      exact finalised_preparing X h₃ rfl hmem
    rw [proposalsIn_append, proposalsIn_append, (prepare_proposals X h₂).2 rfl, hfinal, List.append_nil, List.append_nil]
    exact (prepare_proposals X h₁).1

/-- **A cycle proposes at most once.** -/
theorem cycle_proposals {x : Exit Unit} (h : Cycled X e t x e') : (proposalsIn t).length ≤ 1 := by
  have hingest : ∀ pool, proposalsIn (e.ingestTrace pool) = [] := fun pool => by
    unfold Engine.ingestTrace
    split <;> rfl
  have hremove : ∀ block, proposalsIn (e.removeTrace block) = [] := fun block => by
    unfold Engine.removeTrace
    split <;> rfl
  cases h with
  | skipped hs => simp [hingest]
  | panicked hs hp => simpa [proposalsIn_append, hingest] using phases_proposals X hp
  | aborted hs hp => simpa [proposalsIn_append, hingest] using phases_proposals X hp
  | failed hs hp hc => simpa [proposalsIn_append, hingest] using phases_proposals X hp
  | committed hs hp hc => simpa [proposalsIn_append, hingest, hremove] using phases_proposals X hp

/-- The proposals of a step are all one. -/
theorem step_proposals (h : EngineStep X e l e') (hb : b ∈ proposalsIn l.trace) (hc : c ∈ proposalsIn l.trace) : b = c := by
  have hle : (proposalsIn l.trace).length ≤ 1 := by
    by_cases hcycle : l.call = .runCycle
    · rw [EngineStep, hcycle] at h
      obtain ⟨x, hcycled⟩ := run_runCycle X h
      exact cycle_proposals X hcycled
    · obtain ⟨⟨x, s⟩, rfl, hrun⟩ := run_map.1 h
      have hsub := (call_within X hcycle _ _ _ _ hrun).2.1
      simp [proposalsIn_of_op (P := Op.submitting) (fun _ _ => rfl) hsub]
  obtain ⟨a, ha⟩ := List.length_eq_one_iff.1 (le_antisymm hle (List.length_pos_of_mem hb))
  rw [ha] at hb hc
  rw [List.mem_singleton.1 hb, List.mem_singleton.1 hc]

/-! ## What is signed -/

/-- The source of a signature in a step: its proposal, where the engine is elected, or a candidate that it is shown, where
someone else is. -/
inductive VoteSource (e : Engine) (t : Trace) (b : Block) : Prop
  | proposed (hlead : ElectsOwn X e t) (hb : b ∈ proposalsIn t) (hindex : b.index = e.nextCycle)
  | shown (hfollow : ElectsOther X e t) (hb : (e.nextCycle, b) ∈ candidatesIn t)

theorem voted_source {e₁ : Engine} {p : Peer} {u : Trace} (hnode : e₁.node = e.node) (hgossip : e₁.hasGossip = e.hasGossip)
    (hpeers : e₁.peers = e.peers) (hel : Elected X e₁ e.nextCycle e.st.root u p) (h : Voted X e₁ e.nextCycle p u s)
    (hsub : u ⊆ t) : ∃ b, s = e.vote X e.nextCycle b.blockHash ∧ VoteSource X e t b := by
  have helected : e₁.hasGossip = true → p ∈ electedIn X e t := by
    intro hg
    obtain ⟨msgs, hmem, hp⟩ := hel.read hg
    rw [electedOn, electedBy_congr X hnode hgossip hpeers] at hp
    exact List.mem_filterMap.2 ⟨_, hsub hmem, hp⟩
  have hvote : ∀ b : Block, e₁.vote X e.nextCycle b.blockHash = e.vote X e.nextCycle b.blockHash := fun b => by
    rw [Engine.vote, Engine.vote, hnode]
  cases h with
  | @proposed b id hme hindex hpropose hs hg =>
    exact ⟨b, hs.trans (hvote b),
      .proposed ⟨p, helected hg, hme.trans (by rw [hnode])⟩ (mem_proposalsIn.2 ⟨_, hsub hpropose⟩) hindex⟩
  | @judged b hme hread happroved hs hg =>
    exact ⟨b, hs.trans (hvote b), .shown ⟨p, helected hg, by rwa [← hnode]⟩ (mem_candidatesIn.2 (hsub hread))⟩

/-- **A step signs** a candidate that it proposes or is shown, for the index after its chain. -/
theorem step_vote (h : EngineStep X e l e') (hs : s ∈ votesIn l.trace) :
    ∃ b, s = e.vote X e.nextCycle b.blockHash ∧ VoteSource X e l.trace b := by
  obtain ⟨u, v, ht⟩ := List.append_of_mem (mem_votesIn.1 hs)
  have hsub : u ⊆ l.trace := fun ev hev => ht ▸ List.mem_append_left _ hev
  cases step_preparing X h ht rfl with
  | @first pool w v y e₁ hu h₁ =>
    obtain ⟨p, hel, hvoted⟩ := prepare_vote X h₁
    exact voted_source X (e.ready_node X pool) (e.ready_hasGossip X pool) (e.ready_peers X pool) hel hvoted
      fun ev hev => hsub (hu ▸ List.mem_append_right _ hev)
  | @second pool t w v pr y e₁ e₂ hu h₁ h₂ =>
    obtain ⟨st, rfl⟩ := prepare_frame X h₁
    obtain ⟨p, hel, hvoted⟩ := prepare_vote X h₂
    refine voted_source X ?_ ?_ ?_ hel hvoted fun ev hev => hsub (hu ▸ List.mem_append_right _ (List.mem_append_right _ hev))
    · exact e.ready_node X pool
    · exact e.ready_hasGossip X pool
    · exact e.ready_peers X pool

/-- Every signature of a run is one by the engine's key over a candidate of one of its steps. -/
theorem run_vote (h : EngineRun X e τ e') (hs : s ∈ runVotes τ) : ∃ x ∈ τ, ∃ b : Block, s.cycle = x.pre.nextCycle ∧
      s.sig = signDilithium X e.node.uid.secretKey b.blockHash ∧ EngineStep X x.pre x.label x.post ∧
      VoteSource X x.pre x.label.trace b := by
  obtain ⟨x, hx, hsx⟩ := List.mem_flatMap.1 hs
  obtain ⟨τ₁, τ₂, -, h₁, hstep⟩ := h.split hx
  obtain ⟨b, rfl, hsource⟩ := step_vote X hstep hsx
  exact ⟨x, hx, b, rfl, by simp only [Engine.vote, (sameEngine_run X h₁).node], hstep, hsource⟩

/-- Two signatures for one index have sources of one hash. -/
theorem SingleCandidate.one_hash (h : SingleCandidate X τ) {x y : Transition Engine Called} (hx : x ∈ τ) (hy : y ∈ τ)
    (hindex : x.pre.nextCycle = y.pre.nextCycle) (hstep : EngineStep X x.pre x.label x.post)
    (hb : VoteSource X x.pre x.label.trace b) (hc : VoteSource X y.pre y.label.trace c) : b.blockHash = c.blockHash := by
  cases hb with
  | proposed hlead hb =>
    cases hc with
    | proposed hlead' hc =>
      obtain rfl := h.once x hx y hy hlead hlead' hindex
      rw [step_proposals X hstep hb hc]
    | shown hfollow hc => exact absurd hindex (h.apart x hx y hy hlead hfollow)
  | shown hfollow hb =>
    cases hc with
    | proposed hlead hc => exact absurd hindex.symm (h.apart y hy x hx hlead hfollow)
    | shown hfollow' hc => exact h.shown x hx y hy hfollow hfollow' hindex b c hb hc

/-- **No equivocation** in a run whose elections and candidates leave one block for each index: all signatures that the
engine publishes for an index are over one hash. -/
theorem one_hash_of_singleCandidate {e e' : Engine} {τ : List (Transition Engine Called)} (h : EngineRun X e τ e')
    (hsingle : SingleCandidate X τ) :
    ∃ H : UInt64 → Bytes, ∀ s ∈ runVotes τ, s.sig = signDilithium X e.node.uid.secretKey (H s.cycle) := by
  have hindex : ∀ n, ∃ hash, ∀ s ∈ runVotes τ, s.cycle = n → s.sig = signDilithium X e.node.uid.secretKey hash := by
    intro n
    by_cases hvotes : ∃ s ∈ runVotes τ, s.cycle = n
    · obtain ⟨s, hs, hn⟩ := hvotes
      obtain ⟨x, hx, b, hcycle, -, hstep, hb⟩ := run_vote X h hs
      refine ⟨b.blockHash, fun s' hs' hn' => ?_⟩
      obtain ⟨y, hy, c, hcycle', hsig, -, hc⟩ := run_vote X h hs'
      have hsame : x.pre.nextCycle = y.pre.nextCycle := by rw [← hcycle, ← hcycle', hn, hn']
      rw [hsig, hsingle.one_hash X hx hy hsame hstep hb hc]
    · exact ⟨[], fun s hs hn => absurd ⟨s, hs, hn⟩ hvotes⟩
  choose H hH using hindex
  exact ⟨H, fun s hs => hH s.cycle s hs rfl⟩

namespace Sample

/-- A bus with an entry and the VRF proof of the second validator. -/
def entryBus : MemoryBus :=
  { MemoryBus.new with
    entries := [entry 9]
    vrfProofs := fun _ => [vrfMsg 2 0 (List.replicate 32 0)] }

/-- In its cycle, the first validator votes once and nobody else is elected. -/
def oneCandidate : Computed (calls [.runCycle] (two 1) entryBus).1 fun τ =>
    (runVotes τ).length = 1 ∧ τ.length = 1 ∧ ∀ x ∈ τ, ¬ ElectsOther prims x.pre x.label.trace :=
  computed _ (by decide +kernel)

/-- The first validator is elected and proposes. -/
theorem proposes_once : (runVotes (calls [.runCycle] (two 1) entryBus).1).length = 1 ∧
    ∃ H : UInt64 → Bytes, ∀ s ∈ runVotes (calls [.runCycle] (two 1) entryBus).1,
      s.sig = signDilithium prims (two 1).node.uid.secretKey (H s.cycle) := by
  have hrun := run_calls [.runCycle] (two 1) entryBus
  obtain ⟨τ, hτ, hvotes, hone, hown⟩ := oneCandidate
  rw [← hτ] at hrun ⊢
  refine ⟨hvotes, one_hash_of_singleCandidate prims hrun ⟨?_, ?_, ?_⟩⟩
  · obtain ⟨x, rfl⟩ := List.length_eq_one_iff.1 hone
    exact fun a ha b hb _ _ _ => (List.mem_singleton.1 ha).trans (List.mem_singleton.1 hb).symm
  · exact fun x _ y hy _ hfollow => absurd hfollow (hown y hy)
  · exact fun x hx _ _ hfollow => absurd hfollow (hown x hx)

/-- The same validator runs a cycle that finds no quorum, gets another entry, and runs the next cycle. -/
def retried : List (Transition Engine Called) × Engine × MemoryBus :=
  calls [.runCycle, .enqueue (entry 10), .runCycle] (two 1) entryBus

/-- It signs twice for the first index; the signatures differ where they carry the digest of the hash. -/
def retriedVotes : Computed retried.1 fun τ =>
    ∃ s ∈ runVotes τ, ∃ s' ∈ runVotes τ, s.cycle = s'.cycle ∧ s.sig.take 33 ≠ s'.sig.take 33 :=
  computed _ (by decide +kernel)

/-- Its two signatures for the first index are not over one hash. -/
theorem signs_twice : ∃ e τ e', e.Fresh ∧ EngineRun prims e τ e' ∧
    (∃ s ∈ runVotes τ, ∃ s' ∈ runVotes τ, s.cycle = s'.cycle ∧ s.sig ≠ s'.sig) ∧
    ¬ ∃ H : UInt64 → Bytes, ∀ s ∈ runVotes τ, s.sig = signDilithium prims e.node.uid.secretKey (H s.cycle) := by
  have hrun : EngineRun prims (two 1) retried.1 retried.2.1 := run_calls _ _ _
  obtain ⟨τ, hτ, s, hs, s', hs', hcycle, hdigests⟩ := retriedVotes
  have hne : s.sig ≠ s'.sig := fun heq => hdigests (by rw [heq])
  rw [← hτ] at hrun
  refine ⟨two 1, τ, retried.2.1, .inr ⟨_, _, _, rfl⟩, hrun, ⟨s, hs, s', hs', hcycle, hne⟩, ?_⟩
  rintro ⟨H, hH⟩
  exact hne (by rw [hH s hs, hH s' hs', hcycle])

end Sample

end Gleipnir
