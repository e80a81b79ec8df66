import Gleipnir.Consensus.CallsSpec

/-!
# Where a committed block comes from

A step of an engine leaves its chain alone or appends one block (`step_blocks`). The header of that block, which its hash
covers, is that of a final block read from the channel, of a candidate the leader read back, or, without a channel, of the
candidate the node built (`Source`).
-/

namespace Gleipnir

open Atomic Atomic.Body

variable (X : Prims)

/-! ## Headers -/

/-- The two blocks agree in everything the block hash covers. -/
structure SameHeader (b c : Block) : Prop where
  index : b.index = c.index
  prevHash : b.prevHash = c.prevHash
  stateRoot : b.stateRoot = c.stateRoot
  proposer : b.proposer = c.proposer
  anchored : b.anchored = c.anchored
  timestamp : b.timestamp = c.timestamp
  quorum : b.quorum = c.quorum

theorem SameHeader.trans {a b c : Block} (h : SameHeader a b) (h' : SameHeader b c) : SameHeader a c :=
  ⟨h.index.trans h'.index, h.prevHash.trans h'.prevHash, h.stateRoot.trans h'.stateRoot, h.proposer.trans h'.proposer,
    h.anchored.trans h'.anchored, h.timestamp.trans h'.timestamp, h.quorum.trans h'.quorum⟩

theorem SameHeader.hash {b c : Block} (h : SameHeader b c) : computeBlockHash X b = computeBlockHash X c :=
  computeBlockHash_congr X h.index h.prevHash h.stateRoot h.proposer h.anchored h.timestamp h.quorum

theorem sameHeader_finalBlock (e : Engine) (pr : PrepareResult) : SameHeader (e.finalBlock X pr) pr.block :=
  ⟨rfl, rfl, rfl, rfl, rfl, rfl, rfl⟩

variable {block : Block} {e e' : Engine} {t : Trace} {cycle : UInt64} {batch : List ProvenanceEntry} {q : Nat}
  {pr : PrepareResult} {p : Peer} {x : Exit Unit}

theorem sameHeader_applyDegradedBlock {d : DegradedMode} {block' : Block} {peers : List Peer}
    (h : d.applyDegradedBlock X block peers = some block') : SameHeader block' block ∧ block'.blockHash = block.blockHash := by
  obtain ⟨sigs, bitmap, metadata, rfl⟩ := applyDegradedBlock_eq X h
  exact ⟨⟨rfl, rfl, rfl, rfl, rfl, rfl, rfl⟩, rfl⟩

/-! ## The proposer of a phase -/

theorem electedBy_congr (hn : e'.node = e.node) (hg : e'.hasGossip = e.hasGossip) (hp : e'.peers = e.peers) (cycle : UInt64)
    (root : Hash) (t : Trace) : electedBy X e' cycle root t = electedBy X e cycle root t := by
  simp only [electedBy, Engine.proposerPeers, hn, hg, hp]

theorem electedBy_ready (e : Engine) (pool : List ProvenanceEntry) (cycle : UInt64) (root : Hash) (t : Trace) :
    electedBy X (e.ready X pool) cycle root t = electedBy X e cycle root t :=
  electedBy_congr X (e.ready_node X pool) (e.ready_hasGossip X pool) (e.ready_peers X pool) cycle root t

/-- Calls of a kind that does not read VRF proofs. -/
theorem quiet_of_op {P : Op → Bool} (hP : ∀ c, P (.getVRFProofs c) = false) (ht : ∀ ev ∈ t, P ev.op = true) :
    ∀ ev ∈ t, ∀ c, ev.op ≠ .getVRFProofs c := by
  intro ev hev c hc
  have hp := ht ev hev
  rw [hc, hP c] at hp
  cases hp

/-- A PREPARE phase that succeeds has a leader, elected by the proofs of its own trace, and a candidate. -/
theorem prepare_ok {root : Hash} {cq : Bool} (h : Runs (runPreparePhase X cycle root batch cq q) e t (.done (.ok pr)) e') :
    ∃ p t₁ t₂ t₃, t = t₁ ++ (t₂ ++ t₃) ∧ (∀ u, electedBy X e cycle root (u ++ t) = some p) ∧ pr.leaderID = p.uid.id ∧
      Obtained X e cycle p batch cq q (p.uid.id == e.node.uid.id) t₂ (.done (.ok pr.block)) e' ∧
      Runs (tally X cycle (p.uid.id == e.node.uid.id) p.uid.id pr.block cq q) e' t₃ (.done pr) e' := by
  obtain ⟨t₁, -, ⟨-, -, err, herr⟩ | ⟨p, t₂, t₃, y, rfl, hp, ho, hc⟩⟩ := runs_preparePhase X h
  · cases herr
  · have hquiet : ∀ ev ∈ t₂ ++ t₃, ∀ c, ev.op ≠ .getVRFProofs c := by
      intro ev hev
      rcases List.mem_append.1 hev with hev | hev
      · exact quiet_of_op (fun _ => rfl) (obtained_dealing X ho) ev hev
      · exact quiet_of_op (fun _ => rfl) (counted_counting hc) ev hev
    cases hc with
    | counted ht hl hsigned hrun => exact ⟨p, t₁, t₂, t₃, rfl, (hp.append_quiet X hquiet).outcome, hl, ho, hrun⟩

/-- In the quorum check a proposer has read its candidate back, or built it if there is no channel. -/
theorem obtained_proposer {am : Bool} (h : Obtained X e cycle p batch true q am t (.done (.ok block)) e') (ham : am = true) :
    ⟨.getProposed cycle, some block⟩ ∈ t ∨
      (e.hasGossip = false ∧ ∃ now, block = e.newCandidate X cycle p (dedupEntries batch []) q now) := by
  cases h with
  | readBack block ham' hg hcq => exact .inl (List.mem_singleton.2 rfl)
  | built entries now ham' hcq hpend hpool ht =>
    have hg : e.hasGossip = false := by simpa using hcq
    exact .inr ⟨hg, now, by rw [hpend hg]⟩
  | judged block ham' hg ht hread hv =>
    rw [ham] at ham'
    cases ham'

/-! ## The committed block -/

/-- A cycle of `e` that committed: its phases, the block they delivered, and the block that was appended. -/
structure Committing (e : Engine) (t : Trace) (e' : Engine) where
  pool : List ProvenanceEntry
  first : Trace
  second : Trace
  third : Trace
  pr₁ : PrepareResult
  pr₂ : PrepareResult
  e₁ : Engine
  e₂ : Engine
  delivered : Block
  final : Block
  next : NetworkState
  trace_eq : t = e.ingestTrace pool ++ ((first ++ (second ++ third)) ++ e.removeTrace final)
  prepared : Runs (runPreparePhase X e.nextCycle e.st.root (e.start pool).allPending false
    (e.ready X pool).requiredQuorum) (e.ready X pool) first (.done (.ok pr₁)) e₁
  checked : Runs (runPreparePhase X e.nextCycle e.st.root (e.start pool).allPending true
    (e.ready X pool).requiredQuorum) e₁ second (.done (.ok pr₂)) e₂
  finalised : Finalised X e₂ e.nextCycle pr₂ third (.done (.ok delivered))
  applied : (e₂.transit e.activeValidators true).degraded.applyDegradedBlock X delivered e₂.peers = some final
  moved : apply X e₂.state e₂.state.supervisionRoot [e₂.node.uid.id] e₂.cfg = .ok next
  post : e' = (e₂.transit e.activeValidators true).appendBlock next final

/-- A cycle appends at most one block, and only when it commits. -/
theorem cycle_blocks (h : Cycled X e t x e') : e'.blocks = e.blocks ∨ Nonempty (Committing X e t e') := by
  cases h with
  | @skipped pool hs =>
    left
    exact e.start_blocks pool
  | panicked hs hp =>
    obtain ⟨st, rfl⟩ := phases_frame X hp
    exact .inl (by simp)
  | aborted hs hp =>
    obtain ⟨st, rfl⟩ := phases_frame X hp
    exact .inl (by simp [Engine.abort])
  | failed hs hp hc =>
    rw [conclude_none hc]
    obtain ⟨st, rfl⟩ := phases_frame X hp
    exact .inl (by simp [Engine.abort, Engine.transit])
  | @committed pool u block final reached e₂ hs hp hc =>
    right
    obtain rfl := reached_of_phases X hp
    obtain ⟨next, hd, ha, hpost⟩ := conclude_some hc
    simp only [Engine.concluded, ready_activeValidators] at hd hpost ⊢
    generalize hx : (Exit.done (some (block, true)) : Exit (Option (Block × Bool))) = y at hp
    cases runs_phases X hp with
    | first h₁ hst => cases hst <;> cases hx
    | second h₁ h₂ hst => cases hst <;> cases hx
    | @third t₁ t₂ t₃ pr₁ pr₂ r e₁ _ h₁ h₂ h₃ =>
      cases r with
      | error err => cases hx
      | ok b =>
        simp only [delivered, Exit.done.injEq, Option.some.injEq, Prod.mk.injEq] at hx
        obtain ⟨rfl, -⟩ := hx
        exact ⟨⟨pool, t₁, t₂, t₃, pr₁, pr₂, e₁, e₂, block, final, next, rfl, h₁, h₂, h₃, hd, ha, hpost⟩⟩

variable {X} in
/-- A cycle that neither commits nor panics restores the tree. -/
theorem cycle_restores (h : Cycled X e t x e') (hblocks : e'.blocks = e.blocks) (hx : x ≠ .panic) : e'.st = e.st := by
  cases h with
  | @skipped pool hs => exact e.start_st pool
  | panicked hs hp => exact absurd rfl hx
  | aborted hs hp => rfl
  | failed hs hp hc =>
    rw [conclude_none hc]
    rfl
  | @committed pool _ _ final _ e₂ hs hp hc =>
    rw [concluded_blocks X hp hc] at hblocks
    simp at hblocks

namespace Committing

variable {X} {e e' : Engine} {t : Trace} (c : Committing X e t e')
include c

/-- The phases changed the tree of the engine at most. -/
theorem frame : ∃ st, c.e₂ = { e.ready X c.pool with st := st } := by
  obtain ⟨st₁, h₁⟩ := prepare_frame X c.prepared
  obtain ⟨st₂, h₂⟩ := prepare_frame X c.checked
  exact ⟨st₂, by rw [h₂, h₁]⟩

theorem mem_trace {ev : Event} (h : ev ∈ c.first ∨ ev ∈ c.second ∨ ev ∈ c.third) : ev ∈ t := by
  rw [c.trace_eq]
  rcases h with h | h | h <;> simp [h]

theorem blocks_eq : e'.blocks = e.blocks ++ [c.final] := by
  obtain ⟨st, hframe⟩ := c.frame
  have hblocks : c.e₂.blocks = e.blocks := by rw [hframe, Engine.ready_blocks]
  have hpost := congrArg Engine.blocks c.post
  rw [hpost, ← hblocks]
  rfl

end Committing

/-- Where the header of an appended block comes from, `p` being the validator elected in the cycle. -/
inductive Source (e : Engine) (t : Trace) (p : Peer) (b : Block) : Prop
  | final {f : Block} (hme : p.uid.id ≠ e.node.uid.id) (hread : ⟨.getFinal e.nextCycle, some f⟩ ∈ t)
      (hb : SameHeader b f)
  | candidate {c : Block} (hme : p.uid.id = e.node.uid.id) (hread : ⟨.getProposed e.nextCycle, some c⟩ ∈ t)
      (hb : SameHeader b c)
  | built (hme : p.uid.id = e.node.uid.id) (hg : e.hasGossip = false) (hindex : b.index = e.nextCycle)
      (hprev : b.prevHash = e.prevHash) (hproposer : b.proposer = p.uid.rootID)
      (hanchored : ∀ pool, b.anchored = dedupEntries (e.start pool).allPending [])

theorem finalised_ok (h : Finalised X e cycle pr t (.done (.ok block))) : block.blockHash = computeBlockHash X block ∧
      ((pr.leaderID = e.node.uid.id ∧ SameHeader block pr.block) ∨
        (pr.leaderID ≠ e.node.uid.id ∧ ⟨.getFinal cycle, some block⟩ ∈ t)) := by
  cases h with
  | led hq hl ht => exact ⟨rfl, .inl ⟨hl, sameHeader_finalBlock X e pr⟩⟩
  | followed hq hl hg ht hread hcheck => exact ⟨(checkFinal_ok X hcheck).2.2.symm, .inr ⟨hl, hread⟩⟩

theorem finalising_quiet {x : Exit (Except CommitError Block)} (h : Finalised X e cycle pr t x) :
    ∀ ev ∈ t, ∀ c, ev.op ≠ .getVRFProofs c := by
  cases h with
  | failed err ht => exact quiet_of_op (fun _ => rfl) ht
  | followed hq hl hg ht hread hcheck => exact quiet_of_op (fun _ => rfl) ht
  | led hq hl ht =>
    intro ev hev c hc
    rw [ht] at hev
    split at hev
    · obtain rfl := List.mem_singleton.1 hev
      cases hc
    · cases hev

theorem removeTrace_quiet (e : Engine) (block : Block) : ∀ ev ∈ e.removeTrace block, ∀ c, ev.op ≠ .getVRFProofs c := by
  intro ev hev c hc
  unfold Engine.removeTrace at hev
  split at hev
  · obtain rfl := List.mem_singleton.1 hev
    cases hc
  · cases hev

/-- The validator elected in a committed cycle is the leader of the quorum check. -/
theorem Committing.elected (c : Committing X e t e') (hp : ∀ u, electedBy X c.e₁ e.nextCycle e.st.root (u ++ c.second) = some p) :
    electedBy X e e.nextCycle e.st.root t = some p := by
  obtain ⟨st₁, h₁⟩ := prepare_frame X c.prepared
  have htrace : t = (e.ingestTrace c.pool ++ c.first ++ c.second) ++ (c.third ++ e.removeTrace c.final) :=
    c.trace_eq.trans (by simp)
  have hquiet : ∀ ev ∈ c.third ++ e.removeTrace c.final, ∀ c, ev.op ≠ .getVRFProofs c := by
    intro ev hev
    rcases List.mem_append.1 hev with hev | hev
    · exact finalising_quiet X c.finalised ev hev
    · exact removeTrace_quiet e c.final ev hev
  calc electedBy X e e.nextCycle e.st.root t
      = electedBy X e e.nextCycle e.st.root (e.ingestTrace c.pool ++ c.first ++ c.second) := by
        conv_lhs => rw [htrace]
        exact electedBy_append_quiet X hquiet
    _ = electedBy X c.e₁ e.nextCycle e.st.root (e.ingestTrace c.pool ++ c.first ++ c.second) := by
        refine (electedBy_congr X ?_ ?_ ?_ _ _ _).symm
        · rw [h₁, Engine.ready_node]
        · rw [h₁, Engine.ready_hasGossip]
        · rw [h₁, Engine.ready_peers]
    _ = some p := hp _

/-- The appended block names its own hash, and its header has a source. -/
theorem Committing.source (c : Committing X e t e') :
    ∃ p, electedBy X e e.nextCycle e.st.root t = some p ∧ c.final.blockHash = computeBlockHash X c.final ∧
      Source e t p c.final := by
  obtain ⟨p, t₁, t₂, t₃, hsecond, hel, hleader, hob, -⟩ := prepare_ok X c.checked
  obtain ⟨st₁, h₁⟩ := prepare_frame X c.prepared
  obtain ⟨st, h₂⟩ := c.frame
  obtain ⟨hhash, hsource⟩ := finalised_ok X c.finalised
  obtain ⟨hheader, hhash'⟩ := sameHeader_applyDegradedBlock X c.applied
  have hnode₁ : c.e₁.node = e.node := by rw [h₁, Engine.ready_node]
  have hnode₂ : c.e₂.node = e.node := by rw [h₂, Engine.ready_node]
  have hprev : c.e₁.prevHash = e.prevHash := by
    rw [h₁]
    simp only [Engine.prevHash, Engine.ready_blocks]
  refine ⟨p, c.elected X hel, by rw [hhash', hhash, hheader.hash], ?_⟩
  rcases hsource with ⟨hl, hb⟩ | ⟨hl, hread⟩
  · have hme : p.uid.id = e.node.uid.id := by rw [← hleader, hl, hnode₂]
    have hheader' : SameHeader c.final c.pr₂.block := hheader.trans hb
    rcases obtained_proposer X hob (by rw [hme, hnode₁, beq_self_eq_true]) with hread | ⟨hg, now, hnew⟩
    · exact .candidate hme (c.mem_trace (.inr (.inl (by rw [hsecond]; simp [hread])))) hheader'
    · rw [hnew] at hheader'
      have hg' : e.hasGossip = false := by rwa [h₁, Engine.ready_hasGossip] at hg
      refine .built hme hg' hheader'.index (hheader'.prevHash.trans hprev) hheader'.proposer fun pool => ?_
      rw [Engine.start_alone hg' pool c.pool]
      exact hheader'.anchored
  · exact .final (by rwa [← hleader, ← hnode₂]) (c.mem_trace (.inr (.inr hread))) hheader

/-- **A step and the chain**: a step appends at most one block, which comes from a committed cycle. -/
theorem step_blocks {l : Called} (h : EngineStep X e l e') :
    e'.blocks = e.blocks ∨ (l.call = .runCycle ∧ Nonempty (Committing X e l.trace e')) := by
  by_cases hc : l.call = .runCycle
  · rw [EngineStep, hc] at h
    obtain ⟨x, hcycled⟩ := run_runCycle X h
    exact (cycle_blocks X hcycled).imp_right fun hcommit => ⟨hc, hcommit⟩
  · obtain ⟨⟨x, s⟩, rfl, hrun⟩ := run_map.1 h
    exact .inl (call_within X hc _ _ _ _ hrun).1.blocks

end Gleipnir
