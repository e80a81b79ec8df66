import Gleipnir.Consensus.Votes

/-!
# What a cycle publishes

* `cycle_proposal`: a candidate that an engine proposes has the index of the cycle, carries a signature, and anchors the pool
  that was read last, on top of the tree the cycle began with.
* `cycle_leads`, `cycle_final`: a final block is published by the leader of the quorum check, and has the header of a
  candidate that was read back.
* `Committing.rooted`: the tree that a committed cycle leaves has the root of a candidate that was read, or of the
  candidate the engine proposed itself.
-/

namespace Gleipnir

open Atomic Atomic.Body

variable (X : Prims)

/-! ## Proposals -/

/-- The pool read last, after an event. -/
def nextSnapshot (last : List ProvenanceEntry) : Event → List ProvenanceEntry
  | ⟨.snapshot, pool⟩ => pool
  | _ => last

/-- The pool that a trace read last. -/
def lastSnapshot (t : Trace) : List ProvenanceEntry := t.foldl nextSnapshot []

/-- The root of the tree of `e` with the entries of a pool. -/
def Engine.rootWith (e : Engine) (pool : List ProvenanceEntry) : Bytes :=
  (e.st.insertHashes X (dedupEntries pool [])).root.toList

/-- The block is the candidate of `e` for its next index, built from the pool that `u` read last. -/
structure Proposed (e : Engine) (u : Trace) (block : Block) : Prop where
  index : block.index = e.nextCycle
  signed : block.prepareSigs ≠ []
  stateRoot : block.stateRoot = e.rootWith X (lastSnapshot u)

variable {e e' : Engine} {cycle : UInt64} {batch : List ProvenanceEntry} {cq am : Bool} {q : Nat} {u v t : Trace}
  {block : Block} {id : String} {x : Exit Unit}

theorem obtained_proposal {p : Peer} {y : Exit (Except PrepareError Block)}
    (h : Obtained X e cycle p batch cq q am (u ++ ⟨.propose block id, ()⟩ :: v) y e') (hg : e.hasGossip = true) :
    cq = false ∧ ∃ pool now, u = [⟨.snapshot, pool⟩, ⟨.now, now⟩] ∧
      block = e.newCandidate X cycle p (dedupEntries pool []) q now := by
  generalize ht : u ++ ⟨.propose block id, ()⟩ :: v = t at h
  have hmem : (⟨.propose block id, ()⟩ : Event) ∈ t := ht ▸ List.mem_append_right _ List.mem_cons_self
  cases h with
  | nothing err hlook => exact absurd hmem (not_mem_of_op hlook rfl)
  | readBack block ham hg hcq => cases List.mem_singleton.1 hmem
  | @built t₁ entries now ham hcq hpend hpool hlook =>
    obtain ⟨pool, rfl, rfl⟩ := hpool hg
    refine ⟨hcq hg, pool, now, ?_⟩
    simp only [Engine.broadcast, hg, if_true, List.singleton_append] at ht
    -- the proposal stands between the clock and the vote
    rcases u with _ | ⟨ev₁, _ | ⟨ev₂, _ | ⟨ev₃, _ | ⟨ev₄, u⟩⟩⟩⟩
    · cases ht
    · cases ht
    · cases ht
      exact ⟨rfl, rfl⟩
    · cases ht
    · simp at ht
  | @judged t₁ t₂ _ b ham hg' hlook hread hv =>
    rcases List.mem_append.1 hmem with hmem | hmem
    · exact absurd hmem (not_mem_of_op hlook rfl)
    · cases hv with
      | refused err => cases hmem
      | panicked hroot hhash hsigs => cases hmem
      | voted hroot hhash hsigs hsig => cases List.mem_singleton.1 hmem

/-- A proposal in a PREPARE phase, which is then not the quorum check. -/
theorem prepare_proposal {root : Hash} {x : Exit (Except PrepareError PrepareResult)}
    (h : Runs (runPreparePhase X cycle root batch cq q) e (u ++ ⟨.propose block id, ()⟩ :: v) x e') (hg : e.hasGossip = true) :
    cq = false ∧ ∃ p w pool now, u = w ++ [⟨.snapshot, pool⟩, ⟨.now, now⟩] ∧
      block = e.newCandidate X cycle p (dedupEntries pool []) q now := by
  obtain ⟨t₁, helect, ⟨ht, -⟩ | ⟨p, t₂, t₃, y, ht, -, ho, hc⟩⟩ := runs_preparePhase X h
  · have hmem : (⟨.propose block id, ()⟩ : Event) ∈ t₁ := ht ▸ List.mem_append_right _ List.mem_cons_self
    exact absurd hmem (not_mem_of_op helect rfl)
  · obtain ⟨w, w', rfl, rfl⟩ :=
      Occurrence.of_middle ht (not_mem_of_op helect rfl) (not_mem_of_op (counted_counting hc) rfl)
    obtain ⟨hcq, pool, now, rfl, hblock⟩ := obtained_proposal X ho hg
    exact ⟨hcq, p, t₁, pool, now, rfl, hblock⟩

/-- The candidate of a cycle, with the pool it was built from. -/
theorem cycle_candidate (h : Cycled X e (u ++ ⟨.propose block id, ()⟩ :: v) x e') (hg : e.hasGossip = true) :
    ∃ pool p w pool' now, u = e.ingestTrace pool ++ (w ++ [⟨.snapshot, pool'⟩, ⟨.now, now⟩]) ∧
      block = (e.ready X pool).newCandidate X e.nextCycle p (dedupEntries pool' []) (e.ready X pool).requiredQuorum now := by
  cases cycle_preparing X h rfl with
  | @first pool w _ _ _ hu h₁ =>
    obtain ⟨-, p, w', pool', now, rfl, hblock⟩ := prepare_proposal X h₁ (by rwa [Engine.ready_hasGossip])
    exact ⟨pool, p, w', pool', now, hu, hblock⟩
  | second hu h₁ h₂ =>
    obtain ⟨st₁, rfl⟩ := prepare_frame X h₁
    obtain ⟨hcq, -⟩ := prepare_proposal X h₂ (by simpa using hg)
    cases hcq

/-- **The proposal of a cycle.** -/
theorem cycle_proposal (h : Cycled X e (u ++ ⟨.propose block id, ()⟩ :: v) x e') (hg : e.hasGossip = true) :
    Proposed X e u block := by
  obtain ⟨pool, p, w, pool', now, hu, rfl⟩ := cycle_candidate X h hg
  have hlast : lastSnapshot u = pool' := by
    simp [hu, lastSnapshot, nextSnapshot]
  refine ⟨rfl, List.cons_ne_nil _ _, ?_⟩
  rw [hlast, Engine.rootWith, ← Engine.ready_st X e pool]
  rfl

/-! ## Final blocks -/

/-- The phases of a cycle of `e` that ends with its own final block: it is elected in the quorum check and reaches the
quorum. -/
structure Leading (e : Engine) (u : Trace) (block : Block) where
  pool : List ProvenanceEntry
  first : Trace
  second : Trace
  pr₁ : PrepareResult
  pr₂ : PrepareResult
  e₁ : Engine
  e₂ : Engine
  trace_eq : u = e.ingestTrace pool ++ (first ++ second)
  prepared : e.Prepares X pool false (e.ready X pool) first (.done (.ok pr₁)) e₁
  checked : e.Prepares X pool true e₁ second (.done (.ok pr₂)) e₂
  reached : pr₂.quorumReached = true
  leader : pr₂.leaderID = e.node.uid.id
  block_eq : block = e₂.finalBlock X pr₂

/-- **The final block that a cycle publishes** is its own. -/
theorem cycle_leads (h : Cycled X e (u ++ ⟨.publishFinal block id, ()⟩ :: v) x e') : Nonempty (Leading X e u block) := by
  obtain ⟨pool, w, w', y, e₃, rfl, hp⟩ := cycle_event X h rfl
  have hprepare : ∀ {cq e₁ t y e₂}, e.Prepares X pool cq e₁ t y e₂ → (⟨.publishFinal block id, ()⟩ : Event) ∉ t := by
    intro cq e₁ t y e₂ hrun hmem
    rcases prepare_calls X hrun _ hmem with hop | hop <;> cases hop
  generalize ht : w ++ ⟨.publishFinal block id, ()⟩ :: w' = t at hp
  have hmem : (⟨.publishFinal block id, ()⟩ : Event) ∈ t := ht ▸ List.mem_append_right _ List.mem_cons_self
  cases runs_phases X hp with
  | first h₁ hs => exact absurd hmem (hprepare h₁)
  | second h₁ h₂ hs =>
    rcases List.mem_append.1 hmem with hmem | hmem
    · exact absurd hmem (hprepare h₁)
    · exact absurd hmem (hprepare h₂)
  | @third t₁ t₂ t₃ pr₁ pr₂ r e₁ _ h₁ h₂ h₃ =>
    obtain ⟨s, hs, rfl⟩ := Occurrence.of_right ht (hprepare h₁)
    obtain ⟨s', hs', rfl⟩ := Occurrence.of_right hs.symm (hprepare h₂)
    have hmem₃ : (⟨.publishFinal block id, ()⟩ : Event) ∈ t₃ := hs' ▸ List.mem_append_right _ List.mem_cons_self
    cases h₃ with
    | failed err hfin => exact absurd hmem₃ (not_mem_of_op hfin rfl)
    | followed hq hl hg hfin hread hcheck => exact absurd hmem₃ (not_mem_of_op hfin rfl)
    | led hq hl hled =>
      rw [hled] at hmem₃ hs'
      split at hmem₃
      · next hg =>
        cases List.mem_singleton.1 hmem₃
        rw [if_pos hg] at hs'
        -- the final block is all that the commit publishes
        obtain rfl : s' = [] := by
          rcases s' with _ | ⟨ev, s'⟩
          · rfl
          · simp at hs'
        obtain ⟨st₁, he₁⟩ := prepare_frame X h₁
        obtain ⟨st₂, he₂⟩ := prepare_frame X h₂
        have hnode : e₃.node = e.node := by rw [he₂, he₁, Engine.ready_node]
        exact ⟨⟨pool, t₁, t₂, pr₁, pr₂, e₁, e₃, by rw [List.append_nil], h₁, h₂, hq, hl.trans (by rw [hnode]), rfl⟩⟩
      · cases hmem₃

/-- **The final block of a cycle** has the header of a candidate that was read before. -/
theorem cycle_final (h : Cycled X e (u ++ ⟨.publishFinal block id, ()⟩ :: v) x e') (hg : e.hasGossip = true) :
    ∃ c, ⟨.getProposed e.nextCycle, some c⟩ ∈ u ∧ SameHeader block c := by
  obtain ⟨⟨pool, t₁, t₂, pr₁, pr₂, e₁, e₂, rfl, h₁, h₂, -, hl, rfl⟩⟩ := cycle_leads X h
  obtain ⟨st₁, rfl⟩ := prepare_frame X h₁
  obtain ⟨p, s₁, s₂, s₃, rfl, -, hleader, hob, -⟩ := prepare_ok X h₂
  have hme : p.uid.id = e.node.uid.id := hleader.symm.trans hl
  -- the leader publishes the candidate it has read back
  rcases obtained_proposer X hob (by simp [hme]) with hread | ⟨halone, -⟩
  · exact ⟨pr₂.block, by simp [hread], sameHeader_finalBlock X e₂ pr₂⟩
  · simp [hg] at halone

/-! ## The tree of a committed cycle -/

/-- The root comes from a candidate that `t` has read, or from one that it has proposed. -/
def Rooted (e : Engine) (t : Trace) (root : Bytes) : Prop :=
  (∃ c, ⟨.getProposed e.nextCycle, some c⟩ ∈ t ∧ root = c.stateRoot) ∨
    ∃ c id, ⟨.propose c id, ()⟩ ∈ t ∧ root = c.stateRoot

/-- Where the candidate of a successful phase came from: the tree has its root, unless the phase only read it back. -/
theorem obtained_rooted {p : Peer} (h : Obtained X e cycle p batch cq q am t (.done (.ok block)) e') (hg : e.hasGossip = true) :
    (cq = true ∧ e' = e) ∨ (⟨.getProposed cycle, some block⟩ ∈ t ∧ e'.st.root.toList = block.stateRoot) ∨
      ∃ id, ⟨.propose block id, ()⟩ ∈ t ∧ e'.st.root.toList = block.stateRoot := by
  cases h with
  | readBack _ ham hg hcq => exact .inl ⟨hcq, rfl⟩
  | built entries now ham hcq hpend hpool ht =>
    exact .inr (.inr ⟨e.node.uid.id, by simp [Engine.broadcast, hg], rfl⟩)
  | judged b ham hg' ht hread hv =>
    cases hv with
    | voted hroot hhash hsigs hsig => exact .inr (.inl ⟨List.mem_append_left _ hread, hroot⟩)

/-- **The tree of a committed cycle.** -/
theorem Committing.rooted (c : Committing X e t e') (hg : e.hasGossip = true) : Rooted e t e'.st.root.toList := by
  have hpost : e'.st = c.e₂.st := (congrArg Engine.st c.post).trans rfl
  obtain ⟨st₁, hframe⟩ := prepare_frame X c.prepared
  obtain ⟨p₁, s₁, s₂, s₃, hfirst, -, -, hob₁, -⟩ := prepare_ok X c.prepared
  obtain ⟨p₂, r₁, r₂, r₃, hsecond, -, -, hob₂, -⟩ := prepare_ok X c.checked
  have hmem₁ : ∀ ev ∈ s₂, ev ∈ t := fun ev hev => c.mem_trace (.inl (by rw [hfirst]; simp [hev]))
  have hmem₂ : ∀ ev ∈ r₂, ev ∈ t := fun ev hev => c.mem_trace (.inr (.inl (by rw [hsecond]; simp [hev])))
  rw [hpost]
  rcases obtained_rooted X hob₂ (by rw [hframe]; simpa using hg) with ⟨-, hsame⟩ | ⟨hread, hroot⟩ | ⟨id, hpropose, hroot⟩
  · -- the quorum check left the tree of the first phase alone
    rw [hsame]
    rcases obtained_rooted X hob₁ (by simpa using hg) with ⟨hcq, -⟩ | ⟨hread, hroot⟩ | ⟨id, hpropose, hroot⟩
    · cases hcq
    · exact .inl ⟨_, hmem₁ _ hread, hroot⟩
    · exact .inr ⟨_, id, hmem₁ _ hpropose, hroot⟩
  · exact .inl ⟨_, hmem₂ _ hread, hroot⟩
  · exact .inr ⟨_, id, hmem₂ _ hpropose, hroot⟩

end Gleipnir
