import Gleipnir.Consensus.Alone
import Gleipnir.Sample

/-!
# The record of an anchored hash

A committed cycle writes a record for every entry of its block, over whatever stood there. No check keeps a hash that is
anchored already out of a queue, a pool or a block, so a second submission of it moves its record. `immutable_of_new` says
that the records stay and that no hash is anchored twice as long as the cycles are offered new hashes only.
-/

namespace Gleipnir

open Atomic

variable {X : Prims}

/-- The hashes that a block anchors. -/
def Block.hashes (b : Block) : List Hash := b.anchored.map (·.hash)

/-- The records agree on where a hash is anchored, by whom and under which label. -/
structure SameAnchor (r r' : AnchorProof) : Prop where
  blockIndex : r'.blockIndex = r.blockIndex
  submitter : r'.submitter = r.submitter
  label : r'.label = r.label

/-- At the end of a run every record that was there before is there, and no hash is in two blocks. -/
structure Immutable (τ : List (Transition Engine Called)) (e' : Engine) : Prop where
  records : ∀ x ∈ τ, ∀ hash r, x.pre.lookupHash hash = some r → ∃ r', e'.lookupHash hash = some r' ∧ SameAnchor r r'
  once : ∀ (i j : Nat) (b b' : Block) (hash : Hash), e'.blocks[i]? = some b → e'.blocks[j]? = some b' →
    hash ∈ b.hashes → hash ∈ b'.hashes → i = j

/-- What a cycle can be offered to anchor: without a channel what the engine awaits, with one the blocks that the channel
hands out for its index. -/
inductive Offered (e : Engine) (t : Trace) (hash : Hash) : Prop
  | awaited (hg : e.hasGossip = false) (h : hash ∈ e.allPending.map (·.hash))
  | candidate {block : Block} (hread : ⟨.getProposed e.nextCycle, some block⟩ ∈ t) (h : hash ∈ block.hashes)
  | final {block : Block} (hread : ⟨.getFinal e.nextCycle, some block⟩ ∈ t) (h : hash ∈ block.hashes)

/-- A cycle is offered hashes that are not anchored. -/
def OffersNew (x : Transition Engine Called) : Prop :=
  x.label.call = .runCycle → ∀ hash, Offered x.pre x.label.trace hash → x.pre.lookupHash hash = none

/-! ## The records of a block -/

section Record

/-- The loop of a committed cycle over its entries. -/
abbrev recordAnchors (record : ProvenanceEntry → AnchorProof) (entries : List ProvenanceEntry)
    (anchored : Hash → Option AnchorProof) : Hash → Option AnchorProof :=
  entries.foldl (fun (a : Hash → Option AnchorProof) pe => Function.update a pe.hash (some (record pe))) anchored

variable {entries : List ProvenanceEntry} {record : ProvenanceEntry → AnchorProof} {hash : Hash}

/-- Recording entries touches no other hash. -/
theorem recordAnchors_of_not_mem (h : hash ∉ entries.map (·.hash)) : ∀ anchored : Hash → Option AnchorProof,
    recordAnchors record entries anchored hash = anchored hash := by
  induction entries with
  | nil => exact fun _ => rfl
  | cons pe entries ih =>
    intro anchored
    rw [List.map_cons, List.mem_cons, not_or] at h
    rw [recordAnchors, List.foldl_cons]
    exact (ih h.2 _).trans (Function.update_of_ne h.1 _ _)

/-- A recorded hash has the record of one of its entries. -/
theorem recordAnchors_of_mem (h : hash ∈ entries.map (·.hash)) : ∀ anchored : Hash → Option AnchorProof,
    ∃ pe ∈ entries, pe.hash = hash ∧ recordAnchors record entries anchored hash = some (record pe) := by
  induction entries with
  | nil => cases h
  | cons pe entries ih =>
    intro anchored
    rw [recordAnchors, List.foldl_cons]
    by_cases hrest : hash ∈ entries.map (·.hash)
    · obtain ⟨pe', hpe', hhash, hrecord⟩ := ih hrest (Function.update anchored pe.hash (some (record pe)))
      exact ⟨pe', List.mem_cons_of_mem _ hpe', hhash, hrecord⟩
    · obtain rfl : hash = pe.hash := by
        rcases List.mem_cons.1 (List.map_cons ▸ h) with heq | hmem
        · exact heq
        · exact absurd hmem hrest
      exact ⟨pe, List.mem_cons_self, rfl, (recordAnchors_of_not_mem hrest _).trans (Function.update_self ..)⟩

end Record

/-! ## One step -/

/-- The anchored hashes are those of the chain. -/
def Indexed (e : Engine) : Prop := ∀ hash, (∃ r, e.lookupHash hash = some r) ↔ ∃ b ∈ e.blocks, hash ∈ b.hashes

variable {e e' : Engine} {t : Trace} {hash : Hash} {l : Called} {τ : List (Transition Engine Called)}

theorem indexed_fresh (h : e.Fresh) : Indexed e := by
  intro hash
  have hnone : e.lookupHash hash = none := congrFun h.blank.anchored hash
  rw [hnone, h.blank.blocks]
  simp

/-- A step that appends nothing leaves the records alone. -/
theorem cycle_anchored {x : Exit Unit} (h : Cycled X e t x e') :
    (e'.blocks = e.blocks ∧ e'.anchored = e.anchored) ∨ Nonempty (Committing X e t e') := by
  rcases cycle_blocks X h with hblocks | hcommit
  · refine .inl ⟨hblocks, ?_⟩
    cases h with
    | @skipped pool hs =>
      obtain ⟨pending, hstart⟩ := e.start_eq pool
      rw [hstart]
      rfl
    | panicked hs hp =>
      obtain ⟨st, rfl⟩ := phases_frame X hp
      exact e.ready_anchored X _
    | aborted hs hp =>
      obtain ⟨st, rfl⟩ := phases_frame X hp
      exact e.ready_anchored X _
    | failed hs hp hc =>
      rw [conclude_none hc]
      obtain ⟨st, rfl⟩ := phases_frame X hp
      exact e.ready_anchored X _
    | @committed pool _ _ final _ e₂ hs hp hc =>
      rw [concluded_blocks X hp hc] at hblocks
      simp at hblocks
  · exact .inr hcommit

theorem appendBlock_anchored (e : Engine) (next : NetworkState) (block : Block) : (e.appendBlock next block).anchored =
    recordAnchors ((e.appendBlock next block).anchorProof block) block.anchored e.anchored := rfl

/-- The records after a committed cycle. -/
theorem Committing.anchored (cm : Committing X e t e') (hash : Hash) :
    (hash ∉ cm.final.hashes → e'.lookupHash hash = e.lookupHash hash) ∧
      (hash ∈ cm.final.hashes → ∃ pe ∈ cm.final.anchored, pe.hash = hash ∧
        e'.lookupHash hash = some (e'.anchorProof cm.final pe)) := by
  obtain ⟨st, hframe⟩ := cm.frame
  have hbefore : cm.e₂.anchored = e.anchored := by rw [hframe, Engine.ready_anchored]
  have hrecords := appendBlock_anchored (cm.e₂.transit e.activeValidators true) cm.next cm.final
  rw [← cm.post] at hrecords
  change e'.anchored = recordAnchors _ _ cm.e₂.anchored at hrecords
  rw [hbefore] at hrecords
  unfold Engine.lookupHash
  rw [hrecords]
  exact ⟨fun hnew => recordAnchors_of_not_mem hnew _, fun hmem => recordAnchors_of_mem hmem _⟩

theorem dedupEntries_sublist (entries : List ProvenanceEntry) : ∀ seen, (dedupEntries entries seen).Sublist entries := by
  induction entries with
  | nil => exact fun _ => List.Sublist.refl _
  | cons pe entries ih =>
    intro seen
    unfold dedupEntries
    split
    · exact (ih seen).cons pe
    · exact (ih (pe.hash :: seen)).cons_cons pe

/-- What a cycle commits it was offered. -/
theorem Committing.offered (cm : Committing X e t e') (h : hash ∈ cm.final.hashes) : Offered e t hash := by
  obtain ⟨p, -, -, hsource⟩ := cm.source
  cases hsource with
  | final hme hread hb => exact .final hread (by rwa [Block.hashes, ← hb.anchored])
  | candidate hme hread hb => exact .candidate hread (by rwa [Block.hashes, ← hb.anchored])
  | built hme hg hindex hprev hproposer hanchored =>
    rw [Block.hashes, hanchored [], Engine.start_allPending hg] at h
    exact .awaited hg (((dedupEntries_sublist _ _).map _).subset h)

/-- A step leaves the chain and the records alone, unless it commits. -/
theorem step_records (h : EngineStep X e l e') :
    (e'.blocks = e.blocks ∧ e'.anchored = e.anchored) ∨ (l.call = .runCycle ∧ Nonempty (Committing X e l.trace e')) := by
  by_cases hc : l.call = .runCycle
  · rw [EngineStep, hc] at h
    obtain ⟨x, hcycled⟩ := run_runCycle X h
    exact (cycle_anchored hcycled).imp_right fun hcommit => ⟨hc, hcommit⟩
  · obtain ⟨⟨x, e'⟩, rfl, hrun⟩ := run_map.1 h
    obtain ⟨hblocks, hanchored, -⟩ := (filed_call X hc hrun).frame
    exact .inl ⟨hblocks, hanchored⟩

/-- A step keeps the chain an index of the records. -/
theorem indexed_step (h : EngineStep X e l e') (hindexed : Indexed e) : Indexed e' := by
  intro hash
  rcases step_records h with ⟨hblocks, hanchored⟩ | ⟨-, ⟨cm⟩⟩
  · rw [Engine.lookupHash, hanchored, hblocks]
    exact hindexed hash
  · rw [cm.blocks_eq]
    by_cases hmem : hash ∈ cm.final.hashes
    · obtain ⟨pe, -, -, hrecord⟩ := (cm.anchored hash).2 hmem
      exact iff_of_true ⟨_, hrecord⟩ ⟨cm.final, by simp, hmem⟩
    · rw [(cm.anchored hash).1 hmem, hindexed hash]
      simp [hmem]

theorem indexed_run (hfresh : e.Fresh) (h : EngineRun X e τ e') : Indexed e' :=
  h.preserves (fun _ _ _ hstep hi => indexed_step hstep hi) (indexed_fresh hfresh)

/-- **A step and the records.** A step that is offered new hashes keeps every record; if it appends a block, none of the
hashes of the block were anchored. -/
theorem step_anchored (h : EngineStep X e l e') (hnew : OffersNew ⟨e, l, e'⟩) :
    (∀ hash r, e.lookupHash hash = some r → e'.lookupHash hash = some r) ∧
      (e'.blocks = e.blocks ∨ ∃ b, e'.blocks = e.blocks ++ [b] ∧ ∀ hash ∈ b.hashes, e.lookupHash hash = none) := by
  rcases step_records h with ⟨hblocks, hanchored⟩ | ⟨hc, ⟨cm⟩⟩
  · refine ⟨fun hash r hr => ?_, .inl hblocks⟩
    rwa [Engine.lookupHash, hanchored]
  · have hfresh : ∀ hash ∈ cm.final.hashes, e.lookupHash hash = none := fun hash hmem =>
      hnew hc hash (cm.offered hmem)
    refine ⟨fun hash r hr => ?_, .inr ⟨cm.final, cm.blocks_eq, hfresh⟩⟩
    rw [(cm.anchored hash).1 fun hmem => ?_]
    · exact hr
    · rw [hfresh hash hmem] at hr
      cases hr

/-! ## Runs -/

/-- No two blocks of the chain share a hash. -/
def Unrepeated (blocks : List Block) : Prop := blocks.Pairwise fun b b' => ∀ hash ∈ b.hashes, hash ∉ b'.hashes

theorem Unrepeated.index {blocks : List Block} (h : Unrepeated blocks) {i j : Nat} {b b' : Block} (hi : blocks[i]? = some b)
    (hj : blocks[j]? = some b') (hb : hash ∈ b.hashes) (hb' : hash ∈ b'.hashes) : i = j := by
  obtain ⟨hlti, rfl⟩ := List.getElem?_eq_some_iff.1 hi
  obtain ⟨hltj, rfl⟩ := List.getElem?_eq_some_iff.1 hj
  rcases Nat.lt_trichotomy i j with hlt | heq | hlt
  · exact absurd hb' (List.pairwise_iff_getElem.1 h i j hlti hltj hlt hash hb)
  · exact heq
  · exact absurd hb (List.pairwise_iff_getElem.1 h j i hltj hlti hlt hash hb')

/-- The chain indexes the records and repeats no hash. -/
structure Distinct (e : Engine) : Prop where
  indexed : Indexed e
  unrepeated : Unrepeated e.blocks

theorem distinct_step (hnew : OffersNew ⟨e, l, e'⟩) (h : EngineStep X e l e') (hd : Distinct e) : Distinct e' := by
  obtain ⟨-, hblocks | ⟨b, hblocks, hb⟩⟩ := step_anchored h hnew
  · exact ⟨indexed_step h hd.indexed, hblocks ▸ hd.unrepeated⟩
  · refine ⟨indexed_step h hd.indexed, ?_⟩
    rw [hblocks]
    refine List.pairwise_append.2 ⟨hd.unrepeated, List.pairwise_singleton _ _, fun b₁ hb₁ b₂ hb₂ hash hmem hmem₂ => ?_⟩
    obtain rfl := List.mem_singleton.1 hb₂
    obtain ⟨r, hr⟩ := (hd.indexed hash).2 ⟨b₁, hb₁, hmem⟩
    rw [hb hash hmem₂] at hr
    cases hr

/-- The records of a run whose cycles are offered new hashes only grow. -/
theorem lookupHash_run (h : EngineRun X e τ e') (hnew : ∀ x ∈ τ, OffersNew x) :
    ∀ hash r, e.lookupHash hash = some r → e'.lookupHash hash = some r := by
  induction h with
  | nil e => exact fun _ _ hr => hr
  | cons hs _ ih =>
    intro hash r hr
    have hkeeps := (step_anchored hs (hnew _ List.mem_cons_self)).1
    exact ih (fun x hx => hnew x (List.mem_cons_of_mem _ hx)) hash r (hkeeps hash r hr)

/-- A record that is there before a step of such a run is there at its end. -/
theorem records_run (h : EngineRun X e τ e') (hnew : ∀ x ∈ τ, OffersNew x) :
    ∀ x ∈ τ, ∀ hash r, x.pre.lookupHash hash = some r → e'.lookupHash hash = some r := by
  induction h with
  | nil e => exact fun _ hx => absurd hx List.not_mem_nil
  | cons hs hp ih =>
    intro x hx
    rcases List.mem_cons.1 hx with rfl | hx
    · exact lookupHash_run (.cons hs hp) hnew
    · exact ih (fun y hy => hnew y (List.mem_cons_of_mem _ hy)) x hx

/-- **Anchors are immutable among new hashes.** In every run whose cycles are offered only hashes that are not anchored,
every record stays as it was written, and no hash is in two blocks. -/
theorem immutable_of_new {e e' : Engine} {τ : List (Transition Engine Called)} (hfresh : e.Fresh)
    (h : EngineRun X e τ e') (hnew : ∀ x ∈ τ, OffersNew x) : Immutable τ e' := by
  have hstart : Distinct e := ⟨indexed_fresh hfresh, by rw [hfresh.blank.blocks]; exact List.Pairwise.nil⟩
  have hdistinct : Distinct e' :=
    Path.invariant (C := OffersNew) (I := Distinct) (fun _ _ _ hC hstep hd => distinct_step hC hstep hd) h hnew hstart
  refine ⟨fun x hx hash r hr => ?_, fun i j b b' hash hi hj => hdistinct.unrepeated.index hi hj⟩
  exact ⟨r, records_run h hnew x hx hash r hr, rfl, rfl, rfl⟩

namespace Sample

/-- A cycle without a channel is offered what it awaits. -/
theorem offersNew_alone {x : Transition Engine Called} (hg : x.pre.hasGossip = false)
    (hstep : EngineStep prims x.pre x.label x.post) (h : ∀ pe ∈ x.pre.allPending, x.pre.lookupHash pe.hash = none) :
    OffersNew x := by
  intro hc hash hoffered
  rw [EngineStep, hc] at hstep
  obtain ⟨y, hcycled⟩ := run_runCycle prims hstep
  have hclock := (cycle_alone hg hcycled).2
  cases hoffered with
  | awaited _ hmem =>
    obtain ⟨pe, hpe, rfl⟩ := List.mem_map.1 hmem
    exact h pe hpe
  | candidate hread hmem => cases hclock _ hread
  | final hread hmem => cases hclock _ hread

/-- A single node anchors two entries, one after the other. -/
def anchorTwice (pe pe' : ProvenanceEntry) : List (Transition Engine Called) × Engine × MemoryBus :=
  calls [.enqueue pe, .runCycle, .enqueue pe', .runCycle] (Engine.new (node 1)) MemoryBus.new

theorem run_anchorTwice (pe pe' : ProvenanceEntry) :
    EngineRun prims (Engine.new (node 1)) (anchorTwice pe pe').1 (anchorTwice pe pe').2.1 := run_calls _ _ _

/-- Two different hashes keep their records. -/
theorem anchorTwice_immutable : (anchorTwice (entry 9) (entry 10)).2.1.blocks.length = 2 ∧
    Immutable (anchorTwice (entry 9) (entry 10)).1 (anchorTwice (entry 9) (entry 10)).2.1 := by
  obtain ⟨htwo, hnew⟩ : (anchorTwice (entry 9) (entry 10)).2.1.blocks.length = 2 ∧
      ∀ x ∈ (anchorTwice (entry 9) (entry 10)).1, ∀ pe ∈ x.pre.allPending, (x.pre.lookupHash pe.hash).isNone = true := by
    decide +kernel
  have hrun := run_anchorTwice (entry 9) (entry 10)
  refine ⟨htwo, immutable_of_new (.inl ⟨_, rfl⟩) hrun fun x hx => ?_⟩
  obtain ⟨τ₁, τ₂, -, hpre, hstep⟩ := hrun.split hx
  exact offersNew_alone (sameEngine_run prims hpre).hasGossip hstep fun pe hpe => Option.isNone_iff_eq_none.1 (hnew x hx pe hpe)

/-- The hash of the first entry, submitted by someone else under another label. -/
def reentry : ProvenanceEntry := { entry 9 with submitter := Arr.copy 16 [8], label := "again" }

/-- The second submission is accepted and anchored in a second block, and takes the record over. -/
theorem reentry_moves_record : ∃ e τ e', e.Fresh ∧ EngineRun prims e τ e' ∧ (∃ x ∈ τ,
      (x.pre.lookupHash (entry 9).hash).map (fun r => (r.blockIndex, r.label)) = some (0, "entry")) ∧
    (e'.lookupHash (entry 9).hash).map (fun r => (r.blockIndex, r.label)) = some (1, "again") ∧
    (e'.blocks.map fun b => b.hashes) = [[(entry 9).hash], [(entry 9).hash]] ∧ ¬ Immutable τ e' := by
  obtain ⟨hbefore, hafter, hhashes⟩ : (∃ x ∈ (anchorTwice (entry 9) reentry).1,
        (x.pre.lookupHash (entry 9).hash).map (fun r => (r.blockIndex, r.label)) = some (0, "entry")) ∧
      ((anchorTwice (entry 9) reentry).2.1.lookupHash (entry 9).hash).map (fun r => (r.blockIndex, r.label)) =
        some (1, "again") ∧
      ((anchorTwice (entry 9) reentry).2.1.blocks.map fun b => b.hashes) = [[(entry 9).hash], [(entry 9).hash]] := by
    decide +kernel
  refine ⟨_, _, _, .inl ⟨node 1, rfl⟩, run_anchorTwice _ _, hbefore, hafter, hhashes, fun h => ?_⟩
  obtain ⟨x, hx, hrecord⟩ := hbefore
  obtain ⟨r, hr, hkey⟩ := Option.map_eq_some_iff.1 hrecord
  obtain ⟨r', hr', hsame⟩ := h.records x hx _ r hr
  rw [hr', Option.map_some, hsame.blockIndex, hsame.label, hkey] at hafter
  simp at hafter

end Sample

end Gleipnir
