import Gleipnir.Consensus.Agreement
import Gleipnir.Consensus.Anchors

/-!
# What becomes of a submission

An accepted hash is queued, then retained or in the pool of the bus, and in the end anchored. A committed cycle clears the
queue of its engine whatever the block anchors, and `Submit` puts nothing into the pool, so a hash can get lost there.
`held_of_covered` says that this is the only place: no hash is lost in a run in which every engine that commits has its queue
in the block, among the retained entries, in the pool or in a chain.
-/

namespace Gleipnir

open Atomic Atomic.Body

variable (X : Prims) {ι : Type}

/-! ## What a call does with what an engine awaits -/

/-- The calls that take entries out of the pool. -/
def Op.removing : Op → Bool
  | .removeEntries _ => true
  | _ => false

/-- What a call of an engine with a channel leaves: everything the engine awaited, or, if a block was committed, the retained
entries that are not in it. The entries of the block are taken out of the pool at the very end. -/
inductive Settled (e : Engine) (t : Trace) (e' : Engine) : Prop
  | kept (hblocks : e'.blocks = e.blocks) (hawaits : e.allPending ⊆ e'.allPending)
      (ht : ∀ ev ∈ t, ev.op.removing = false)
  | committed {u : Trace} (block : Block) (hblocks : e'.blocks = e.blocks ++ [block])
      (hretained : ∀ pe ∈ e.pendingEntries, pe.hash ∈ block.hashes ∨ pe ∈ e'.pendingEntries)
      (ht : t = u ++ [⟨.removeEntries block.hashes, ()⟩]) (hu : ∀ ev ∈ u, ev.op.removing = false)

theorem ingestTrace_removing (e : Engine) (pool : List ProvenanceEntry) : ∀ ev ∈ e.ingestTrace pool, ev.op.removing = false := by
  unfold Engine.ingestTrace
  split
  · simp [Op.removing]
  · simp

variable {o : Op} {cycle : UInt64} {e e₂ e' : Engine} {t past : Trace} {pool : List ProvenanceEntry}
  {y : Exit (Option (Block × Bool))} {c : Call} {w w' : Network ι} {m : Move ι Call Op Op.Res} {i : ι}
  {rest : Prog Op Op.Res Engine} {hash : Hash}

theorem not_removing_of_electing (h : o.electing cycle = true) : o.removing = false := by
  cases o <;> first | rfl | cases h

theorem not_removing_of_dealing (h : o.dealing = true) : o.removing = false := by
  cases o <;> first | rfl | cases h

theorem not_removing_of_finalising (h : o.finalising = true) : o.removing = false := by
  cases o <;> first | rfl | cases h

theorem not_removing_of_submitting (h : o.submitting = true) : o.removing = false := by
  cases o <;> first | rfl | cases h

theorem finalised_removing {pr : PrepareResult} {x : Exit (Except CommitError Block)} (h : Finalised X e cycle pr t x) :
    ∀ ev ∈ t, ev.op.removing = false := by
  cases h with
  | failed err ht => exact fun ev hev => not_removing_of_finalising (ht ev hev)
  | followed hq hl hg ht hread hcheck => exact fun ev hev => not_removing_of_finalising (ht ev hev)
  | led hq hl ht =>
    rw [ht]
    split
    · simp [Op.removing]
    · simp

/-- The phases take nothing out of the pool. -/
theorem phases_removing (h : e.Phases X pool t y e₂) : ∀ ev ∈ t, ev.op.removing = false := by
  have hprepare : ∀ {cq e₁ e₂ t y}, e.Prepares X pool cq e₁ t y e₂ → ∀ ev ∈ t, ev.op.removing = false := by
    intro cq e₁ e₂ t y h ev hev
    rcases prepare_calls X h ev hev with hop | hop
    · exact not_removing_of_electing hop
    · exact not_removing_of_dealing hop
  cases runs_phases X h with
  | first h₁ hs => exact hprepare h₁
  | second h₁ h₂ hs => exact List.forall_mem_append.2 ⟨hprepare h₁, hprepare h₂⟩
  | third h₁ h₂ h₃ =>
    exact List.forall_mem_append.2 ⟨hprepare h₁, List.forall_mem_append.2 ⟨hprepare h₂, finalised_removing X h₃⟩⟩

variable {X}

theorem allPending_start (e : Engine) (pool : List ProvenanceEntry) : e.allPending ⊆ (e.start pool).allPending := by
  intro pe hpe
  rcases List.mem_append.1 hpe with hpe | hpe
  · exact List.mem_append_left _ ((e.start_pendingEntries pool).subset hpe)
  · exact List.mem_append_right _ (by rwa [Engine.start_pending])

/-- The engine after the phases awaits what it awaited before. -/
theorem allPending_phases (h : e.Phases X pool t y e₂) : e.allPending ⊆ e₂.allPending := by
  obtain ⟨st, rfl⟩ := phases_frame X h
  change e.allPending ⊆ (e.ready X pool).pendingEntries ++ (e.ready X pool).pending
  rw [Engine.ready_pendingEntries, Engine.ready_pending, ← e.start_pending pool]
  exact allPending_start e pool

theorem settled_cycle {x : Exit Unit} (hg : e.hasGossip = true) (h : Cycled X e t x e') : Settled e t e' := by
  cases h with
  | @skipped pool hs => exact .kept (e.start_blocks pool) (allPending_start e pool) (ingestTrace_removing e pool)
  | @panicked pool u e₂ hs hp =>
    refine .kept ?_ (allPending_phases hp) (List.forall_mem_append.2 ⟨ingestTrace_removing e pool, phases_removing X hp⟩)
    obtain ⟨st, rfl⟩ := phases_frame X hp
    exact e.ready_blocks X pool
  | @aborted pool u e₂ hs hp =>
    refine .kept ?_ ?_ (List.forall_mem_append.2 ⟨ingestTrace_removing e pool, phases_removing X hp⟩)
    · obtain ⟨st, rfl⟩ := phases_frame X hp
      exact e.ready_blocks X pool
    · exact List.Subset.trans (allPending_start e pool) (List.subset_append_left _ _)
  | @failed pool u block reached e₂ hs hp hc =>
    refine .kept ?_ ?_ (List.forall_mem_append.2 ⟨ingestTrace_removing e pool, phases_removing X hp⟩)
    · rw [conclude_none hc]
      obtain ⟨st, rfl⟩ := phases_frame X hp
      exact e.ready_blocks X pool
    · rw [conclude_none hc]
      exact List.Subset.trans (allPending_start e pool) (List.subset_append_left _ _)
  | @committed pool u block final reached e₂ hs hp hc =>
    have hremove : e.removeTrace final = [⟨.removeEntries final.hashes, ()⟩] := if_pos hg
    refine .committed final (concluded_blocks X hp hc) ?_ (by rw [hremove, List.append_assoc])
      (List.forall_mem_append.2 ⟨ingestTrace_removing e pool, phases_removing X hp⟩)
    intro pe hpe
    obtain ⟨next, -, -, hpost⟩ := conclude_some hc
    by_cases hmem : pe.hash ∈ final.hashes
    · exact .inl hmem
    · right
      rw [hpost]
      refine List.mem_filter.2 ⟨?_, decide_eq_true hmem⟩
      obtain ⟨st, rfl⟩ := phases_frame X hp
      change pe ∈ (e.ready X pool).pendingEntries
      rw [Engine.ready_pendingEntries]
      exact (e.start_pendingEntries pool).subset hpe

/-- **A call of an engine with a channel** loses nothing but, with a commit, its queue. -/
theorem settled_call (hg : e.hasGossip = true) (h : Run (c.prog X e) t e') : Settled e t e' := by
  by_cases hc : c = .runCycle
  · subst hc
    obtain ⟨x, hcycled⟩ := run_runCycle X h
    exact settled_cycle hg hcycled
  · obtain ⟨⟨x, s⟩, rfl, hrun⟩ := run_map.1 h
    have hfiled := filed_call X hc hrun
    obtain ⟨hblocks, -, hretained, hqueue⟩ := hfiled.frame
    refine .kept hblocks (fun pe hpe => ?_) fun ev hev => not_removing_of_submitting (hfiled.submitting ev hev)
    rcases List.mem_append.1 hpe with hpe | hpe
    · exact List.mem_append_left _ (by rwa [hretained])
    · exact List.mem_append_right _ (hqueue.subset hpe)

/-! ## Engines on a bus -/

/-- The engine of `i`, with the result of a call that has made all its operations. -/
def Network.current (w : Network ι) (i : ι) : Engine := (w.threads i).current

/-- The hash is in the chain of an engine. -/
def Network.Anchors (w : Network ι) (hash : Hash) : Prop := ∃ j, ∃ b ∈ (w.current j).blocks, hash ∈ b.hashes

/-- A hash that was submitted to `i` is queued or retained there, in the pool, or anchored by someone. -/
def Network.Holds (w : Network ι) (i : ι) (hash : Hash) : Prop :=
  hash ∈ (w.current i).allPending.map (·.hash) ∨ hash ∈ w.shared.entries.map (·.hash) ∨ w.Anchors hash

/-- When an engine that has committed takes the entries of its block out of the pool, every entry of its queue is in the block,
retained, in the pool, or anchored by someone. -/
def Covered (x : Transition (Network ι) (Move ι Call Op Op.Res)) : Prop :=
  ∀ i hashes e c past rest, x.label = .call i ⟨.removeEntries hashes, ()⟩ → x.pre.threads i = .busy e c past rest →
    ∀ pe ∈ e.pending, pe.hash ∈ hashes ∨ pe.hash ∈ e.pendingEntries.map (·.hash) ∨
      pe.hash ∈ x.pre.shared.entries.map (·.hash) ∨ x.pre.Anchors pe.hash

/-- The submission that the transition finishes was accepted. -/
inductive AcceptedBy (X : Prims) (x : Transition (Network ι) (Move ι Call Op Op.Res)) (i : ι) : Hash → Prop
  | enqueue {e e' : Engine} {past : Trace} {entry : ProvenanceEntry} (hlabel : x.label = .finish i)
      (hbusy : x.pre.threads i = .busy e (.enqueue entry) past (.ret e'))
      (hok : Runs (enqueue entry) e past (.done (.ok ())) e') : AcceptedBy X x i entry.hash
  | submit {e e' : Engine} {past : Trace} {hash : Hash} {submitter : RootID} {label : String} {index : UInt64}
      (hlabel : x.label = .finish i) (hbusy : x.pre.threads i = .busy e (.submit hash submitter label) past (.ret e'))
      (hok : Runs (submit hash submitter label) e past (.done (.ok index)) e') : AcceptedBy X x i hash

/-- Any bus. -/
abbrev AnyBus : MemoryBus → Prop := fun _ => True

/-- The engine has a channel. -/
abbrev OnChannel : Engine → MemoryBus → Prop := fun e _ => e.hasGossip = true

abbrev AnyCall : CallCondition := fun _ _ _ _ _ => True

theorem upheld_onChannel : Upheld (fun c e => c.prog X e) MemoryBus.Serves AnyBus OnChannel AnyCall where
  stable := fun h _ _ _ => h
  serve := fun _ _ _ _ _ _ => trivial
  finish := fun {e c _ past _ e'} h _ _ _ hrun => by
    have hstep : EngineStep X e ⟨c, past⟩ e' := hrun
    exact (sameEngine_step X hstep).hasGossip.trans h

/-- The engines have a channel, and what is left of a call leads to a run of the call. -/
abbrev Network.Coherent (X : Prims) (w : Network ι) : Prop :=
  w.Consistent (fun c e => c.prog X e) MemoryBus.Serves AnyBus OnChannel AnyCall

theorem serves_entries {b b' : MemoryBus} {r : o.Res} (h : b.Serves o r b') (ho : o.removing = false) :
    b.entries ⊆ b'.entries := by
  obtain ⟨now, wait, h⟩ := h
  have hb : b' = (b.answer now wait o).2 := by rw [h]
  subst hb
  cases o with
  | removeEntries remove => cases ho
  | publish entry => exact List.subset_append_left _ _
  | propose block id =>
    simp only [MemoryBus.answer, MemoryBus.propose]
    split
    · exact List.Subset.refl _
    · exact List.Subset.refl _
  | publishSig sig =>
    simp only [MemoryBus.answer, MemoryBus.publishSig]
    split
    · exact List.Subset.refl _
    · exact List.Subset.refl _
  | publishVRFProof proof =>
    simp only [MemoryBus.answer, MemoryBus.publishVRFProof]
    split
    · exact List.Subset.refl _
    · exact List.Subset.refl _
  | _ => exact List.Subset.refl _

variable [DecidableEq ι]

/-- What a move of `i` does to the network: it loses nothing, or an engine takes the entries of the block it has committed out
of the pool. -/
inductive Moved (w : Network ι) (m : Move ι Call Op Op.Res) (w' : Network ι) (i : ι) : Prop
  | quiet (hothers : ∀ j, j ≠ i → w'.current j = w.current j) (hblocks : (w'.current i).blocks = (w.current i).blocks)
      (hawaits : (w.current i).allPending ⊆ (w'.current i).allPending) (hpool : w.shared.entries ⊆ w'.shared.entries)
  | committed {c : Call} {past : Trace} {rest : Prog Op Op.Res Engine} (block : Block)
      (hlabel : m = .call i ⟨.removeEntries block.hashes, ()⟩) (hbusy : w.threads i = .busy (w.current i) c past rest)
      (hothers : ∀ j, j ≠ i → w'.current j = w.current j)
      (hblocks : (w'.current i).blocks = (w.current i).blocks ++ [block])
      (hretained : ∀ pe ∈ (w.current i).pendingEntries, pe.hash ∈ block.hashes ∨ pe ∈ (w'.current i).pendingEntries)
      (hpool : w'.shared.entries = w.shared.entries.filter fun pe => pe.hash ∉ block.hashes)

/-- A call that has made its operations `t` has its result, or is not decided. -/
theorem current_busy (e : Engine) (c : Call) (past : Trace) (rest : Prog Op Op.Res Engine) :
    (Thread.busy e c past rest).current = e ∨ ∃ e', rest = .ret e' ∧ (Thread.busy e c past rest).current = e' := by
  cases rest with
  | ret e' => exact .inr ⟨e', rfl, rfl⟩
  | call o k => exact .inl rfl

theorem current_update (w : Network ι) (i : ι) (th : Thread Engine Call Op Op.Res) (b : MemoryBus) :
    Network.current ⟨Function.update w.threads i th, b⟩ i = th.current ∧
      ∀ j, j ≠ i → Network.current ⟨Function.update w.threads i th, b⟩ j = w.current j :=
  ⟨congrArg Thread.current (Function.update_self ..), fun _ hj => congrArg Thread.current (Function.update_of_ne hj ..)⟩

/-- A call that goes on, or has ended without a commit, has lost nothing. -/
theorem moved_quiet {b : MemoryBus} (hcurrent : w.current i = e) (hg : e.hasGossip = true)
    (hrest : ∀ t e', Run rest t e' → Run (c.prog X e) (past ++ t) e')
    (hlast : ∀ u hashes, past ≠ u ++ [⟨.removeEntries hashes, ()⟩]) (hpool : w.shared.entries ⊆ b.entries) :
    Moved w m ⟨Function.update w.threads i (.busy e c past rest), b⟩ i := by
  obtain ⟨hself, hothers⟩ := current_update w i (.busy e c past rest) b
  rcases current_busy e c past rest with hgoes | ⟨e', rfl, hended⟩
  · have hsame := hself.trans (hgoes.trans hcurrent.symm)
    exact .quiet hothers (by rw [hsame]) (by rw [hsame]; exact List.Subset.refl _) hpool
  · have hrun : Run (c.prog X e) past e' := by simpa using hrest [] e' (.ret e')
    have hnow := hself.trans hended
    cases settled_call hg hrun with
    | kept hblocks hawaits ht => exact .quiet hothers (by rw [hnow, hcurrent, hblocks]) (by rwa [hnow, hcurrent]) hpool
    | committed block hblocks hretained ht hu => exact absurd ht (hlast _ _)

/-- The operation that takes entries out of the pool is the last one of a cycle that has committed their block. -/
theorem committed_of_removing {hashes : List Hash} (hg : e.hasGossip = true)
    (hrest : ∀ t e', Run rest t e' → Run (c.prog X e) (past ++ ⟨.removeEntries hashes, ()⟩ :: t) e') :
    ∃ e' block, rest = .ret e' ∧ hashes = block.hashes ∧ e'.blocks = e.blocks ++ [block] ∧
      ∀ pe ∈ e.pendingEntries, pe.hash ∈ block.hashes ∨ pe ∈ e'.pendingEntries := by
  obtain ⟨v, e', hv⟩ := exists_run rest
  cases settled_call hg (hrest v e' hv) with
  | kept hblocks hawaits ht => cases ht _ (List.mem_append_right _ List.mem_cons_self)
  | @committed u block hblocks hretained ht hu =>
    have hnot : (⟨.removeEntries hashes, ()⟩ : Event) ∉ u := fun hmem => nomatch hu _ hmem
    obtain ⟨w, hw, -⟩ := Occurrence.of_right ht hnot
    cases w with
    | nil =>
      obtain ⟨hevent, rfl⟩ := List.cons.inj hw
      cases hevent
      cases hv
      exact ⟨e', block, rfl, rfl, hblocks, hretained⟩
    | cons ev w => simp at hw

/-- **A move of the network.** -/
theorem moved_of_step (hw : w.Coherent X) (h : WorldStep (fun c e => c.prog X e) MemoryBus.Serves w m w') :
    ∃ i, Moved w m w' i := by
  cases h with
  | @start i e c hi =>
    have hfit := hw.threads i
    rw [hi] at hfit
    have hcurrent : w.current i = e := congrArg Thread.current hi
    exact ⟨i, moved_quiet hcurrent hfit (fun t e' hrun => hrun) (by simp) (List.Subset.refl _)⟩
  | @call i e c past o k r b hi hs =>
    have hfit := hw.threads i
    rw [hi] at hfit
    obtain ⟨hg, -, hrest⟩ := hfit
    have hcurrent : w.current i = e := congrArg Thread.current hi
    have hrest' : ∀ t e', Run (k r) t e' → Run (c.prog X e) (past ++ ⟨o, r⟩ :: t) e' := fun t e' hrun =>
      hrest _ e' (.call r hrun)
    cases ho : o.removing with
    | false =>
      have hrun : ∀ t e', Run (k r) t e' → Run (c.prog X e) ((past ++ [⟨o, r⟩]) ++ t) e' := by
        intro t e' hrun
        rw [List.append_assoc]
        exact hrest' t e' hrun
      refine ⟨i, moved_quiet hcurrent hg hrun (fun u hashes hlast => ?_) (serves_entries hs ho)⟩
      · obtain ⟨-, hevent⟩ := List.append_singleton_inj.1 hlast
        cases hevent
        cases ho
    | true =>
      cases o with
      | removeEntries hashes =>
        obtain ⟨now, wait, hs⟩ := hs
        cases hs
        obtain ⟨e', block, hended, rfl, hblocks, hretained⟩ := committed_of_removing hg hrest'
        obtain ⟨hself, hothers⟩ := current_update w i (.busy e c (past ++ [⟨.removeEntries block.hashes, ()⟩]) (k ()))
          { w.shared with entries := w.shared.entries.filter fun pe => pe.hash ∉ block.hashes }
        have hnow := hself.trans (show (Thread.busy e c _ (k ())).current = e' by rw [hended]; rfl)
        refine ⟨i, .committed block rfl (hcurrent ▸ hi) hothers ?_ ?_ rfl⟩
        · rw [hnow, hcurrent, hblocks]
        · rwa [hnow, hcurrent]
      | _ => cases ho
  | @finish i e e' c past hi =>
    have hcurrent : w.current i = e' := congrArg Thread.current hi
    obtain ⟨hself, hothers⟩ := current_update w i (.idle e') w.shared
    have hsame := hself.trans hcurrent.symm
    exact ⟨i, .quiet hothers (by rw [hsame]) (by rw [hsame]; exact List.Subset.refl _) (List.Subset.refl _)⟩

/-! ## Runs -/

/-- **A move that covers the queue** of a committing engine loses no hash. -/
theorem holds_step {j : ι} (hmoved : Moved w m w' j) (hcovered : Covered ⟨w, m, w'⟩) (h : w.Holds i hash) :
    w'.Holds i hash := by
  cases hmoved with
  | quiet hothers hblocks hawaits hpool =>
    have hsame : ∀ i', (w'.current i').blocks = (w.current i').blocks := by
      intro i'
      by_cases hi : i' = j
      · rw [hi, hblocks]
      · rw [hothers i' hi]
    rcases h with hwait | hpooled | ⟨i', b, hb, hmem⟩
    · left
      by_cases hi : i = j
      · subst hi
        exact List.map_subset _ hawaits hwait
      · rwa [hothers i hi]
    · exact .inr (.inl (List.map_subset _ hpool hpooled))
    · exact .inr (.inr ⟨i', b, by rwa [hsame i'], hmem⟩)
  | @committed c past rest block hlabel hbusy hothers hblocks hretained hpool =>
    have hanchored : ∀ {hash}, hash ∈ block.hashes → w'.Anchors hash := fun hmem =>
      ⟨j, block, by rw [hblocks]; simp, hmem⟩
    have hchains : ∀ {hash}, w.Anchors hash → w'.Anchors hash := by
      rintro hash ⟨i', b, hb, hmem⟩
      refine ⟨i', b, ?_, hmem⟩
      by_cases hi : i' = j
      · rw [hi] at hb ⊢
        rw [hblocks]
        exact List.mem_append_left _ hb
      · rwa [hothers i' hi]
    have hpooled : ∀ {hash}, hash ∈ w.shared.entries.map (·.hash) → w'.Holds i hash := by
      intro hash hpool'
      by_cases hmem : hash ∈ block.hashes
      · exact .inr (.inr (hanchored hmem))
      · obtain ⟨pe, hpe, rfl⟩ := List.mem_map.1 hpool'
        rw [Network.Holds, hpool]
        exact .inr (.inl (List.mem_map_of_mem (List.mem_filter.2 ⟨hpe, decide_eq_true hmem⟩)))
    rcases h with hwait | hpool' | hchain
    · by_cases hi : i = j
      · subst hi
        have hkept : ∀ pe ∈ (w.current i).pendingEntries, w'.Holds i pe.hash := by
          intro pe hpe
          rcases hretained pe hpe with hmem | hmem
          · exact .inr (.inr (hanchored hmem))
          · exact .inl (List.mem_map_of_mem (List.mem_append_left _ hmem))
        obtain ⟨pe, hpe, rfl⟩ := List.mem_map.1 hwait
        rcases List.mem_append.1 hpe with hpe | hpe
        · exact hkept pe hpe
        · rcases hcovered i _ _ _ _ _ hlabel hbusy pe hpe with hmem | hmem | hmem | hmem
          · exact .inr (.inr (hanchored hmem))
          · obtain ⟨pe', hpe', heq⟩ := List.mem_map.1 hmem
            rw [← heq]
            exact hkept pe' hpe'
          · exact hpooled hmem
          · exact .inr (.inr (hchains hmem))
      · left
        rwa [hothers i hi]
    · exact hpooled hpool'
    · exact .inr (.inr (hchains hchain))

omit [DecidableEq ι] in
/-- An accepted submission is in the queue. -/
theorem holds_of_accepted (h : AcceptedBy X ⟨w, m, w'⟩ i hash) : w.Holds i hash := by
  have hqueued : ∀ {α : Type} {e e' : Engine} {entry : ProvenanceEntry} {announced : Bool} {t : Trace} {a : α} {c : Call},
      Submitted e entry announced t (.done (.ok a)) e' → w.threads i = .busy e c t (.ret e') →
        entry.hash ∈ (w.current i).allPending.map (·.hash) := by
    intro α e e' entry announced t a c hsubmitted hbusy
    rw [Network.current, hbusy]
    cases hsubmitted with
    | accepted a rateLimiter hadmits hu ht => simp [Thread.current, Engine.allPending, Engine.push]
  cases h with
  | enqueue hlabel hbusy hok => exact .inl (hqueued (runs_enqueue hok) hbusy)
  | submit hlabel hbusy hok =>
    obtain ⟨timestamp, hsubmitted⟩ := runs_submit hok
    exact .inl (hqueued hsubmitted hbusy)

/-- The engines have just been built, each with its peers and a channel. -/
def Network.Started (w : Network ι) : Prop :=
  ∀ i, ∃ node peers, w.threads i = .idle (Engine.newWithPeers node true peers)

omit [DecidableEq ι] in
theorem coherent_of_started (hw : w.Started) : w.Coherent X := by
  refine ⟨trivial, fun j => ?_⟩
  obtain ⟨node, peers, hidle⟩ := hw j
  rw [hidle]
  rfl

theorem coherent_step (hw : w.Coherent X) (h : WorldStep (fun c e => c.prog X e) MemoryBus.Serves w m w') : w'.Coherent X :=
  consistent_step upheld_onChannel (fun _ _ _ _ _ _ _ _ => trivial) h hw

theorem holds_run {τ : List (Transition (Network ι) (Move ι Call Op Op.Res))} (hw : w.Coherent X) (h : NetworkRun X w τ w')
    (hcovered : ∀ x ∈ τ, Covered x) (hheld : w.Holds i hash) : w'.Holds i hash := by
  induction h with
  | nil w => exact hheld
  | cons hstep _ ih =>
    obtain ⟨j, hmoved⟩ := moved_of_step hw hstep
    refine ih (coherent_step hw hstep) (fun x hx => hcovered x (List.mem_cons_of_mem _ hx)) ?_
    exact holds_step hmoved (hcovered _ List.mem_cons_self) hheld

/-- **No submission is lost** in a run that covers the queue of every engine that commits: a hash that an engine has accepted
is queued or retained there, in the pool, or in a chain ever after. -/
theorem held_of_covered {w w' : Network ι} {τ : List (Transition (Network ι) (Move ι Call Op Op.Res))} (hw : w.Started)
    (h : NetworkRun X w τ w') (hcovered : ∀ x ∈ τ, Covered x) :
    ∀ x ∈ τ, ∀ i hash, AcceptedBy X x i hash → w'.Holds i hash := by
  have hcoherent : w.Coherent X := coherent_of_started hw
  clear hw
  induction h with
  | nil w => exact fun _ hx => absurd hx List.not_mem_nil
  | cons hstep hpath ih =>
    intro x hx i hash haccepted
    rcases List.mem_cons.1 hx with rfl | hx
    · exact holds_run hcoherent (.cons hstep hpath) hcovered (holds_of_accepted haccepted)
    · exact ih (fun y hy => hcovered y (List.mem_cons_of_mem _ hy)) (coherent_step hcoherent hstep) x hx i hash haccepted

namespace Sample

/-- A decidable condition under which a commit covers the queue: the block has all of it. -/
def ClearsQueue : CallCondition := fun e _ _ _ ev =>
  ∀ hashes, ev.op = .removeEntries hashes → ∀ pe ∈ e.pending, pe.hash ∈ hashes

instance (e : Engine) (c : Call) (past : Trace) (b : MemoryBus) (ev : Event) : Decidable (ClearsQueue e c past b ev) :=
  match ho : ev.op with
  | .removeEntries hashes =>
    decidable_of_iff (∀ pe ∈ e.pending, pe.hash ∈ hashes)
      ⟨fun h hashes' heq => by rw [ho] at heq; cases heq; exact h, fun h => h hashes ho⟩
  | .publish _ | .snapshot | .getProposed _ | .propose _ _ | .publishFinal _ _ | .getFinal _ | .publishSig _
  | .getSigs _ | .publishVRFProof _ | .getVRFProofs _ | .now | .patience =>
    .isTrue fun _ h => by rw [ho] at h; cases h

theorem covered_of_clears {ι : Type} {x : Transition (Network ι) (Move ι Call Op Op.Res)} (h : CallMeets ClearsQueue x) :
    Covered x := fun i hashes e c past rest hlabel hbusy pe hpe =>
  .inl (h i _ e c past rest hlabel hbusy hashes rfl pe hpe)

theorem started_pair : (Network.fresh pair [peer 1, peer 2]).Started := fun i => ⟨pair i, [peer 1, peer 2], rfl⟩

/-- A submission that has filled the queue was accepted. -/
theorem ok_of_pushed {α : Type} {e e' : Engine} {entry : ProvenanceEntry} {announced : Bool} {t : Trace}
    {z : Exit (Except CallError α)} (h : Submitted e entry announced t z e') (hpushed : e'.pending.length ≠ e.pending.length) :
    ∃ a, z = .done (.ok a) := by
  cases h with
  | refused err rateLimiter ht => exact absurd rfl hpushed
  | accepted a rateLimiter hadmits hu ht => exact ⟨a, rfl⟩

section Finished

variable {x : Transition (Network Bool) (Move Bool Call Op Op.Res)} {i : Bool} {e e' : Engine} {past : Trace}

theorem accepted_enqueue {entry : ProvenanceEntry} (hlabel : x.label = .finish i)
    (hbusy : x.pre.threads i = .busy e (.enqueue entry) past (.ret e'))
    (hrun : Run ((Call.enqueue entry).prog prims e) past e') (hpushed : e'.pending.length ≠ e.pending.length) :
    AcceptedBy prims x i entry.hash := by
  obtain ⟨⟨y, s⟩, rfl, hbody⟩ := run_map.1 hrun
  obtain ⟨z, henqueue⟩ := runs_ignore hbody
  obtain ⟨a, rfl⟩ := ok_of_pushed (runs_enqueue henqueue) hpushed
  exact .enqueue hlabel hbusy henqueue

theorem accepted_submit {hash : Hash} {submitter : RootID} {label : String} (hlabel : x.label = .finish i)
    (hbusy : x.pre.threads i = .busy e (.submit hash submitter label) past (.ret e'))
    (hrun : Run ((Call.submit hash submitter label).prog prims e) past e') (hpushed : e'.pending.length ≠ e.pending.length) :
    AcceptedBy prims x i hash := by
  obtain ⟨⟨y, s⟩, rfl, hbody⟩ := run_map.1 hrun
  obtain ⟨z, hsubmit⟩ := runs_ignore hbody
  obtain ⟨timestamp, hsubmitted⟩ := runs_submit hsubmit
  obtain ⟨a, rfl⟩ := ok_of_pushed hsubmitted hpushed
  exact .submit hlabel hbusy hsubmit

end Finished

/-- An entry that the first validator accepts, and that both commit, is held. -/
theorem pair_holds : ∃ τ w, NetworkRun prims (Network.fresh pair [peer 1, peer 2]) τ w ∧
    (∃ x ∈ τ, AcceptedBy prims x false (entry 9).hash) ∧ w.Holds false (entry 9).hash := by
  have hmeets : ScheduleMeets ClearsQueue committing pairEngines MemoryBus.new := by decide +kernel
  have hpushed : (serveOn MemoryBus.new ((Call.enqueue (entry 9)).prog prims (pairEngines false))).1.pending.length ≠
      (pairEngines false).pending.length := by decide +kernel
  obtain ⟨hfirst, hrest⟩ := hmeets
  obtain ⟨τ₁, h₁, hmeets₁, x, hx, hlabel, hbusy⟩ := run_scheduled false _ pairEngines MemoryBus.new hfirst
  obtain ⟨τ₂, h₂, hmeets₂⟩ := run_schedule _ _ _ hrest
  have haccepted := accepted_enqueue hlabel hbusy (run_serveOn _ _) hpushed
  have hcovered : ∀ y ∈ τ₁ ++ τ₂, Covered y := fun y hy => covered_of_clears <| by
    rcases List.mem_append.1 hy with hy | hy
    · exact hmeets₁ y hy
    · exact hmeets₂ y hy
  have hmem : x ∈ τ₁ ++ τ₂ := List.mem_append_left _ hx
  exact ⟨_, _, h₁.append h₂, ⟨x, hmem, haccepted⟩, held_of_covered started_pair (h₁.append h₂) hcovered x hmem _ _ haccepted⟩

/-- The network when the second validator has everything it needs to commit the block. -/
def committable : (Bool → Engine) × MemoryBus := schedule committing.dropLast pairEngines MemoryBus.new

/-- A hash that is not published. -/
def lateCall : Call := .submit (entry 10).hash (uid 2).rootID "late"

/-- The second validator accepts the hash, and commits the block. -/
def committedLate : (Bool → Engine) × MemoryBus := schedule [(true, lateCall), (true, .runCycle)] committable.1 committable.2

/-- The hash is gone: the block was made without it, and the queue is cleared. -/
theorem late_lost : ∃ τ w, NetworkRun prims (Network.fresh pair [peer 1, peer 2]) τ w ∧
    (∃ x ∈ τ, AcceptedBy prims x true (entry 10).hash) ∧ ¬ w.Holds true (entry 10).hash := by
  obtain ⟨hpushed, hgone⟩ : (serveOn committable.2 (lateCall.prog prims (committable.1 true))).1.pending.length ≠
        (committable.1 true).pending.length ∧
      (entry 10).hash ∉ (committedLate.1 true).allPending.map (·.hash) ∧
        (entry 10).hash ∉ committedLate.2.entries.map (·.hash) ∧
        ∀ j, ∀ b ∈ (committedLate.1 j).blocks, (entry 10).hash ∉ b.hashes := by decide +kernel
  obtain ⟨τ₁, h₁, -⟩ := run_schedule committing.dropLast pairEngines MemoryBus.new (scheduleMeets_true _ _ _)
  obtain ⟨-, hrest⟩ := scheduleMeets_true [(true, lateCall), (true, .runCycle)] committable.1 committable.2
  obtain ⟨τ₂, h₂, -, x, hx, hlabel, hbusy⟩ :=
    run_scheduled (C := AnyCall) true lateCall committable.1 committable.2 fun _ _ => trivial
  obtain ⟨τ₃, h₃, -⟩ := run_schedule _ _ _ hrest
  have hrun := run_serveOn committable.2 (lateCall.prog prims (committable.1 true))
  have haccepted := accepted_submit hlabel hbusy hrun hpushed
  rw [← schedule_cons true lateCall] at h₃
  generalize hend : schedule [(true, lateCall), (true, Call.runCycle)] committable.1 committable.2 = w at h₃
  rw [show committedLate = w from hend] at hgone
  refine ⟨_, World.idle w.1 w.2, h₁.append (h₂.append h₃), ⟨x, by simp [hx], haccepted⟩, fun hheld => ?_⟩
  rcases hheld with hwait | hpool | ⟨j, b, hb, hmem⟩
  · exact hgone.1 hwait
  · exact hgone.2.1 hpool
  · exact hgone.2.2 j b hb hmem

end Sample

end Gleipnir
