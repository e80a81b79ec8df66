import Gleipnir.Consensus.ElectionSpec

/-!
# What a PREPARE phase does

One inversion lemma for each part of `runPreparePhase`: everything the part can do to the engine and to the channel.

* `runs_buildCandidate`, `runs_proposeCandidate`: the proposer's branch.
* `runs_checkCandidate`: everyone else's branch, with its vote.
* `runs_tally`: counting reads signatures and nothing else.
* `runs_preparePhase`: an election, then a candidate, then a count.
-/

namespace Gleipnir

open Atomic Atomic.Body

variable (X : Prims)

/-- The calls of a wait for a candidate. -/
def Op.awaiting : Op → Bool
  | .getProposed _ | .patience => true
  | _ => false

/-- The calls made while signatures are counted. -/
def Op.counting : Op → Bool
  | .getSigs _ | .patience => true
  | _ => false

/-- The entries that an answer of the channel brings into the tree of a phase. -/
def takenBy : Event → List ProvenanceEntry
  | ⟨.getProposed _, some block⟩ => block.anchored
  | ⟨.snapshot, pool⟩ => dedupEntries pool []
  | _ => []

/-- The event shows no candidate and brings no entries. -/
def Bare (ev : Event) : Prop := (∀ c block, ev ≠ ⟨.getProposed c, some block⟩) ∧ takenBy ev = []

variable {t : Trace} {entries pend : List ProvenanceEntry} {cycle : UInt64} {p : Peer} {q : Nat} {e e' : Engine}
  {x y : Exit (Except PrepareError Block)} {cq am : Bool} {block : Block} {leaderID : String} {o : Op} {root : Hash}

theorem flatMap_bare (h : ∀ ev ∈ t, Bare ev) : t.flatMap takenBy = [] :=
  List.flatMap_eq_nil_iff.2 fun ev hev => (h ev hev).2

/-- The calls whose answers show nothing. -/
theorem bare_of_op {P : Op → Bool} (hP : ∀ c, P (.getProposed c) = false) (hS : P .snapshot = false)
    (ht : ∀ ev ∈ t, P ev.op = true) : ∀ ev ∈ t, Bare ev := by
  rintro ⟨o, r⟩ hev
  have ho := ht _ hev
  cases o with
  | getProposed c => exact absurd (ho.symm.trans (hP c)) Bool.noConfusion
  | snapshot => exact absurd (ho.symm.trans hS) Bool.noConfusion
  | _ => exact ⟨fun c block h => (by cases h), rfl⟩

/-! ## The proposer -/

/-- The events that broadcast a candidate. -/
def Engine.broadcast (e : Engine) (cycle : UInt64) (block : Block) : Trace :=
  if e.hasGossip then
    [⟨.propose block e.node.uid.id, ()⟩, ⟨.publishSig (e.vote X cycle block.blockHash), ()⟩]
  else []

/-- Every entry is there after `dedupEntries`, in itself or in another of the same hash. -/
theorem hash_mem_dedupEntries {pe : ProvenanceEntry} (h : pe ∈ entries) :
    ∀ seen, pe.hash ∈ seen ∨ pe.hash ∈ (dedupEntries entries seen).map (·.hash) := by
  induction entries with
  | nil => cases h
  | cons pe' entries ih =>
    intro seen
    unfold dedupEntries
    rcases List.mem_cons.1 h with rfl | h
    · by_cases hseen : pe.hash ∈ seen
      · exact .inl hseen
      · exact .inr (by simp [hseen])
    · by_cases hseen : pe'.hash ∈ seen
      · rw [if_pos hseen]
        exact ih h seen
      · rw [if_neg hseen]
        rcases ih h (pe'.hash :: seen) with hmem | hmem
        · rcases List.mem_cons.1 hmem with heq | hmem
          · exact .inr (by simp [heq])
          · exact .inl hmem
        · exact .inr (List.mem_cons_of_mem _ hmem)

theorem runs_buildCandidate (h : Runs (buildCandidate X cycle p entries q) e t x e') :
    (x = .done (.error .noEntries) ∧ t = [] ∧ e' = e ∧ entries = []) ∨
      ∃ now, x = .done (.ok (e.newCandidate X cycle p (dedupEntries entries []) q now)) ∧
        t = ⟨.now, now⟩ :: e.broadcast X cycle (e.newCandidate X cycle p (dedupEntries entries []) q now) ∧
        e' = e.grow X (dedupEntries entries []) := by
  unfold buildCandidate at h
  split at h
  · next hempty =>
    obtain ⟨rfl, rfl, rfl⟩ := runs_pure.1 h
    exact .inl ⟨rfl, rfl, rfl, hempty⟩
  · rw [runs_get_bind] at h
    obtain ⟨now, t₁, rfl, h₁⟩ := runs_perform_bind.1 h
    rw [runs_modify_bind] at h₁
    right
    refine ⟨now, ?_⟩
    cases hg : e.hasGossip with
    | true =>
      simp only [hg, if_true] at h₁
      obtain ⟨⟨⟩, t₂, rfl, h₂⟩ := runs_perform_bind.1 h₁
      obtain ⟨⟨⟩, t₃, rfl, h₃⟩ := runs_perform_bind.1 h₂
      obtain ⟨rfl, rfl, rfl⟩ := runs_pure.1 h₃
      exact ⟨rfl, by simp [Engine.broadcast, hg], rfl⟩
    | false =>
      simp only [hg, Bool.false_eq_true, if_false] at h₁
      obtain ⟨rfl, rfl, rfl⟩ := runs_pure.1 h₁
      exact ⟨rfl, by simp [Engine.broadcast, hg], rfl⟩

/-- The proposer either reads the candidate of the index back, or builds one from the pool or from its own entries. -/
theorem runs_proposeCandidate (h : Runs (proposeCandidate X cycle p pend cq q) e t x e') :
    (e.hasGossip = true ∧ cq = true ∧ e' = e ∧ ∃ r, t = [⟨.getProposed cycle, r⟩] ∧
      x = .done (match r with | none => .error .noProposalForQuorumCheck | some block => .ok block)) ∨
    (e.hasGossip = true ∧ cq = false ∧ ∃ pool t', t = ⟨.snapshot, pool⟩ :: t' ∧
      Runs (buildCandidate X cycle p pool q) e t' x e') ∨
    (e.hasGossip = false ∧ Runs (buildCandidate X cycle p pend q) e t x e') := by
  unfold proposeCandidate at h
  rw [runs_get_bind] at h
  cases hg : e.hasGossip with
  | true =>
    simp only [hg, if_true] at h
    cases hq : cq with
    | true =>
      simp only [hq, if_true] at h
      obtain ⟨r, t₁, rfl, h₁⟩ := runs_perform_bind.1 h
      cases r with
      | none =>
        obtain ⟨rfl, rfl, rfl⟩ := runs_pure.1 h₁
        exact .inl ⟨rfl, rfl, rfl, none, rfl, rfl⟩
      | some block =>
        obtain ⟨rfl, rfl, rfl⟩ := runs_pure.1 h₁
        exact .inl ⟨rfl, rfl, rfl, some block, rfl, rfl⟩
    | false =>
      simp only [hq, Bool.false_eq_true, if_false] at h
      obtain ⟨pool, t₁, rfl, h₁⟩ := runs_perform_bind.1 h
      exact .inr (.inl ⟨rfl, rfl, pool, t₁, rfl, h₁⟩)
  | false =>
    simp only [hg, Bool.false_eq_true, if_false] at h
    exact .inr (.inr ⟨rfl, h⟩)

/-! ## The validators -/

theorem reads_waitForProposal (cycle : UInt64) : Reads (fun ev => ev.op.awaiting) False (waitForProposal cycle) :=
  within_bind (within_perform fun _ => rfl) fun _ =>
    within_bind (within_poll (within_perform fun _ => rfl) _ _) fun _ => within_pure _

/-- A wait looks at least once, until it finds something: what it returns is what the last look found. -/
theorem runs_await {α : Type} {look : EngineM (Option α)} (seen : Option α → Event)
    (hlook : ∀ e t x e', Runs look e t x e' → ∃ r, t = [seen r] ∧ x = .done r ∧ e' = e) {found : Option α} (h : Runs (do
      let wait ← ask .patience
      let found ← poll look Option.isSome (wait.ticks + 1)
      return found.join) e t (.done found) e') : ∃ w, t = w ++ [seen found] ∧ ∀ ev ∈ w, ev.op = .patience ∨ ev = seen none := by
  obtain ⟨wait, t₁, rfl, h₁⟩ := runs_perform_bind.1 h
  obtain ⟨t₂, r, e₁, t₃, rfl, h₂, h₃⟩ := runs_bind_done.1 h₁
  obtain ⟨rfl, hfound, rfl⟩ := runs_pure.1 h₃
  obtain rfl := Exit.done.inj hfound
  have hmiss : ∀ s t a s', Runs look s t (.done a) s' → a.isSome = false → ∀ ev ∈ t, ev = seen none := by
    intro s t a s' hrun ha
    obtain ⟨r, rfl, hr, -⟩ := hlook _ _ _ _ hrun
    obtain rfl := Exit.done.inj hr
    obtain rfl : a = none := by simpa using ha
    simp
  have hstart : t₂ ≠ [] := by
    obtain ⟨u₁, a, s₁, u₂, rfl, hu, -⟩ := runs_bind_done.1 h₂
    obtain ⟨r, rfl, -⟩ := hlook _ _ _ _ hu
    simp
  obtain ⟨u₁, u₂, rfl, hu, ⟨rfl, rfl⟩ | ⟨a, s₁, rfl, ha, hrun⟩⟩ := runs_poll_done hmiss h₂
  · rw [List.append_nil] at hstart ⊢
    have hlast : u₁ = u₁.dropLast ++ [seen none] := by
      rw [← hu _ (List.getLast_mem hstart), List.dropLast_append_getLast]
    refine ⟨⟨.patience, wait⟩ :: u₁.dropLast, by rw [List.append_nil]; exact congrArg _ hlast, fun ev hev => ?_⟩
    rcases List.mem_cons.1 hev with rfl | hev
    · exact .inl rfl
    · exact .inr (hu ev (List.dropLast_subset _ hev))
  · obtain ⟨r, rfl, hr, -⟩ := hlook _ _ _ _ hrun
    obtain rfl := Exit.done.inj hr
    refine ⟨⟨.patience, wait⟩ :: u₁, by simp, fun ev hev => ?_⟩
    rcases List.mem_cons.1 hev with rfl | hev
    · exact .inl rfl
    · exact .inr (hu ev hev)

/-- A wait for a candidate shows at most one, and shows it last. -/
theorem runs_waitForProposal {found : Option Block} (h : Runs (waitForProposal cycle) e t (.done found) e') :
    ∃ w, t = w ++ [⟨.getProposed cycle, found⟩] ∧ ∀ ev ∈ w, Bare ev := by
  obtain ⟨w, rfl, hw⟩ := runs_await (fun r => ⟨.getProposed cycle, r⟩) (fun _ _ _ _ hrun => runs_perform.1 hrun) h
  refine ⟨w, rfl, fun ev hev => ?_⟩
  rcases hw ev hev with hop | rfl
  · exact bare_of_op (P := fun o => o matches .patience) (fun _ => rfl) rfl
      (t := [ev]) (by simp [hop]) ev (List.mem_singleton.2 rfl)
  · exact ⟨fun c block heq => (by cases heq), rfl⟩

/-- A validator refuses a candidate, or it panics on one without a signature, or it votes for it. -/
inductive Verdict (e : Engine) (cycle : UInt64) (p : Peer) (block : Block) :
    Trace → Exit (Except PrepareError Block) → Prop
  | refused (err : PrepareError) (hfault : e.st.root.toList ≠ block.stateRoot ∨ computeBlockHash X block ≠ block.blockHash ∨
      ∃ sig sigs, block.prepareSigs = sig :: sigs ∧
        e.verifySignatureWithOverlap X p.uid.rootID block.blockHash sig cycle = false) :
      Verdict e cycle p block [] (.done (.error err))
  | panicked (hroot : e.st.root.toList = block.stateRoot) (hhash : computeBlockHash X block = block.blockHash)
      (hsigs : block.prepareSigs = []) : Verdict e cycle p block [] .panic
  | voted {sig : Bytes} {sigs : List Bytes} (hroot : e.st.root.toList = block.stateRoot)
      (hhash : computeBlockHash X block = block.blockHash) (hsigs : block.prepareSigs = sig :: sigs)
      (hsig : e.verifySignatureWithOverlap X p.uid.rootID block.blockHash sig cycle = true) :
      Verdict e cycle p block [⟨.publishSig (e.vote X cycle block.blockHash), ()⟩] (.done (.ok block))

theorem runs_voteOn (h : Runs (voteOn X cycle p block) e t x e') : e' = e ∧ Verdict X e cycle p block t x := by
  unfold voteOn at h
  rw [runs_get_bind] at h
  by_cases hroot : e.st.root.toList = block.stateRoot
  · by_cases hhash : computeBlockHash X block = block.blockHash
    · simp only [hroot, hhash, ne_eq, not_true_eq_false, if_false] at h
      cases hsigs : block.prepareSigs with
      | nil =>
        simp only [hsigs] at h
        obtain ⟨rfl, rfl, rfl⟩ := runs_panic.1 h
        exact ⟨rfl, .panicked hroot hhash hsigs⟩
      | cons sig sigs =>
        simp only [hsigs] at h
        cases hsig : e.verifySignatureWithOverlap X p.uid.rootID block.blockHash sig cycle with
        | true =>
          simp only [hsig, if_true] at h
          obtain ⟨⟨⟩, t₁, rfl, h₁⟩ := runs_perform_bind.1 h
          obtain ⟨rfl, rfl, rfl⟩ := runs_pure.1 h₁
          exact ⟨rfl, .voted hroot hhash hsigs hsig⟩
        | false =>
          simp only [hsig, Bool.false_eq_true, if_false] at h
          obtain ⟨rfl, rfl, rfl⟩ := runs_pure.1 h
          exact ⟨rfl, .refused _ (.inr (.inr ⟨sig, sigs, hsigs, hsig⟩))⟩
    · simp only [hroot, hhash, ne_eq, not_true_eq_false, not_false_eq_true, if_false, if_true] at h
      obtain ⟨rfl, rfl, rfl⟩ := runs_pure.1 h
      exact ⟨rfl, .refused _ (.inr (.inl hhash))⟩
  · simp only [hroot, ne_eq, not_false_eq_true, if_true] at h
    obtain ⟨rfl, rfl, rfl⟩ := runs_pure.1 h
    exact ⟨rfl, .refused _ (.inl hroot)⟩

/-- A validator gets no candidate, or it grows its tree by one and judges it. -/
theorem runs_checkCandidate (h : Runs (checkCandidate X cycle p) e t x e') :
    (e' = e ∧ (∃ err, x = .done (.error err)) ∧ (∀ ev ∈ t, ev.op.awaiting) ∧ (∀ ev ∈ t, Bare ev) ∧
        (e.hasGossip = true → ⟨.getProposed cycle, none⟩ ∈ t)) ∨
      (e.hasGossip = true ∧ ∃ block w t₂, t = (w ++ [⟨.getProposed cycle, some block⟩]) ++ t₂ ∧
        (∀ ev ∈ w ++ [⟨.getProposed cycle, some block⟩], ev.op.awaiting) ∧ (∀ ev ∈ w, Bare ev) ∧
        e' = e.grow X block.anchored ∧ Verdict X e' cycle p block t₂ x) := by
  unfold checkCandidate at h
  rw [runs_get_bind] at h
  cases hg : e.hasGossip with
  | false =>
    simp only [hg, Bool.false_eq_true, if_false] at h
    obtain ⟨rfl, rfl, rfl⟩ := runs_pure.1 h
    exact .inl ⟨rfl, ⟨_, rfl⟩, by simp, by simp, by simp⟩
  | true =>
    simp only [hg, if_true] at h
    rcases runs_bind.1 h with ⟨t₁, found, e₁, t₂, rfl, h₁, h₂⟩ | ⟨-, h⟩
    · obtain ⟨rfl, hr, -⟩ := reads_waitForProposal _ _ _ _ _ h₁
      obtain ⟨w, rfl, hw⟩ := runs_waitForProposal h₁
      cases found with
      | none =>
        obtain ⟨rfl, rfl, rfl⟩ := runs_pure.1 h₂
        rw [List.append_nil]
        refine .inl ⟨rfl, ⟨_, rfl⟩, hr, fun ev hev => ?_, fun _ => by simp⟩
        rcases List.mem_append.1 hev with hev | hev
        · exact hw ev hev
        · obtain rfl := List.mem_singleton.1 hev
          exact ⟨fun c block heq => (by cases heq), rfl⟩
      | some block =>
        rw [runs_modify_bind] at h₂
        obtain ⟨rfl, hv⟩ := runs_voteOn X h₂
        exact .inr ⟨rfl, block, w, t₂, rfl, hr, hw, rfl, hv⟩
    · exact ((reads_waitForProposal _ _ _ _ _ h).2.2 rfl).elim

/-! ## Counting -/

section Counting

variable (cycle : UInt64) (am : Bool) (block : Block)

theorem reads_localSig : Reads (fun ev => ev.op.counting) (block.prepareSigs = []) (localSig cycle am block) := by
  refine within_bind within_get fun e => within_ite ?_ (within_bind (within_perform fun _ => rfl) fun sigs => ?_)
  · cases block.prepareSigs with
    | nil => exact within_panic rfl
    | cons sig sigs => exact within_pure _
  · split
    · exact within_pure _
    · exact within_pure _

theorem reads_collectValidSigs : Reads (fun ev => ev.op.counting) (block.prepareSigs = []) (collectValidSigs X cycle am block) :=
  within_bind (reads_localSig cycle am block) fun _ => within_bind within_get fun _ =>
    within_ite (within_bind (within_perform fun _ => rfl) fun _ => within_pure _) (within_pure _)

theorem reads_waitForSignatures (q : Nat) :
    Reads (fun ev => ev.op.counting) (block.prepareSigs = []) (waitForSignatures X cycle am block q) := by
  refine within_bind (within_perform fun _ => rfl) fun wait => ?_
  refine within_bind (within_poll (reads_collectValidSigs X cycle am block) _ _) fun found => ?_
  cases found with
  | some _ => exact within_pure _
  | none => exact within_ite (within_pure _) (within_bind (reads_collectValidSigs X cycle am block) fun _ => within_pure _)

theorem reads_awaitQuorum (cq : Bool) (q : Nat) (valid : Sigs) :
    Reads (fun ev => ev.op.counting) (block.prepareSigs = []) (awaitQuorum X cycle am block cq q valid) :=
  within_bind within_get fun _ => within_ite
    (within_bind (reads_waitForSignatures X cycle am block q) fun _ =>
      within_ite (reads_collectValidSigs X cycle am block) (within_pure _))
    (within_pure _)

theorem reads_tally (leaderID : String) (cq : Bool) (q : Nat) :
    Reads (fun ev => ev.op.counting) (block.prepareSigs = []) (tally X cycle am leaderID block cq q) :=
  within_bind (reads_collectValidSigs X cycle am block) fun _ =>
    within_bind (reads_awaitQuorum X cycle am block cq q _) fun _ => within_bind within_get fun _ => within_pure _

end Counting

/-- A proposer finds its own signature on the block. -/
theorem signed_of_localSig {own : Sigs} (h : Runs (localSig cycle true block) e t (.done own) e') : block.prepareSigs ≠ [] := by
  intro hs
  unfold localSig at h
  rw [runs_get_bind, if_pos (.inl rfl), hs] at h
  obtain ⟨-, hpanic, -⟩ := runs_panic.1 h
  cases hpanic

/-- Counting reads signatures; its result is about the block it was given, and reports a quorum only when asked to. -/
theorem runs_tally {x : Exit PrepareResult} (h : Runs (tally X cycle am leaderID block cq q) e t x e') :
    e' = e ∧ (∀ ev ∈ t, ev.op.counting) ∧
      ((x = .panic ∧ block.prepareSigs = []) ∨
        ∃ pr, x = .done pr ∧ pr.block = block ∧ pr.leaderID = leaderID ∧ (am = true → block.prepareSigs ≠ [])) := by
  obtain ⟨rfl, hr, hpanic⟩ := reads_tally X cycle am block leaderID cq q _ _ _ _ h
  refine ⟨rfl, hr, ?_⟩
  cases x with
  | panic => exact .inl ⟨rfl, hpanic rfl⟩
  | done pr =>
    obtain ⟨t₁, first, e₁, t₂, rfl, h₁, h₂⟩ := runs_bind_done.1 h
    obtain ⟨t₃, valid, e₂, t₄, rfl, -, h₄⟩ := runs_bind_done.1 h₂
    rw [runs_get_bind] at h₄
    obtain ⟨rfl, hx, rfl⟩ := runs_pure.1 h₄
    cases hx
    refine .inr ⟨_, rfl, rfl, rfl, ?_⟩
    rintro rfl
    obtain ⟨u, own, e₃, v, -, hown, -⟩ := runs_bind_done.1 h₁
    exact signed_of_localSig hown

/-! ## The phase -/

/-- The calls that obtain a candidate without leaving one behind. -/
def Op.looking : Op → Bool
  | .getProposed _ | .patience | .snapshot => true
  | _ => false

/-- How a candidate is obtained: it is not, or the proposer reads it back, or the proposer builds it, or it comes from the
channel and is judged. -/
inductive Obtained (e : Engine) (cycle : UInt64) (p : Peer) (pend : List ProvenanceEntry) (cq : Bool) (q : Nat) (am : Bool) :
    Trace → Exit (Except PrepareError Block) → Engine → Prop
  | nothing {t : Trace} (err : PrepareError) (ht : ∀ ev ∈ t, ev.op.looking) (hbare : ∀ ev ∈ t, Bare ev)
      (hempty : e.hasGossip = true → ⟨.getProposed cycle, none⟩ ∈ t ∨ ⟨.snapshot, []⟩ ∈ t) :
      Obtained e cycle p pend cq q am t (.done (.error err)) e
  | readBack (block : Block) (ham : am = true) (hg : e.hasGossip = true) (hcq : cq = true) :
      Obtained e cycle p pend cq q am [⟨.getProposed cycle, some block⟩] (.done (.ok block)) e
  | built {t : Trace} (entries : List ProvenanceEntry) (now : Int) (ham : am = true)
      (hcq : e.hasGossip = true → cq = false) (hpend : e.hasGossip = false → entries = dedupEntries pend [])
      (hpool : e.hasGossip = true → ∃ pool, t = [⟨.snapshot, pool⟩] ∧ entries = dedupEntries pool [])
      (ht : ∀ ev ∈ t, ev.op.looking) (halone : e.hasGossip = false → t = []) :
      Obtained e cycle p pend cq q am
        (t ++ ⟨.now, now⟩ :: e.broadcast X cycle (e.newCandidate X cycle p entries q now))
        (.done (.ok (e.newCandidate X cycle p entries q now))) (e.grow X entries)
  | judged {t₁ t₂ : Trace} {y : Exit (Except PrepareError Block)} (block : Block) (ham : am = false)
      (hg : e.hasGossip = true) (ht : ∀ ev ∈ t₁, ev.op.looking) (hread : ⟨.getProposed cycle, some block⟩ ∈ t₁)
      (hv : Verdict X (e.grow X block.anchored) cycle p block t₂ y)
      (hlast : ∃ w, t₁ = w ++ [⟨.getProposed cycle, some block⟩] ∧ ∀ ev ∈ w, Bare ev) :
      Obtained e cycle p pend cq q am (t₁ ++ t₂) y (e.grow X block.anchored)

theorem looking_of_awaiting (h : o.awaiting = true) : o.looking = true := by
  cases o <;> first | rfl | cases h

theorem runs_obtainCandidate (h : Runs (obtainCandidate X cycle p pend cq q am) e t y e') :
    Obtained X e cycle p pend cq q am t y e' := by
  unfold obtainCandidate at h
  cases am with
  | true =>
    rw [if_pos rfl] at h
    rcases runs_proposeCandidate X h with ⟨hg, hcq, rfl, r, rfl, rfl⟩ | ⟨hg, hcq, pool, t', rfl, h'⟩ | ⟨hg, h'⟩
    · cases r with
      | none => exact .nothing _ (by simp [Op.looking]) (by simp [Bare, takenBy]) fun _ => .inl (by simp)
      | some block => exact .readBack block rfl hg hcq
    · rcases runs_buildCandidate X h' with ⟨rfl, rfl, rfl, rfl⟩ | ⟨now, rfl, rfl, rfl⟩
      · exact .nothing _ (by simp [Op.looking]) (by simp [Bare, takenBy, dedupEntries]) fun _ => .inr (by simp)
      · exact .built (t := [⟨.snapshot, pool⟩]) _ now rfl (fun _ => hcq) (by simp [hg]) (fun _ => ⟨pool, rfl, rfl⟩)
          (by simp [Op.looking]) (by simp [hg])
    · rcases runs_buildCandidate X h' with ⟨rfl, rfl, rfl, -⟩ | ⟨now, rfl, rfl, rfl⟩
      · exact .nothing _ (by simp) (by simp) (by simp [hg])
      · refine .built (t := []) _ now rfl (by simp [hg]) (fun _ => rfl) (by simp [hg]) (by simp) fun _ => rfl
  | false =>
    rw [if_neg (by simp)] at h
    rcases runs_checkCandidate X h with ⟨rfl, ⟨err, rfl⟩, ht, hbare, hnone⟩ | ⟨hg, block, w, t₂, rfl, ht, hw, rfl, hv⟩
    · exact .nothing err (fun ev hev => looking_of_awaiting (ht ev hev)) hbare fun hg => .inl (hnone hg)
    · exact .judged block rfl hg (fun ev hev => looking_of_awaiting (ht ev hev)) (by simp) hv ⟨w, rfl, hw⟩

/-- How a phase ends once it has looked for a candidate: a failure goes through, and a candidate is counted. -/
inductive Counted (e : Engine) (cycle : UInt64) (cq : Bool) (q : Nat) (am : Bool) (leaderID : String) :
    Exit (Except PrepareError Block) → Trace → Exit (Except PrepareError PrepareResult) → Prop
  | panicked : Counted e cycle cq q am leaderID .panic [] .panic
  | failed (err : PrepareError) : Counted e cycle cq q am leaderID (.done (.error err)) [] (.done (.error err))
  | unsigned {block : Block} {t : Trace} (ht : ∀ ev ∈ t, ev.op.counting) (hsigs : block.prepareSigs = []) :
      Counted e cycle cq q am leaderID (.done (.ok block)) t .panic
  | counted {pr : PrepareResult} {t : Trace} (ht : ∀ ev ∈ t, ev.op.counting) (hl : pr.leaderID = leaderID)
      (hsigned : am = true → pr.block.prepareSigs ≠ [])
      (hrun : Runs (tally X cycle am leaderID pr.block cq q) e t (.done pr) e) :
      Counted e cycle cq q am leaderID (.done (.ok pr.block)) t (.done (.ok pr))

/-- **A PREPARE phase** is an election; if that succeeds and the proposer is active, a candidate is obtained and counted. -/
theorem runs_preparePhase {x : Exit (Except PrepareError PrepareResult)}
    (h : Runs (runPreparePhase X cycle root pend cq q) e t x e') :
    ∃ t₁, (∀ ev ∈ t₁, ev.op.electing cycle) ∧
      ((t = t₁ ∧ (e' = e ∧ Unelected X e cycle root t₁) ∧ ∃ err, x = .done (.error err)) ∨
        ∃ p t₂ t₃ y, t = t₁ ++ (t₂ ++ t₃) ∧ Elected X e cycle root t₁ p ∧
          Obtained X e cycle p pend cq q (p.uid.id == e.node.uid.id) t₂ y e' ∧
          Counted X e' cycle cq q (p.uid.id == e.node.uid.id) p.uid.id y t₃ x) := by
  unfold runPreparePhase at h
  rcases runs_bind.1 h with ⟨t₁, r, e₁, t₂, rfl, h₁, h₂⟩ | ⟨-, h⟩
  · obtain ⟨rfl, hr, hres⟩ := runs_elect X h₁
    refine ⟨t₁, hr, ?_⟩
    rcases hres with ⟨hnone, err, herr⟩ | ⟨p, hp, hel⟩
    · cases herr
      obtain ⟨rfl, rfl, rfl⟩ := runs_pure.1 h₂
      exact .inl ⟨by simp, ⟨rfl, hnone⟩, _, rfl⟩
    · cases hp
      rw [runs_get_bind] at h₂
      split at h₂
      · next hinactive =>
        obtain ⟨rfl, rfl, rfl⟩ := runs_pure.1 h₂
        exact .inl ⟨by simp, ⟨rfl, hel.unelected X hinactive⟩, _, rfl⟩
      · right
        rcases runs_bind.1 h₂ with ⟨t₃, y, e₂, t₄, rfl, h₃, h₄⟩ | ⟨rfl, h₃⟩
        · cases y with
          | error err =>
            obtain ⟨rfl, rfl, rfl⟩ := runs_pure.1 h₄
            exact ⟨p, t₃, [], _, rfl, hel, runs_obtainCandidate X h₃, .failed err⟩
          | ok block =>
            rcases runs_bind.1 h₄ with ⟨t₅, pr, e₃, t₆, rfl, h₅, h₆⟩ | ⟨rfl, h₅⟩
            · obtain ⟨rfl, hr₅, hx | ⟨pr', hpr, rfl, hl, hsigned⟩⟩ := runs_tally X h₅
              · cases hx.1
              · cases hpr
                obtain ⟨rfl, rfl, rfl⟩ := runs_pure.1 h₆
                rw [List.append_nil]
                exact ⟨p, t₃, t₅, _, rfl, hel, runs_obtainCandidate X h₃, .counted hr₅ hl hsigned h₅⟩
            · obtain ⟨rfl, hr₅, ⟨-, hs⟩ | ⟨pr', hpr, -⟩⟩ := runs_tally X h₅
              · exact ⟨p, t₃, t₄, _, rfl, hel, runs_obtainCandidate X h₃, .unsigned hr₅ hs⟩
              · cases hpr
        · exact ⟨p, t₂, [], _, by simp, hel, runs_obtainCandidate X h₃, .panicked⟩
  · obtain ⟨-, -, ⟨-, err, herr⟩ | ⟨p, hp, -⟩⟩ := runs_elect X h
    · cases herr
    · cases hp

/-! ## The calls of a phase -/

/-- The calls of a PREPARE phase after the election. -/
def Op.dealing : Op → Bool
  | .getProposed _ | .patience | .snapshot | .now | .propose _ _ | .publishSig _ | .getSigs _ => true
  | _ => false

theorem dealing_of_looking (h : o.looking = true) : o.dealing = true := by
  cases o <;> first | rfl | cases h

theorem dealing_of_counting (h : o.counting = true) : o.dealing = true := by
  cases o <;> first | rfl | cases h

theorem broadcast_dealing (e : Engine) (cycle : UInt64) (block : Block) : ∀ ev ∈ e.broadcast X cycle block, ev.op.dealing := by
  unfold Engine.broadcast
  split <;> simp [Op.dealing]

theorem obtained_dealing {batch : List ProvenanceEntry} (h : Obtained X e cycle p batch cq q am t y e') :
    ∀ ev ∈ t, ev.op.dealing := by
  cases h with
  | nothing err ht => exact fun ev hev => dealing_of_looking (ht ev hev)
  | readBack block ham hg hcq => simp [Op.dealing]
  | built entries now ham hcq hpend hpool ht =>
    intro ev hev
    rcases List.mem_append.1 hev with hev | hev
    · exact dealing_of_looking (ht ev hev)
    · rcases List.mem_cons.1 hev with rfl | hev
      · rfl
      · exact broadcast_dealing X _ _ _ ev hev
  | judged block ham hg ht hread hv =>
    intro ev hev
    rcases List.mem_append.1 hev with hev | hev
    · exact dealing_of_looking (ht ev hev)
    · cases hv with
      | refused err => cases hev
      | panicked hroot hhash hsigs => cases hev
      | voted hroot hhash hsigs hsig =>
        obtain rfl := List.mem_singleton.1 hev
        rfl

variable {X} in
theorem counted_counting {x : Exit (Except PrepareError PrepareResult)} (h : Counted X e cycle cq q am leaderID y t x) :
    ∀ ev ∈ t, ev.op.counting := by
  cases h with
  | panicked => simp
  | failed err => simp
  | unsigned ht hsigs => exact ht
  | counted ht hl => exact ht

/-- **The calls of a PREPARE phase.** -/
theorem prepare_calls {x : Exit (Except PrepareError PrepareResult)}
    (h : Runs (runPreparePhase X cycle root pend cq q) e t x e') :
    ∀ ev ∈ t, ev.op.electing cycle = true ∨ ev.op.dealing = true := by
  obtain ⟨t₁, helect, ⟨rfl, -⟩ | ⟨p, t₂, t₃, y, rfl, -, ho, hc⟩⟩ := runs_preparePhase X h
  · exact fun ev hev => .inl (helect ev hev)
  · intro ev hev
    rcases List.mem_append.1 hev with hev | hev
    · exact .inl (helect ev hev)
    · rcases List.mem_append.1 hev with hev | hev
      · exact .inr (obtained_dealing X ho ev hev)
      · exact .inr (dealing_of_counting (counted_counting hc ev hev))

end Gleipnir
