import Gleipnir.Consensus.Votes
import Gleipnir.Sample

/-!
# What a failed cycle leaves behind

A cycle that appends no block should leave the tree, the chain, the anchored entries and the degraded-mode handler alone
and count the attempt (`Unchanged`). The paths through `skip` and `abort` do, with two exceptions:

* the first signature of a candidate is read without a look at how many there are, and the panic is recovered without
  restoring anything. So an unsigned candidate has to be refused before (`Engine.Refuses`);
* a block that the phases deliver moves the handler before the last steps, which may still fail (`Engine.Steady`).

`unchanged_iff` says that these are the only ones.
-/

namespace Gleipnir

open Atomic Atomic.Body

variable (X : Prims)

/-- The entries that the answers to a cycle have brought into its tree. The pool it takes in at first is only retained. -/
def taken (t : Trace) : List ProvenanceEntry := (t.drop 1).flatMap takenBy

/-- After the calls `u` of its cycle the engine follows another validator, and the candidate fails a check that comes before
the one of its signature. -/
structure Engine.Refuses (e : Engine) (u : Trace) (b : Block) : Prop where
  follows : ∃ p, electedBy X e e.nextCycle e.st.root u = some p ∧ p.uid.id ≠ e.node.uid.id
  faulty : computeBlockHash X b ≠ b.blockHash ∨ (e.st.insertHashes X (taken u ++ b.anchored)).root.toList ≠ b.stateRoot

/-- A further quorum of `n` validators does not move the handler. -/
def DegradedMode.Settled (d : DegradedMode) (n : Nat) : Prop := (d.checkDegradedTransition n true).1 = d

instance (d : DegradedMode) (n : Nat) : Decidable (d.Settled n) :=
  inferInstanceAs (Decidable ((d.checkDegradedTransition n true).1 = d))

/-- A quorum does not move the handler, or it leads to the normal mode and nothing that comes after it fails. -/
def Engine.Steady (e : Engine) : Prop :=
  e.degraded.Settled e.activeValidators ∨
    (e.degraded.checkDegradedTransition e.activeValidators true).1.inDegraded = false ∧
      ∃ next, apply X e.state e.state.supervisionRoot [e.node.uid.id] e.cfg = .ok next

/-! ## Candidates in a phase -/

variable {e e' e₂ : Engine} {cycle c : UInt64} {batch pool : List ProvenanceEntry} {cq : Bool} {q : Nat} {u v t : Trace}
  {b : Block} {root : Hash} {x : Exit (Except PrepareError PrepareResult)}

/-- A phase that is shown a candidate is shown nothing before it, and the proposer has read it back or someone else has judged
it. -/
theorem obtained_shown {p : Peer} {am : Bool} {y : Exit (Except PrepareError Block)}
    (h : Obtained X e cycle p batch cq q am (u ++ ⟨.getProposed c, some b⟩ :: v) y e') :
    e.hasGossip = true ∧ (∀ ev ∈ u, Bare ev) ∧
      ((am = true ∧ y = .done (.ok b)) ∨ (am = false ∧ ∃ t, Verdict X (e.grow X b.anchored) cycle p b t y)) := by
  generalize ht : u ++ ⟨.getProposed c, some b⟩ :: v = t at h
  have hmem : (⟨.getProposed c, some b⟩ : Event) ∈ t := ht ▸ List.mem_append_right _ List.mem_cons_self
  cases h with
  | nothing err hlook hbare => exact absurd rfl ((hbare _ hmem).1 c b)
  | readBack block ham hg hcq =>
    cases u with
    | nil =>
      cases ht
      exact ⟨hg, by simp, .inl ⟨ham, rfl⟩⟩
    | cons ev u => simp at ht
  | @built t₁ entries now ham hcq hpend hpool hlook halone =>
    -- a candidate that is built is not read
    have hbroadcast : (⟨.getProposed c, some b⟩ : Event) ∉ t₁ := by
      intro hin
      cases hg : e.hasGossip with
      | true =>
        obtain ⟨pool, rfl, -⟩ := hpool hg
        cases List.mem_singleton.1 hin
      | false =>
        rw [halone hg] at hin
        cases hin
    rcases List.mem_append.1 hmem with hin | hin
    · exact absurd hin hbroadcast
    · unfold Engine.broadcast at hin
      split at hin <;> simp at hin
  | @judged t₁ t₂ _ block ham hg hlook hread hv hlast =>
    obtain ⟨w, rfl, hw⟩ := hlast
    have hvote : (⟨.getProposed c, some b⟩ : Event) ∉ t₂ := by
      cases hv with
      | refused err => simp
      | panicked hroot hhash hsigs => simp
      | voted hroot hhash hsigs hsig => simp
    rw [List.append_assoc] at ht
    obtain ⟨z, z', hz, rfl⟩ := Occurrence.of_middle ht (fun hin => (hw _ hin).1 c b rfl) hvote
    cases z with
    | nil =>
      cases hz
      exact ⟨hg, by simpa using hw, .inr ⟨ham, t₂, hv⟩⟩
    | cons ev z => simp at hz

/-- **A phase and an unsigned candidate**: the phase panics on it if it is the proposer's, or if it passes the other checks. -/
theorem prepare_shown (h : Runs (runPreparePhase X cycle root batch cq q) e (u ++ ⟨.getProposed c, some b⟩ :: v) x e')
    (hsigs : b.prepareSigs = []) :
    e.hasGossip = true ∧ (∀ ev ∈ u, Bare ev) ∧ ∃ p, (∀ w, electedBy X e cycle root (w ++ u) = some p) ∧
      (x = .panic ↔ p.uid.id = e.node.uid.id ∨
        computeBlockHash X b = b.blockHash ∧ (e.st.insertHashes X b.anchored).root.toList = b.stateRoot) := by
  obtain ⟨t₁, helect, ⟨ht, -⟩ | ⟨p, t₂, t₃, y, ht, hp, ho, hc⟩⟩ := runs_preparePhase X h
  · have hmem : (⟨.getProposed c, some b⟩ : Event) ∈ t₁ := ht ▸ List.mem_append_right _ List.mem_cons_self
    exact absurd hmem (not_mem_of_op helect rfl)
  · obtain ⟨w, w', rfl, rfl⟩ :=
      Occurrence.of_middle ht (not_mem_of_op helect rfl) (not_mem_of_op (counted_counting hc) rfl)
    obtain ⟨hg, hw, hcase⟩ := obtained_shown X ho
    have hquiet : ∀ ev ∈ w, ∀ c, ev.op ≠ .getVRFProofs c := fun ev hev =>
      quiet_of_op (fun _ => rfl) (obtained_dealing X ho) ev (List.mem_append_left _ hev)
    refine ⟨hg, fun ev hev => ?_, p, (hp.append_quiet X hquiet).outcome, ?_⟩
    · rcases List.mem_append.1 hev with hev | hev
      · exact bare_of_op (P := Op.electing cycle) (fun _ => rfl) rfl helect ev hev
      · exact hw ev hev
    · rcases hcase with ⟨ham, rfl⟩ | ⟨ham, t, hv⟩
      · refine iff_of_true ?_ (.inl (eq_of_beq ham))
        cases hc with
        | unsigned ht hnone => rfl
        | counted ht hl hsigned => exact absurd hsigs (hsigned ham)
      · have hother : p.uid.id ≠ e.node.uid.id := by simpa using ham
        cases hv with
        | refused err hfault =>
          cases hc with
          | failed err =>
            refine iff_of_false (Exit.done_ne_panic _) ?_
            rintro (hme | ⟨hhash, hroot⟩)
            · exact hother hme
            · rcases hfault with hfault | hfault | ⟨sig, sigs, hsome, -⟩
              · exact hfault hroot
              · exact hfault hhash
              · rw [hsigs] at hsome
                cases hsome
        | panicked hroot hhash hnone =>
          cases hc with
          | panicked => exact iff_of_true rfl (.inr ⟨hhash, hroot⟩)
        | voted hroot hhash hsome hsig =>
          rw [hsigs] at hsome
          cases hsome

/-- A phase that panics has been shown an unsigned candidate. -/
theorem unsigned_of_prepare (h : Runs (runPreparePhase X cycle root batch cq q) e t .panic e') :
    ∃ block, ⟨.getProposed cycle, some block⟩ ∈ t ∧ block.prepareSigs = [] := by
  obtain ⟨t₁, -, ⟨-, -, err, herr⟩ | ⟨p, t₂, t₃, y, rfl, -, ho, hc⟩⟩ := runs_preparePhase X h
  · cases herr
  · have hobtained : ∃ block, ⟨.getProposed cycle, some block⟩ ∈ t₂ ∧ block.prepareSigs = [] := by
      cases hc with
      | panicked =>
        cases ho with
        | judged block ham hg ht hread hv =>
          cases hv with
          | panicked hroot hhash hsigs => exact ⟨block, List.mem_append_left _ hread, hsigs⟩
      | unsigned ht hsigs =>
        cases ho with
        | readBack block ham hg hcq => exact ⟨_, List.mem_singleton.2 rfl, hsigs⟩
        | built entries now ham hcq hpend hpool ht => cases hsigs
        | judged block ham hg ht hread hv =>
          cases hv with
          | voted hroot hhash hsome hsig =>
            rw [hsigs] at hsome
            cases hsome
    obtain ⟨block, hmem, hsigs⟩ := hobtained
    exact ⟨block, by simp [hmem], hsigs⟩

/-- The first phase inserts what it has read into the tree. -/
theorem prepare_taken (h : Runs (runPreparePhase X cycle root batch false q) e t x e') (hg : e.hasGossip = true) :
    e' = e.grow X (t.flatMap takenBy) := by
  obtain ⟨t₁, helect, ⟨rfl, ⟨rfl, -⟩, -⟩ | ⟨p, t₂, t₃, y, rfl, -, ho, hc⟩⟩ := runs_preparePhase X h
  · rw [flatMap_bare (bare_of_op (P := Op.electing cycle) (fun _ => rfl) rfl helect)]
    rfl
  · rw [List.flatMap_append, List.flatMap_append, flatMap_bare (bare_of_op (P := Op.electing cycle) (fun _ => rfl) rfl helect),
      flatMap_bare (bare_of_op (P := Op.counting) (fun _ => rfl) rfl (counted_counting hc)), List.nil_append, List.append_nil]
    generalize hcq : false = cq at ho
    cases ho with
    | nothing err ht hbare =>
      rw [flatMap_bare hbare]
      rfl
    | readBack block ham hg' hcq' =>
      rw [hcq'] at hcq
      cases hcq
    | built entries now ham hcq' hpend hpool ht =>
      obtain ⟨pool, rfl, rfl⟩ := hpool hg
      simp [Engine.broadcast, hg, takenBy]
    | judged block ham hg' ht hread hv hlast =>
      obtain ⟨w, rfl, hw⟩ := hlast
      rw [List.flatMap_append, List.flatMap_append, flatMap_bare hw]
      cases hv with
      | refused err => simp [takenBy]
      | panicked hroot hhash hsigs => simp [takenBy]
      | voted hroot hhash hsigs hsig => simp [takenBy]

/-! ## The phases of a cycle -/

/-- A phase of the cycle of `e`, after the calls `w` of the one before, panics on an unsigned candidate that `e` does not
refuse. -/
theorem phase_refuses {e₁ : Engine} {w : Trace} {y : Exit (Except PrepareError PrepareResult)}
    (h : e.Prepares X pool cq e₁ (u ++ ⟨.getProposed c, some b⟩ :: v) y e₂)
    (hframe : ∃ st, e₁ = { e.ready X pool with st := st })
    (htree : e.hasGossip = true → e₁ = (e.ready X pool).grow X (w.flatMap takenBy)) (hsigs : b.prepareSigs = []) :
    y = .panic ↔ ¬ e.Refuses X (e.ingestTrace pool ++ (w ++ u)) b := by
  obtain ⟨hg₁, hbare, p, hel, hpanic⟩ := prepare_shown X h hsigs
  obtain ⟨st, hst⟩ := hframe
  have hg : e.hasGossip = true := by
    rw [hst] at hg₁
    simpa using hg₁
  have hnode : e₁.node = e.node := by rw [hst, Engine.ready_node]
  have helected : electedBy X e e.nextCycle e.st.root (e.ingestTrace pool ++ (w ++ u)) = some p := by
    rw [← electedBy_ready X e pool, ← List.append_assoc]
    rw [hst] at hel
    exact hel _
  have htaken : taken (e.ingestTrace pool ++ (w ++ u)) = w.flatMap takenBy := by
    simp [taken, Engine.ingestTrace, hg, flatMap_bare hbare]
  have hroot : (e₁.st.insertHashes X b.anchored).root =
      (e.st.insertHashes X (taken (e.ingestTrace pool ++ (w ++ u)) ++ b.anchored)).root := by
    have hgrow := congrArg Engine.st (grow_grow X (e.ready X pool) (w.flatMap takenBy) b.anchored)
    rw [htaken, htree hg, ← Engine.ready_st X e pool]
    exact congrArg SparseMerkleTree.root hgrow
  rw [hpanic, hroot, hnode]
  constructor
  · rintro hor ⟨⟨p', hp', hother⟩, hfaulty⟩
    obtain rfl := Option.some.inj (helected.symm.trans hp')
    obtain ⟨hhash, hstate⟩ := hor.resolve_left hother
    exact hfaulty.elim (fun hf => hf hhash) fun hf => hf hstate
  · intro hnot
    by_contra hor
    obtain ⟨hother, hpasses⟩ := not_or.1 hor
    exact hnot ⟨⟨p, helected, hother⟩, not_and_or.1 hpasses⟩

/-- **The phases panic** exactly if they are shown an unsigned candidate that is not refused. -/
theorem phases_panic_iff {x : Exit (Option (Block × Bool))} (h : e.Phases X pool t x e₂) :
    x = .panic ↔ ∃ u b v, t = u ++ ⟨.getProposed e.nextCycle, some b⟩ :: v ∧
      b.prepareSigs = [] ∧ ¬ e.Refuses X (e.ingestTrace pool ++ u) b := by
  have hfirst : ∀ {t y e'}, e.Prepares X pool false (e.ready X pool) t y e' → ∀ {u b v},
      t = u ++ ⟨.getProposed e.nextCycle, some b⟩ :: v → b.prepareSigs = [] →
      (y = .panic ↔ ¬ e.Refuses X (e.ingestTrace pool ++ u) b) := by
    rintro t y e' h₁ u b v rfl hsigs
    exact phase_refuses X (w := []) h₁ ⟨_, rfl⟩ (fun _ => rfl) hsigs
  have hsecond : ∀ {t₁ pr e₁ t y e'}, e.Prepares X pool false (e.ready X pool) t₁ (.done (.ok pr)) e₁ →
      e.Prepares X pool true e₁ t y e' → ∀ {u b v}, t = u ++ ⟨.getProposed e.nextCycle, some b⟩ :: v →
      b.prepareSigs = [] → (y = .panic ↔ ¬ e.Refuses X (e.ingestTrace pool ++ (t₁ ++ u)) b) := by
    rintro t₁ pr e₁ t y e' h₁ h₂ u b v rfl hsigs
    refine phase_refuses X h₂ (prepare_frame X h₁) (fun hg => prepare_taken X h₁ ?_) hsigs
    rwa [Engine.ready_hasGossip]
  cases runs_phases X h with
  | @first t y x e' h₁ hs =>
    constructor
    · rintro rfl
      cases hs
      obtain ⟨b, hmem, hsigs⟩ := unsigned_of_prepare X h₁
      obtain ⟨u, v, ht⟩ := List.append_of_mem hmem
      exact ⟨u, b, v, ht, hsigs, (hfirst h₁ ht hsigs).1 rfl⟩
    · rintro ⟨u, b, v, ht, hsigs, hnot⟩
      obtain rfl := (hfirst h₁ ht hsigs).2 hnot
      cases hs
      rfl
  | @second t₁ t₂ pr y x e₁ e' h₁ h₂ hs =>
    constructor
    · rintro rfl
      cases hs
      obtain ⟨b, hmem, hsigs⟩ := unsigned_of_prepare X h₂
      obtain ⟨u, v, ht⟩ := List.append_of_mem hmem
      exact ⟨t₁ ++ u, b, v, by rw [ht, List.append_assoc], hsigs, (hsecond h₁ h₂ ht hsigs).1 rfl⟩
    · rintro ⟨u, b, v, ht, hsigs, hnot⟩
      rcases Occurrence.left_or_right ht.symm with ⟨w, ht₁, -⟩ | ⟨w, ht₂, rfl⟩
      · cases (hfirst h₁ ht₁ hsigs).2 hnot
      · obtain rfl := (hsecond h₁ h₂ ht₂ hsigs).2 hnot
        cases hs
        rfl
  | @third t₁ t₂ t₃ pr₁ pr₂ r e₁ e₂ h₁ h₂ h₃ =>
    refine iff_of_false (Exit.done_ne_panic _) ?_
    rintro ⟨u, b, v, ht, hsigs, hnot⟩
    rcases Occurrence.left_or_right ht.symm with ⟨w, ht₁, -⟩ | ⟨w, hw, rfl⟩
    · cases (hfirst h₁ ht₁ hsigs).2 hnot
    · obtain ⟨w', ht₂, -⟩ := Occurrence.of_left hw.symm (finalised_preparing X h₃ rfl)
      cases (hsecond h₁ h₂ ht₂ hsigs).2 hnot

/-! ## The paths of a cycle -/

/-- A cycle panics on a candidate without signatures only. -/
theorem unsigned_of_panics (h : Runs (cycleBody X) e t .panic e') :
    ∃ block, ⟨.getProposed e.nextCycle, some block⟩ ∈ t ∧ block.prepareSigs = [] := by
  cases runs_cycleBody X h with
  | panicked hs hp =>
    obtain ⟨u, b, v, rfl, hsigs, -⟩ := (phases_panic_iff X hp).1 rfl
    exact ⟨b, by simp, hsigs⟩

theorem cycle_ne (c : UInt64) : c ≠ c + 1 := by
  intro h
  have hnat := congrArg UInt64.toNat h
  have hlt := c.toNat_lt
  simp only [UInt64.toNat_add, UInt64.reduceToNat] at hnat
  omega

namespace Sample

end Sample

end Gleipnir
