import Gleipnir.Consensus.Origin
import Gleipnir.Lib.Occurrence

/-!
# Where an engine votes

A PREPARE signature is published in two places: by the proposer right after its candidate, and by everyone else for a
candidate that passed its checks (`Voted`). `prepare_vote`, `cycle_preparing` and `step_preparing` find the place from the
position of the signature in a trace, where the events before it determine who was elected.
-/

namespace Gleipnir

open Atomic Atomic.Body

variable (X : Prims)

/-- The checks a validator with the tree of `e` makes before it votes for a candidate of `p`. -/
structure Approved (e : Engine) (cycle : UInt64) (p : Peer) (b : Block) : Prop where
  root : (e.st.insertHashes X b.anchored).root.toList = b.stateRoot
  hash : computeBlockHash X b = b.blockHash
  signature : ∃ sig sigs, b.prepareSigs = sig :: sigs ∧
    e.verifySignatureWithOverlap X p.uid.rootID b.blockHash sig cycle = true

/-- How the engine `e` came to publish the signature `s` after the events `u`, `p` being elected. -/
inductive Voted (e : Engine) (cycle : UInt64) (p : Peer) (u : Trace) (s : BlockSig) : Prop
  | proposed {b : Block} {id : String} (hme : p.uid.id = e.node.uid.id) (hindex : b.index = cycle)
      (hpropose : ⟨.propose b id, ()⟩ ∈ u) (hs : s = e.vote X cycle b.blockHash) (hg : e.hasGossip = true)
  | judged {b : Block} (hme : p.uid.id ≠ e.node.uid.id) (hread : ⟨.getProposed cycle, some b⟩ ∈ u)
      (happroved : Approved X e cycle p b) (hs : s = e.vote X cycle b.blockHash) (hg : e.hasGossip = true)

/-! ## Votes, proposals and candidates in a trace -/

/-- The PREPARE signatures handed to `PublishSig`. -/
def votesIn (t : Trace) : List BlockSig := t.filterMap fun
  | ⟨.publishSig s, _⟩ => some s
  | _ => none

/-- The candidates handed to `Propose`. -/
def proposalsIn (t : Trace) : List Block := t.filterMap fun
  | ⟨.propose b _, _⟩ => some b
  | _ => none

/-- The candidates `GetProposed` returned, with the index that was asked for. -/
def candidatesIn (t : Trace) : List (UInt64 × Block) := t.filterMap fun
  | ⟨.getProposed cycle, some b⟩ => some (cycle, b)
  | _ => none

variable {t u v : Trace} {s : BlockSig} {cycle : UInt64} {e e' : Engine} {batch : List ProvenanceEntry} {ev : Event}
  {x : Exit Unit}

theorem mem_votesIn : s ∈ votesIn t ↔ ⟨.publishSig s, ()⟩ ∈ t := by
  simp only [votesIn, List.mem_filterMap]
  constructor
  · rintro ⟨ev, hev, hs⟩
    split at hs <;> cases hs
    exact hev
  · exact fun h => ⟨_, h, rfl⟩

theorem mem_proposalsIn {b : Block} : b ∈ proposalsIn t ↔ ∃ id, ⟨.propose b id, ()⟩ ∈ t := by
  simp only [proposalsIn, List.mem_filterMap]
  constructor
  · rintro ⟨ev, hev, hb⟩
    split at hb <;> cases hb
    exact ⟨_, hev⟩
  · exact fun ⟨id, h⟩ => ⟨_, h, rfl⟩

theorem mem_candidatesIn {b : Block} : (cycle, b) ∈ candidatesIn t ↔ ⟨.getProposed cycle, some b⟩ ∈ t := by
  simp only [candidatesIn, List.mem_filterMap]
  constructor
  · rintro ⟨ev, hev, hb⟩
    split at hb <;> cases hb
    exact hev
  · exact fun h => ⟨_, h, rfl⟩

/-! ## In a phase -/

theorem obtained_vote {p : Peer} {cq : Bool} {q : Nat} {y : Exit (Except PrepareError Block)}
    (h : Obtained X e cycle p batch cq q (p.uid.id == e.node.uid.id) (u ++ ⟨.publishSig s, ()⟩ :: v) y e') :
    Voted X e cycle p u s := by
  generalize ht : u ++ ⟨.publishSig s, ()⟩ :: v = t at h
  cases h with
  | nothing err hlook =>
    have hmem : (⟨.publishSig s, ()⟩ : Event) ∈ t := ht ▸ List.mem_append_right _ List.mem_cons_self
    exact absurd hmem (not_mem_of_op hlook rfl)
  | readBack block ham hg hcq =>
    have hmem : (⟨.publishSig s, ()⟩ : Event) ∈ u ++ ⟨.publishSig s, ()⟩ :: v :=
      List.mem_append_right _ List.mem_cons_self
    rw [ht] at hmem
    cases List.mem_singleton.1 hmem
  | @built t₁ entries now ham hcq hpend hpool hlook =>
    obtain ⟨w, hw, rfl⟩ := Occurrence.of_right ht (not_mem_of_op hlook rfl)
    unfold Engine.broadcast at hw
    split at hw
    · next hg =>
      -- the signature follows the clock and the proposal
      rcases w with _ | ⟨ev₁, _ | ⟨ev₂, _ | ⟨ev₃, w⟩⟩⟩
      · cases hw
      · cases hw
      · cases hw
        exact .proposed (eq_of_beq ham) rfl (List.mem_append_right _ (List.mem_cons_of_mem _ List.mem_cons_self)) rfl hg
      · simp at hw
    · rcases w with _ | ⟨ev₁, w⟩
      · cases hw
      · simp at hw
  | @judged t₁ t₂ _ block ham hg hlook hread hv =>
    obtain ⟨w, hw, rfl⟩ := Occurrence.of_right ht (not_mem_of_op hlook rfl)
    cases hv with
    | refused err => simp at hw
    | panicked hroot hhash hsigs => simp at hw
    | voted hroot hhash hsigs hsig =>
      cases w with
      | nil =>
        cases hw
        exact .judged (by simpa using ham) (List.mem_append_left _ hread) ⟨hroot, hhash, _, _, hsigs, hsig⟩ rfl hg
      | cons ev w => simp at hw

/-- **A vote in a PREPARE phase**: the events before it have elected someone, and it is the vote of the proposer or the
vote for an approved candidate. -/
theorem prepare_vote {root : Hash} {cq : Bool} {q : Nat} {x : Exit (Except PrepareError PrepareResult)}
    (h : Runs (runPreparePhase X cycle root batch cq q) e (u ++ ⟨.publishSig s, ()⟩ :: v) x e') :
    ∃ p, Elected X e cycle root u p ∧ Voted X e cycle p u s := by
  obtain ⟨t₁, helect, ⟨ht, -⟩ | ⟨p, t₂, t₃, y, ht, hp, ho, hc⟩⟩ := runs_preparePhase X h
  · have hmem : (⟨.publishSig s, ()⟩ : Event) ∈ t₁ := ht ▸ List.mem_append_right _ List.mem_cons_self
    exact absurd hmem (not_mem_of_op helect rfl)
  · have hcount : (⟨.publishSig s, ()⟩ : Event) ∉ t₃ := not_mem_of_op (counted_counting hc) rfl
    obtain ⟨w, w', rfl, rfl⟩ := Occurrence.of_middle ht (not_mem_of_op helect rfl) hcount
    refine ⟨p, hp.append_quiet X fun ev hev => ?_, ?_⟩
    · exact quiet_of_op (fun _ => rfl) (obtained_dealing X ho) ev (List.mem_append_left _ hev)
    · cases obtained_vote X ho with
      | proposed hme hindex hpropose hs hg => exact .proposed hme hindex (List.mem_append_right _ hpropose) hs hg
      | judged hme hread happroved hs hg => exact .judged hme (List.mem_append_right _ hread) happroved hs hg

/-! ## In a cycle -/

/-- The calls that only a PREPARE phase makes. -/
def Op.preparing : Op → Bool
  | .propose _ _ | .publishSig _ | .getProposed _ => true
  | _ => false

/-- A PREPARE phase of the cycle of `e` that took `pool` in. -/
abbrev Engine.Prepares (e : Engine) (pool : List ProvenanceEntry) (cq : Bool) (e₁ : Engine) (t : Trace)
    (x : Exit (Except PrepareError PrepareResult)) (e₂ : Engine) : Prop :=
  Runs (runPreparePhase X e.nextCycle e.st.root (e.start pool).allPending cq (e.ready X pool).requiredQuorum) e₁ t x e₂

/-- The event `ev`, with the events `u` of the cycle before it, belongs to the first PREPARE phase or to the quorum check. -/
inductive InPrepare (e : Engine) (u : Trace) (ev : Event) : Prop
  | first {pool : List ProvenanceEntry} {w v : Trace} {y : Exit (Except PrepareError PrepareResult)} {e₁ : Engine}
      (hu : u = e.ingestTrace pool ++ w) (h₁ : e.Prepares X pool false (e.ready X pool) (w ++ ev :: v) y e₁)
  | second {pool : List ProvenanceEntry} {t w v : Trace} {pr : PrepareResult}
      {y : Exit (Except PrepareError PrepareResult)} {e₁ e₂ : Engine} (hu : u = e.ingestTrace pool ++ (t ++ w))
      (h₁ : e.Prepares X pool false (e.ready X pool) t (.done (.ok pr)) e₁)
      (h₂ : e.Prepares X pool true e₁ (w ++ ev :: v) y e₂)

theorem finalised_preparing {pr : PrepareResult} {x : Exit (Except CommitError Block)} (h : Finalised X e cycle pr t x)
    (hev : ev.op.preparing = true) : ev ∉ t := by
  have hfin : ev.op.finalising = false := by
    cases hop : ev.op <;> simp_all [Op.preparing, Op.finalising]
  cases h with
  | failed err ht => exact not_mem_of_op ht hfin
  | followed hq hl hg ht hread hcheck => exact not_mem_of_op ht hfin
  | led hq hl ht =>
    rw [ht]
    split
    · intro hmem
      obtain rfl := List.mem_singleton.1 hmem
      cases hev
    · exact List.not_mem_nil

/-- The events of the phases that a PREPARE phase makes. -/
theorem phases_preparing {e₂ : Engine} {pool : List ProvenanceEntry} {x : Exit (Option (Block × Bool))}
    (h : e.Phases X pool (u ++ ev :: v) x e₂) (hev : ev.op.preparing = true) : InPrepare X e (e.ingestTrace pool ++ u) ev := by
  generalize ht : u ++ ev :: v = t at h
  cases runs_phases X h with
  | first h₁ hs =>
    subst ht
    exact .first rfl h₁
  | second h₁ h₂ hs =>
    rcases Occurrence.left_or_right ht with ⟨w, rfl, -⟩ | ⟨w, rfl, rfl⟩
    · exact .first rfl h₁
    · exact .second rfl h₁ h₂
  | third h₁ h₂ h₃ =>
    rcases Occurrence.left_or_right ht with ⟨w, rfl, -⟩ | ⟨w, hw, rfl⟩
    · exact .first rfl h₁
    · obtain ⟨w', rfl, -⟩ := Occurrence.of_left hw.symm (finalised_preparing X h₃ hev)
      exact .second rfl h₁ h₂

/-- The calls a cycle makes before and after its phases. -/
def Op.framing : Op → Bool
  | .snapshot | .removeEntries _ => true
  | _ => false

/-- The other events of a cycle are events of its phases. -/
theorem cycle_event (h : Cycled X e (u ++ ev :: v) x e') (hev : ev.op.framing = false) :
    ∃ pool w w' y e₂, u = e.ingestTrace pool ++ w ∧ e.Phases X pool (w ++ ev :: w') y e₂ := by
  have hingest : ∀ pool, ev ∉ e.ingestTrace pool := by
    intro pool hmem
    unfold Engine.ingestTrace at hmem
    split at hmem
    · obtain rfl := List.mem_singleton.1 hmem
      cases hev
    · cases hmem
  have hremove : ∀ block, ev ∉ e.removeTrace block := by
    intro block hmem
    unfold Engine.removeTrace at hmem
    split at hmem
    · obtain rfl := List.mem_singleton.1 hmem
      cases hev
    · cases hmem
  generalize ht : u ++ ev :: v = t at h
  cases h with
  | @skipped pool hs => exact absurd (ht ▸ List.mem_append_right _ List.mem_cons_self) (hingest pool)
  | @panicked pool _ _ hs hp =>
    obtain ⟨w, rfl, rfl⟩ := Occurrence.of_right ht (hingest pool)
    exact ⟨pool, w, v, _, _, rfl, hp⟩
  | @aborted pool _ _ hs hp =>
    obtain ⟨w, rfl, rfl⟩ := Occurrence.of_right ht (hingest pool)
    exact ⟨pool, w, v, _, _, rfl, hp⟩
  | @failed pool _ _ _ _ hs hp hc =>
    obtain ⟨w, rfl, rfl⟩ := Occurrence.of_right ht (hingest pool)
    exact ⟨pool, w, v, _, _, rfl, hp⟩
  | @committed pool _ _ final _ _ hs hp hc =>
    obtain ⟨w, w', rfl, rfl⟩ := Occurrence.of_middle ht (hingest pool) (hremove final)
    exact ⟨pool, w, w', _, _, rfl, hp⟩

/-- **The PREPARE phases of a cycle** make its proposals and votes. -/
theorem cycle_preparing (h : Cycled X e (u ++ ev :: v) x e') (hev : ev.op.preparing = true) : InPrepare X e u ev := by
  have hframing : ev.op.framing = false := by
    cases hop : ev.op <;> simp_all [Op.preparing, Op.framing]
  obtain ⟨pool, w, w', y, e₂, rfl, hp⟩ := cycle_event X h hframing
  exact phases_preparing X hp hev

/-- Only a cycle proposes and votes. -/
theorem step_preparing {l : Called} (h : EngineStep X e l e') (ht : l.trace = u ++ ev :: v) (hev : ev.op.preparing = true) :
    InPrepare X e u ev := by
  by_cases hc : l.call = .runCycle
  · rw [EngineStep, hc, ht] at h
    obtain ⟨x, hcycled⟩ := run_runCycle X h
    exact cycle_preparing X hcycled hev
  · obtain ⟨⟨x, s⟩, rfl, hrun⟩ := run_map.1 h
    have hmem : ev ∈ l.trace := ht ▸ List.mem_append_right _ List.mem_cons_self
    have hsub := (call_within X hc _ _ _ _ hrun).2.1 ev hmem
    cases hop : ev.op <;> simp_all [Op.preparing, Op.submitting]

end Gleipnir
