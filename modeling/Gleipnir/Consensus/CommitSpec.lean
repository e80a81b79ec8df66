import Gleipnir.Consensus.Commit
import Gleipnir.Consensus.PrepareSpec

/-!
# What a COMMIT phase does

`runs_commitPhase`: a commit changes nothing in the engine; the leader publishes the final block it built, everyone else
commits a block read from the final slot that passed `checkFinal`.
-/

namespace Gleipnir

open Atomic Atomic.Body

variable (X : Prims)

/-- The calls of a wait for the final block. -/
def Op.finalising : Op → Bool
  | .getFinal _ | .patience => true
  | _ => false

theorem reads_waitForFinal (cycle : UInt64) : Reads (fun ev => ev.op.finalising) False (waitForFinal cycle) :=
  within_bind (within_perform fun _ => rfl) fun _ =>
    within_bind (within_poll (within_perform fun _ => rfl) _ _) fun _ => within_pure _

variable {cycle : UInt64} {e e' : Engine} {t : Trace} {leaderID : String} {pr : PrepareResult}
  {x : Exit (Except CommitError Block)}

theorem runs_waitForFinal {found : Option Block} (h : Runs (waitForFinal cycle) e t (.done found) e') :
    ⟨.getFinal cycle, found⟩ ∈ t := by
  obtain ⟨w, rfl, -⟩ := runs_await (fun r => ⟨.getFinal cycle, r⟩) (fun _ _ _ _ hrun => runs_perform.1 hrun) h
  simp

/-- The channel has no final block for a validator that passes its checks. -/
def NoFinal (e : Engine) (cycle : UInt64) (leaderID : String) (t : Trace) : Prop :=
  ∃ r, ⟨.getFinal cycle, r⟩ ∈ t ∧ ∀ block, r = some block → e.checkFinal X cycle leaderID block ≠ .ok block

/-- How a commit ends: with an error, with the leader's final block, or with one that was read and checked. -/
inductive Finalised (e : Engine) (cycle : UInt64) (pr : PrepareResult) : Trace → Exit (Except CommitError Block) → Prop
  | failed {t : Trace} (err : CommitError) (ht : ∀ ev ∈ t, ev.op.finalising)
      (hwhy : pr.quorumReached = false ∨
        pr.leaderID ≠ e.node.uid.id ∧ (e.hasGossip = true → NoFinal X e cycle pr.leaderID t)) :
      Finalised e cycle pr t (.done (.error err))
  | led {t : Trace} (hq : pr.quorumReached = true) (hl : pr.leaderID = e.node.uid.id)
      (ht : t = if e.hasGossip then [⟨.publishFinal (e.finalBlock X pr) e.node.uid.id, ()⟩] else []) :
      Finalised e cycle pr t (.done (.ok (e.finalBlock X pr)))
  | followed {t : Trace} {block : Block} (hq : pr.quorumReached = true) (hl : pr.leaderID ≠ e.node.uid.id)
      (hg : e.hasGossip = true) (ht : ∀ ev ∈ t, ev.op.finalising) (hread : ⟨.getFinal cycle, some block⟩ ∈ t)
      (hcheck : e.checkFinal X cycle pr.leaderID block = .ok block) : Finalised e cycle pr t (.done (.ok block))

theorem checkFinal_ok {block b : Block} (h : e.checkFinal X cycle leaderID block = .ok b) :
    b = block ∧ e.verifyPrepareQuorum X cycle block = true ∧ computeBlockHash X block = block.blockHash := by
  unfold Engine.checkFinal at h
  cases hq : e.verifyPrepareQuorum X cycle block with
  | false => simp [hq] at h
  | true =>
    simp only [hq, Bool.not_true, Bool.false_eq_true, if_false] at h
    split at h
    · cases h
    · split at h
      · cases h
      · split at h
        · cases h
        · next hhash =>
          cases h
          exact ⟨rfl, rfl, not_not.1 hhash⟩

theorem runs_publishFinal {x : Exit Block} (h : Runs (publishFinal X pr) e t x e') : e' = e ∧ x = .done (e.finalBlock X pr) ∧
      t = if e.hasGossip then [⟨.publishFinal (e.finalBlock X pr) e.node.uid.id, ()⟩] else [] := by
  unfold publishFinal at h
  rw [runs_get_bind] at h
  cases hg : e.hasGossip with
  | true =>
    simp only [hg, if_true] at h
    obtain ⟨⟨⟩, t₃, rfl, h₃⟩ := runs_perform_bind.1 h
    obtain ⟨rfl, rfl, rfl⟩ := runs_pure.1 h₃
    exact ⟨rfl, rfl, rfl⟩
  | false =>
    simp only [hg, Bool.false_eq_true, if_false] at h
    obtain ⟨rfl, rfl, rfl⟩ := runs_pure.1 h
    exact ⟨rfl, rfl, rfl⟩

theorem runs_acceptFinal (h : Runs (acceptFinal X cycle leaderID) e t x e') :
    e' = e ∧ (∀ ev ∈ t, ev.op.finalising) ∧
      ((∃ err, x = .done (.error err) ∧ (e.hasGossip = true → NoFinal X e cycle leaderID t)) ∨ ∃ block, x = .done (.ok block) ∧
        e.hasGossip = true ∧ ⟨.getFinal cycle, some block⟩ ∈ t ∧ e.checkFinal X cycle leaderID block = .ok block) := by
  unfold acceptFinal at h
  rw [runs_get_bind] at h
  cases hg : e.hasGossip with
  | false =>
    simp only [hg, Bool.false_eq_true, if_false] at h
    obtain ⟨rfl, rfl, rfl⟩ := runs_pure.1 h
    exact ⟨rfl, by simp, .inl ⟨_, rfl, by simp⟩⟩
  | true =>
    simp only [hg, if_true] at h
    rcases runs_bind.1 h with ⟨t₁, found, e₁, t₂, rfl, h₁, h₂⟩ | ⟨-, h₁⟩
    · obtain ⟨rfl, hr, -⟩ := reads_waitForFinal _ _ _ _ _ h₁
      have hread := runs_waitForFinal h₁
      cases found with
      | none =>
        obtain ⟨rfl, rfl, rfl⟩ := runs_pure.1 h₂
        rw [List.append_nil]
        exact ⟨rfl, hr, .inl ⟨_, rfl, fun _ => ⟨none, hread, by simp⟩⟩⟩
      | some block =>
        obtain ⟨rfl, rfl, rfl⟩ := runs_pure.1 h₂
        rw [List.append_nil]
        refine ⟨rfl, hr, ?_⟩
        cases hc : e'.checkFinal X cycle leaderID block with
        | error err =>
          refine .inl ⟨err, rfl, fun _ => ⟨some block, hread, fun b hb => ?_⟩⟩
          obtain rfl := Option.some.inj hb
          simp [hc]
        | ok b =>
          obtain rfl := (checkFinal_ok X hc).1
          exact .inr ⟨b, rfl, rfl, hread, hc⟩
    · exact ((reads_waitForFinal _ _ _ _ _ h₁).2.2 rfl).elim

/-- **A COMMIT phase** leaves the engine alone and does not panic. -/
theorem runs_commitPhase (h : Runs (runCommitPhase X cycle pr) e t x e') : e' = e ∧ Finalised X e cycle pr t x := by
  unfold runCommitPhase at h
  rw [runs_get_bind] at h
  cases hq : pr.quorumReached with
  | false =>
    simp only [hq, Bool.not_false, if_true] at h
    obtain ⟨rfl, rfl, rfl⟩ := runs_pure.1 h
    exact ⟨rfl, .failed _ (by simp) (.inl hq)⟩
  | true =>
    simp only [hq, Bool.not_true, Bool.false_eq_true, if_false] at h
    split at h
    · next hl =>
      rcases runs_bind.1 h with ⟨t₁, block, e₁, t₂, rfl, h₁, h₂⟩ | ⟨-, h₁⟩
      · obtain ⟨rfl, hblock, ht⟩ := runs_publishFinal X h₁
        obtain ⟨rfl, rfl, rfl⟩ := runs_pure.1 h₂
        cases hblock
        exact ⟨rfl, .led hq hl (by rw [List.append_nil, ht])⟩
      · obtain ⟨-, hpanic, -⟩ := runs_publishFinal X h₁
        cases hpanic
    · next hl =>
      obtain ⟨rfl, ht, ⟨err, rfl, hwhy⟩ | ⟨block, rfl, hg, hread, hcheck⟩⟩ := runs_acceptFinal X h
      · exact ⟨rfl, .failed err ht (.inr ⟨hl, hwhy⟩)⟩
      · exact ⟨rfl, .followed hq hl hg ht hread hcheck⟩

end Gleipnir
