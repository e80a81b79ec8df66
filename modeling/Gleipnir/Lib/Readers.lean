import Gleipnir.Lib.Path
import Mathlib.Logic.Function.Basic

/-!
# Readers beside an owner

An owner moves by steps of its own. Beside it readers are opened at any time, and each reads the state of the owner step by
step; the steps interleave in any order.

* `WatchStep.invariant`: what holds between the owner and a reader when the reader is opened, and is kept by the steps of
  both, holds of every reader at the end of a run.
* `WatchStep.owner_run`: the owner runs as if nobody read.
* `prefix_drop_append`: a reader of a list that reads one position after the other has read a segment of it.
-/

namespace Atomic

variable {σ ℓ ι ρ : Type}

/-- An owner, and the readers that have been opened beside it. -/
structure Watched (σ ι ρ : Type) where
  state : σ
  readers : ι → Option ρ

/-- What happens: the owner moves, a reader is opened, or a reader takes a step. -/
inductive WatchMove (ℓ ι : Type) where
  | owner (l : ℓ)
  | opens (i : ι)
  | reads (i : ι)

inductive WatchStep [DecidableEq ι] (Step : σ → ℓ → σ → Prop) (Opens : σ → ρ → Prop) (Reads : σ → ρ → ρ → Prop) :
    Watched σ ι ρ → WatchMove ℓ ι → Watched σ ι ρ → Prop
  | owner {w : Watched σ ι ρ} {l : ℓ} {s' : σ} (h : Step w.state l s') : WatchStep Step Opens Reads w (.owner l) ⟨s', w.readers⟩
  | opens {w : Watched σ ι ρ} {i : ι} {r : ρ} (hi : w.readers i = none) (h : Opens w.state r) :
      WatchStep Step Opens Reads w (.opens i) ⟨w.state, Function.update w.readers i (some r)⟩
  | reads {w : Watched σ ι ρ} {i : ι} {r r' : ρ} (hi : w.readers i = some r) (h : Reads w.state r r') :
      WatchStep Step Opens Reads w (.reads i) ⟨w.state, Function.update w.readers i (some r')⟩

section Runs

variable [DecidableEq ι] {Step : σ → ℓ → σ → Prop} {Opens : σ → ρ → Prop} {Reads : σ → ρ → ρ → Prop}
  {w w' : Watched σ ι ρ} {τ : List (Transition (Watched σ ι ρ) (WatchMove ℓ ι))}

/-- **What every reader keeps.** -/
theorem WatchStep.invariant {I : σ → ρ → Prop} (howner : ∀ s l s' r, Step s l s' → I s r → I s' r)
    (hopens : ∀ s r, Opens s r → I s r) (hreads : ∀ s r r', Reads s r r' → I s r → I s r')
    (h : Path (WatchStep Step Opens Reads) w τ w') (hw : ∀ i r, w.readers i = some r → I w.state r) :
    ∀ i r, w'.readers i = some r → I w'.state r := by
  refine h.preserves (I := fun w => ∀ i r, w.readers i = some r → I w.state r) ?_ hw
  intro w l w' hstep hw i r hr
  cases hstep with
  | owner h => exact howner _ _ _ r h (hw i r hr)
  | @opens j r₀ hj h =>
    by_cases hij : i = j
    · subst hij
      obtain rfl : r₀ = r := by simpa using hr
      exact hopens _ _ h
    · exact hw i r (by simpa [Function.update_of_ne hij] using hr)
  | @reads j r₀ r₁ hj h =>
    by_cases hij : i = j
    · subst hij
      obtain rfl : r₁ = r := by simpa using hr
      exact hreads _ _ _ h (hw i r₀ hj)
    · exact hw i r (by simpa [Function.update_of_ne hij] using hr)

/-- The moves of the owner in a run. -/
def ownerMoves (τ : List (Transition (Watched σ ι ρ) (WatchMove ℓ ι))) : List (Transition σ ℓ) :=
  τ.filterMap fun x =>
    match x.label with
    | .owner l => some ⟨x.pre.state, l, x.post.state⟩
    | _ => none

/-- The owner runs as if nobody read. -/
theorem WatchStep.owner_run (h : Path (WatchStep Step Opens Reads) w τ w') : Path Step w.state (ownerMoves τ) w'.state := by
  induction h with
  | nil w => exact .nil _
  | cons hs _ ih =>
    cases hs with
    | owner h => exact .cons h ih
    | opens hi h => exact ih
    | reads hi h => exact ih

variable (Opens Reads) in
/-- The owner may run while nobody reads. -/
theorem WatchStep.of_owner {s s' : σ} {τ : List (Transition σ ℓ)} (readers : ι → Option ρ) (h : Path Step s τ s') :
    ∃ τ', Path (WatchStep Step Opens Reads) ⟨s, readers⟩ τ' ⟨s', readers⟩ ∧ ownerMoves τ' = τ := by
  induction h with
  | nil s => exact ⟨[], .nil _, rfl⟩
  | cons hs _ ih =>
    obtain ⟨τ', hpath, hmoves⟩ := ih
    exact ⟨_, .cons (.owner (w := ⟨_, readers⟩) hs) hpath, congrArg (_ :: ·) hmoves⟩

end Runs

/-- The element that follows what has been read extends it. -/
theorem prefix_drop_append {α : Type} {log read : List α} {n : Nat} {a : α} (h : read <+: log.drop n)
    (ha : log[n + read.length]? = some a) : read ++ [a] <+: log.drop n := by
  obtain ⟨rest, hrest⟩ := h
  rw [← List.getElem?_drop, ← hrest, List.getElem?_append_right (Nat.le_refl _), Nat.sub_self] at ha
  cases rest with
  | nil => cases ha
  | cons b rest =>
    cases ha
    exact ⟨rest, by rw [← hrest, List.append_assoc, List.singleton_append]⟩

end Atomic
