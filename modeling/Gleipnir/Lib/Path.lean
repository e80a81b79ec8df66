import Mathlib.Data.List.Induction

/-!
# Paths of a labelled transition system

`Path Step s τ s'` is a run from `s` to `s'` with the transitions `τ`. An invariant needs one look at a step
(`Path.invariant`); the step may be assumed to meet a condition that every transition of the run meets.
-/

namespace Atomic

variable {σ ℓ : Type}

/-- One transition of a run. -/
structure Transition (σ ℓ : Type) where
  pre : σ
  label : ℓ
  post : σ

/-- A run, as the list of its transitions. -/
inductive Path (Step : σ → ℓ → σ → Prop) : σ → List (Transition σ ℓ) → σ → Prop
  | nil (s : σ) : Path Step s [] s
  | cons {s s₁ s' : σ} {l : ℓ} {τ : List (Transition σ ℓ)} (h : Step s l s₁) (hp : Path Step s₁ τ s') :
      Path Step s (⟨s, l, s₁⟩ :: τ) s'

namespace Path

variable {Step : σ → ℓ → σ → Prop}

variable {s s' : σ} {τ : List (Transition σ ℓ)} {I : σ → Prop} {x : Transition σ ℓ}

theorem append {s₁ : σ} {τ' : List (Transition σ ℓ)} (h : Path Step s τ s₁) (h' : Path Step s₁ τ' s') :
    Path Step s (τ ++ τ') s' := by
  induction h with
  | nil s => exact h'
  | cons hs _ ih => exact .cons hs (ih h')

/-- What one step preserves, under a condition on the step, holds at the end of a run whose steps meet the condition. -/
theorem invariant {C : Transition σ ℓ → Prop} (hstep : ∀ s l s', C ⟨s, l, s'⟩ → Step s l s' → I s → I s') (h : Path Step s τ s')
    (hC : ∀ x ∈ τ, C x) (hI : I s) : I s' := by
  induction h with
  | nil s => exact hI
  | cons hs _ ih =>
    refine ih (fun x hx => hC x (List.mem_cons_of_mem _ hx)) ?_
    exact hstep _ _ _ (hC _ (List.mem_cons_self ..)) hs hI

/-- What every step preserves holds at the end of a run. -/
theorem preserves (h : Path Step s τ s') (hstep : ∀ s l s', Step s l s' → I s → I s') (hI : I s) : I s' :=
  invariant (C := fun _ => True) (fun s l s' _ => hstep s l s') h (fun _ _ => trivial) hI

/-- A value kept beside a run: what one step preserves of the state and the value. -/
theorem ghost {γ : Type} {f : γ → Transition σ ℓ → γ} {I : σ → γ → Prop}
    (hstep : ∀ s l s' g, Step s l s' → I s g → I s' (f g ⟨s, l, s'⟩)) (h : Path Step s τ s') {g : γ} (hI : I s g) :
    I s' (τ.foldl f g) := by
  induction h generalizing g with
  | nil s => exact hI
  | cons hs _ ih => exact ih (hstep _ _ _ g hs hI)

/-- The run up to a transition, and the transition. -/
theorem split (h : Path Step s τ s') (hx : x ∈ τ) :
    ∃ τ₁ τ₂, τ = τ₁ ++ x :: τ₂ ∧ Path Step s τ₁ x.pre ∧ Step x.pre x.label x.post := by
  induction h with
  | nil s => cases hx
  | cons hs _ ih =>
    rcases List.mem_cons.1 hx with rfl | hx
    · exact ⟨[], _, rfl, .nil _, hs⟩
    · obtain ⟨τ₁, τ₂, rfl, h₁, h₂⟩ := ih hx
      exact ⟨_ :: τ₁, τ₂, rfl, .cons hs h₁, h₂⟩

/-- The run from a transition on. -/
theorem rest (h : Path Step s τ s') (hx : x ∈ τ) : ∃ τ', Path Step x.post τ' s' := by
  induction h with
  | nil s => cases hx
  | cons _ hp ih =>
    rcases List.mem_cons.1 hx with rfl | hx
    · exact ⟨_, hp⟩
    · exact ih hx

section Growth

variable {α : Type} {f : σ → List α} (hgrow : ∀ s l s', Step s l s' → f s' = f s ∨ ∃ a, f s' = f s ++ [a])
include hgrow

/-- A list that no step shortens is extended by a run. -/
theorem extends_list {s s' : σ} {τ : List (Transition σ ℓ)} (h : Path Step s τ s') : f s <+: f s' := by
  induction h with
  | nil s => exact List.prefix_rfl
  | cons hs _ ih =>
    rcases hgrow _ _ _ hs with heq | ⟨a, heq⟩
    · rwa [heq] at ih
    · rw [heq] at ih
      exact (List.prefix_append _ _).trans ih

/-- What a run has added to a list was added by one of its steps, at the position it has. -/
theorem added_by {s s' : σ} {τ : List (Transition σ ℓ)} (h : Path Step s τ s') {i : Nat} {a : α}
    (hi : (f s).length ≤ i) (ha : (f s')[i]? = some a) :
    ∃ x ∈ τ, Step x.pre x.label x.post ∧ f x.pre = (f s').take i ∧ f x.post = f x.pre ++ [a] := by
  induction h with
  | nil s =>
    have hlt := (List.getElem?_eq_some_iff.1 ha).1
    omega
  | @cons s s₁ s' l τ hs hp ih =>
    by_cases hi₁ : (f s₁).length ≤ i
    · obtain ⟨x, hx, hrest⟩ := ih hi₁ ha
      exact ⟨x, List.mem_cons_of_mem _ hx, hrest⟩
    · obtain ⟨b, hb⟩ := (hgrow _ _ _ hs).resolve_left fun heq => hi₁ (heq ▸ hi)
      have hlen : (f s₁).length = (f s).length + 1 := by rw [hb, List.length_append, List.length_singleton]
      obtain rfl : i = (f s).length := by omega
      obtain ⟨rest, hrest⟩ := extends_list hgrow hp
      have hs' : f s' = f s ++ b :: rest := by rw [← hrest, hb, List.append_assoc, List.singleton_append]
      obtain rfl : b = a := by simpa [hs'] using ha
      exact ⟨_, List.mem_cons_self .., hs, by simp [hs'], hb⟩

end Growth

end Path

/-- Along the states of a fold a preorder holds between any two exactly if every single step keeps it. -/
theorem foldl_related_iff {ι : Type} {R : σ → σ → Prop} (refl : ∀ s, R s s) (trans : ∀ {a b c}, R a b → R b c → R a c)
    (step : σ → ι → σ) (s : σ) (is : List ι) :
    (∀ u v w, is = u ++ (v ++ w) → R (u.foldl step s) ((u ++ v).foldl step s)) ↔
      ∀ u i w, is = u ++ i :: w → R (u.foldl step s) (step (u.foldl step s) i) := by
  constructor
  · intro h u i w his
    have hone := h u [i] w his
    rwa [List.foldl_append] at hone
  · intro h u v
    induction v using List.reverseRecOn with
    | nil => exact fun w _ => by rw [List.append_nil]; exact refl _
    | append_singleton v i ih =>
      intro w his
      have hlast := h (u ++ v) i w (by rw [his]; simp)
      rw [← List.append_assoc, List.foldl_append]
      exact trans (ih (i :: w) (by rw [his]; simp)) hlast

end Atomic
