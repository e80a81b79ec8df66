import Gleipnir.Lib.Prog

/-!
# What code can do at most

`Within R E P m` says that `m` moves the local state along `R`, makes only calls that `E` allows, and panics only if `P`;
`Reads E P m` is the case where it leaves the state alone. Both are closed under sequencing and polling, so they hold of a
piece of code by its structure. `Yields P m` speaks of what `m` returns. `Returns m s a s'` says that `m`
started in `s` makes no call at all. `onSnd m` is `m` on one part of a larger state.
-/

namespace Atomic.Body

variable {Op : Type} {Res : Op → Type} {α β σ : Type}

/-- `m` moves the state along `R`, each of its events satisfies `E`, and it panics only if `P`. -/
def Within (R : σ → σ → Prop) (E : Event Op Res → Prop) (P : Prop) (m : Body σ Op Res α) : Prop :=
  ∀ s t x s', Runs m s t x s' → R s s' ∧ (∀ ev ∈ t, E ev) ∧ (x = .panic → P)

/-- The state is left alone. -/
def Unmoved (s s' : σ) : Prop := s' = s

instance : Std.Refl (Unmoved (σ := σ)) := ⟨fun _ => rfl⟩

instance : IsTrans σ Unmoved := ⟨fun _ _ _ h h' => Eq.trans h' h⟩

/-- `m` keeps the state, each of its events satisfies `E`, and it panics only if `P`. -/
abbrev Reads (E : Event Op Res → Prop) (P : Prop) (m : Body σ Op Res α) : Prop := Within Unmoved E P m

variable {R : σ → σ → Prop} {E : Event Op Res → Prop} {P : Prop}

variable {m : Body σ Op Res α}

/-- A coarser account of the state. -/
theorem Within.mono {R' : σ → σ → Prop} (h : Within R E P m) (hR : ∀ s s', R s s' → R' s s') : Within R' E P m :=
  fun s t x s' hrun => (h s t x s' hrun).imp_left (hR s s')

section Within

variable [Std.Refl R]

theorem within_pure (a : α) : Within R E P (Pure.pure a : Body σ Op Res α) := by
  intro s t x s' h
  obtain ⟨rfl, rfl, rfl⟩ := runs_pure.1 h
  exact ⟨refl s', by simp, by simp⟩

theorem within_panic (hP : P) : Within R E P (panic : Body σ Op Res α) := by
  intro s t x s' h
  obtain ⟨rfl, -, rfl⟩ := runs_panic.1 h
  exact ⟨refl s', by simp, fun _ => hP⟩

theorem within_get : Within R E P (get : Body σ Op Res σ) := by
  intro s t x s' h
  obtain ⟨rfl, rfl, rfl⟩ := runs_get.1 h
  exact ⟨refl s', by simp, by simp⟩

theorem within_perform {o : Op} (ho : ∀ r, E ⟨o, r⟩) : Within R E P (perform o : Body σ Op Res (Res o)) := by
  intro s t x s' h
  obtain ⟨r, rfl, rfl, rfl⟩ := runs_perform.1 h
  exact ⟨refl s', by simpa using ho r, by simp⟩

omit [Std.Refl R] in
theorem within_modify {f : σ → σ} (hf : ∀ s, R s (f s)) : Within R E P (modify f : Body σ Op Res Unit) := by
  intro s t x s' h
  obtain ⟨rfl, rfl, rfl⟩ := runs_modify.1 h
  exact ⟨hf s, by simp, by simp⟩

omit [Std.Refl R] in
theorem within_bind [IsTrans σ R] {m : Body σ Op Res α} {f : α → Body σ Op Res β} (hm : Within R E P m)
    (hf : ∀ a, Within R E P (f a)) : Within R E P (m >>= f) := by
  intro s t x s' h
  rcases runs_bind.1 h with ⟨t₁, a, s₁, t₂, rfl, h₁, h₂⟩ | ⟨rfl, h₁⟩
  · obtain ⟨r₁, e₁, -⟩ := hm _ _ _ _ h₁
    obtain ⟨r₂, e₂, hpanic⟩ := hf a _ _ _ _ h₂
    refine ⟨trans_of R r₁ r₂, fun ev hev => ?_, hpanic⟩
    rcases List.mem_append.1 hev with hev | hev
    · exact e₁ ev hev
    · exact e₂ ev hev
  · obtain ⟨r, e, hpanic⟩ := hm _ _ _ _ h₁
    exact ⟨r, e, fun _ => hpanic rfl⟩

omit [Std.Refl R] in
theorem within_ite {c : Prop} [Decidable c] {m n : Body σ Op Res α} (hm : Within R E P m) (hn : Within R E P n) :
    Within R E P (if c then m else n) := by
  split
  · exact hm
  · exact hn

end Within

/-! ## Results -/

/-- Whatever `m` returns satisfies `P`. -/
def Yields (P : α → Prop) (m : Body σ Op Res α) : Prop := ∀ s t a s', Runs m s t (.done a) s' → P a

section Yields

variable {P : α → Prop} {Q : β → Prop}

theorem yields_pure {a : α} (h : P a) : Yields P (Pure.pure a : Body σ Op Res α) := by
  intro s t a' s' hrun
  obtain ⟨-, ha, -⟩ := runs_pure.1 hrun
  cases ha
  exact h

theorem yields_panic : Yields P (panic : Body σ Op Res α) := by
  intro s t a s' hrun
  obtain ⟨-, ha, -⟩ := runs_panic.1 hrun
  cases ha

/-- What comes last decides. -/
theorem yields_bind {m : Body σ Op Res α} {f : α → Body σ Op Res β} (hf : ∀ a, Yields Q (f a)) : Yields Q (m >>= f) := by
  intro s t b s' hrun
  obtain ⟨t₁, a, s₁, t₂, -, -, h₂⟩ := runs_bind_done.1 hrun
  exact hf a _ _ _ _ h₂

theorem yields_ite {c : Prop} [Decidable c] {m n : Body σ Op Res α} (hm : Yields P m) (hn : Yields P n) :
    Yields P (if c then m else n) := by
  split
  · exact hm
  · exact hn

end Yields

/-! ## Polling -/

/-- Run `m` at most `n` times, until its result passes `ok`. -/
def poll (m : Body σ Op Res α) (ok : α → Bool) : Nat → Body σ Op Res (Option α)
  | 0 => Pure.pure none
  | n + 1 => do
    let a ← m
    if ok a then Pure.pure (some a) else poll m ok n

theorem within_poll [Std.Refl R] [IsTrans σ R] (hm : Within R E P m) (ok : α → Bool) : ∀ n, Within R E P (poll m ok n)
  | 0 => within_pure none
  | n + 1 => within_bind hm fun a => within_ite (within_pure (some a)) (within_poll hm ok n)

/-- A poll runs `m` until its result passes: the runs before have the events of a miss, and the last one makes the result. -/
theorem runs_poll_done {ok : α → Bool} (hmiss : ∀ s t a s', Runs m s t (.done a) s' → ok a = false → ∀ ev ∈ t, E ev)
    {r : Option α} :
    ∀ {n : Nat} {s s' : σ} {t : List (Event Op Res)}, Runs (poll m ok n) s t (.done r) s' →
      ∃ t₁ t₂, t = t₁ ++ t₂ ∧ (∀ ev ∈ t₁, E ev) ∧
        ((r = none ∧ t₂ = []) ∨ ∃ a s₁, r = some a ∧ ok a = true ∧ Runs m s₁ t₂ (.done a) s')
  | 0, s, s', t, h => by
    obtain ⟨rfl, hr, -⟩ := runs_pure.1 h
    exact ⟨[], [], rfl, by simp, .inl ⟨Exit.done.inj hr, rfl⟩⟩
  | n + 1, s, s', t, h => by
    obtain ⟨t₁, b, s₁, t₂, rfl, h₁, h₂⟩ := runs_bind_done.1 h
    split at h₂
    · next hok =>
      obtain ⟨rfl, hb, rfl⟩ := runs_pure.1 h₂
      exact ⟨[], t₁, by simp, by simp, .inr ⟨b, s, Exit.done.inj hb, hok, h₁⟩⟩
    · next hok =>
      obtain ⟨u₁, u₂, rfl, hu, hres⟩ := runs_poll_done hmiss h₂
      refine ⟨t₁ ++ u₁, u₂, by simp, fun ev hev => ?_, hres⟩
      rcases List.mem_append.1 hev with hev | hev
      · exact hmiss _ _ _ _ h₁ (by simpa using hok) ev hev
      · exact hu ev hev

/-! ## Code that makes no call -/

/-- Started in `s`, the code returns `a` in `s'` without a call. -/
def Returns (m : Body σ Op Res α) (s : σ) (a : α) (s' : σ) : Prop := m s = .ret (.done a, s')

section Returns

variable {m : Body σ Op Res α} {f : α → Body σ Op Res β} {s s₁ s' : σ} {a : α} {b : β}

theorem returns_pure (a : α) (s : σ) : Returns (Pure.pure a : Body σ Op Res α) s a s := rfl

theorem returns_get_bind {g : σ → Body σ Op Res β} : Returns (get >>= g) s b s' ↔ Returns (g s) s b s' := Iff.rfl

theorem Returns.bind_eq (h : Returns m s a s₁) : (m >>= f) s = f a s₁ := by
  change (m s).bind _ = _
  rw [h]
  rfl

theorem Returns.bind (h : Returns m s a s₁) (h' : Returns (f a) s₁ b s') : Returns (m >>= f) s b s' := by
  rw [Returns, h.bind_eq]
  exact h'

theorem Returns.runs_bind (h : Returns m s a s₁) {t : List (Event Op Res)} {x : Exit β} :
    Runs (m >>= f) s t x s' ↔ Runs (f a) s₁ t x s' := by
  rw [Runs, h.bind_eq]
  rfl

end Returns

/-! ## Parts of a state -/

section Parts

variable {ρ : Type}

/-- The code on the second part of a state. -/
def onSnd (m : Body σ Op Res α) : Body (ρ × σ) Op Res α := fun s => (m s.2).map fun x => (x.1, (s.1, x.2))

theorem runs_onSnd {m : Body σ Op Res α} {s s' : ρ × σ} {t : List (Event Op Res)} {x : Exit α} :
    Runs (onSnd m) s t x s' ↔ s'.1 = s.1 ∧ Runs m s.2 t x s'.2 := by
  unfold Runs onSnd
  rw [run_map]
  constructor
  · rintro ⟨⟨y, s₂⟩, heq, hrun⟩
    cases heq
    exact ⟨rfl, hrun⟩
  · rintro ⟨hfst, hrun⟩
    exact ⟨(x, s'.2), by rw [← hfst], hrun⟩

end Parts

end Atomic.Body
