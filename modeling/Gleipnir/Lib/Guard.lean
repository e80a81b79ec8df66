import Mathlib.Order.Basic

/-!
# Sequences of checks

A function that runs one check after the other and fails at the first that does not hold succeeds exactly when all of them
hold. The lemmas take such a sequence apart, one check at a time.
-/

namespace Guard

variable {ε : Type*} {α β : Type}

variable {err : ε} {f : α → Except ε β} {x : Except ε α}

@[simp] theorem throw_ne_ok {a : α} : (throw err : Except ε α) ≠ .ok a := nofun

@[simp] theorem pure_eq_ok {a b : α} : (pure a : Except ε α) = .ok b ↔ a = b := ⟨Except.ok.inj, congrArg _⟩

/-- Nothing runs after a failure. `simp` unfolds by it where a sequence is taken apart; it holds by definition, so that no
proof term shows it. -/
@[simp] theorem throw_bind : (throw err >>= f : Except ε β) = throw err := rfl

/-- Both parts of a sequence succeed. -/
@[simp] theorem bind_eq_ok {b : β} : (x >>= f) = .ok b ↔ ∃ a, x = .ok a ∧ f a = .ok b := by
  cases x with
  | error err => exact ⟨nofun, nofun⟩
  | ok a => exact ⟨fun h => ⟨a, rfl, h⟩, fun ⟨_, ha, h⟩ => Except.ok.inj ha ▸ h⟩

theorem map_eq_ok {f : α → β} {b : β} : x.map f = .ok b ↔ ∃ a, x = .ok a ∧ f a = b := by
  cases x with
  | error err => simp [Except.map]
  | ok a => simp [Except.map]

/-- Two sequences whose parts agree on what `p` and `q` show of their results agree. -/
theorem map_bind_congr {γ δ : Type*} {y : Except ε α} {g : α → Except ε β} {p : α → γ} {q : β → δ} (hxy : x.map p = y.map p)
    (hfg : ∀ a b, p a = p b → (f a).map q = (g b).map q) : (x >>= f).map q = (y >>= g).map q := by
  cases x with
  | error err =>
    cases y with
    | error err' =>
      obtain rfl := Except.error.inj hxy
      rfl
    | ok b => cases hxy
  | ok a =>
    cases y with
    | error err => cases hxy
    | ok b => exact hfg a b (Except.ok.inj hxy)

/-- A check that throws when it applies does not apply. -/
@[simp] theorem ite_throw_eq_ok {p : Prop} [Decidable p] {a : α} : (if p then throw err else x) = .ok a ↔ ¬ p ∧ x = .ok a := by
  by_cases hp : p
  · simp only [hp, if_true, throw_ne_ok, not_true_eq_false, false_and]
  · simp only [hp, if_false, not_false_eq_true, true_and]

end Guard
