import Gleipnir.Lib.Prog

/-!
# Programs on a shared object

A program runs its calls on an object that others use at the same time. `Served F O b t b'` says that its calls `t` were
served while the object went from `b` to `b'`: `O` says what a call of its own does, given the calls before it, and `F` what
the others do in between.
-/

namespace Atomic

variable {S : Type} {Op : Type} {Res : Op → Type}

/-- The calls `t` of a program were served, starting with the object `b` and ending with `b'`. -/
inductive Served (F : S → S → Prop) (O : List (Event Op Res) → S → Event Op Res → S → Prop) (b : S) :
    List (Event Op Res) → S → Prop
  | nil : Served F O b [] b
  | foreign {b₁ b' : S} {t : List (Event Op Res)} (h : Served F O b t b₁) (hf : F b₁ b') : Served F O b t b'
  | own {b₁ b' : S} {t : List (Event Op Res)} {ev : Event Op Res} (h : Served F O b t b₁) (ho : O t b₁ ev b') :
      Served F O b (t ++ [ev]) b'

namespace Served

variable {F F' : S → S → Prop} {O O' : List (Event Op Res) → S → Event Op Res → S → Prop}

variable {b b' : S} {t : List (Event Op Res)}

theorem mono (hF : ∀ b b', F b b' → F' b b') (hO : ∀ t b ev b', O t b ev b' → O' t b ev b') (h : Served F O b t b') :
    Served F' O' b t b' := by
  induction h with
  | nil => exact .nil
  | foreign _ hf ih => exact .foreign ih (hF _ _ hf)
  | own _ ho ih => exact .own ih (hO _ _ _ _ ho)

/-- What every move keeps going, a served program has kept going. -/
theorem related {R : S → S → Prop} (hrefl : ∀ b, R b b) (htrans : ∀ {a b c}, R a b → R b c → R a c)
    (hF : ∀ b b', F b b' → R b b') (hO : ∀ t b ev b', O t b ev b' → R b b') (h : Served F O b t b') : R b b' := by
  induction h with
  | nil => exact hrefl b
  | foreign _ hf ih => exact htrans ih (hF _ _ hf)
  | own _ ho ih => exact htrans ih (hO _ _ _ _ ho)

/-- The moment of a call: the object before and after it, and what happened until the end. -/
theorem at_call {u v : List (Event Op Res)} {ev : Event Op Res} (h : Served F O b (u ++ ev :: v) b') :
    ∃ b₁ b₂, Served F O b u b₁ ∧ O u b₁ ev b₂ ∧ Served F (fun t => O (u ++ ev :: t)) b₂ v b' := by
  generalize ht : u ++ ev :: v = t at h
  induction h generalizing v with
  | nil => simp at ht
  | foreign _ hf ih =>
    obtain ⟨b₁, b₂, h₁, ho, h₂⟩ := ih ht
    exact ⟨b₁, b₂, h₁, ho, .foreign h₂ hf⟩
  | @own b₁ b' t ev' h ho ih =>
    rcases List.eq_nil_or_concat v with rfl | ⟨w, a, rfl⟩
    · obtain ⟨rfl, rfl⟩ := List.append_singleton_inj.1 ht
      exact ⟨b₁, b', h, ho, .nil⟩
    · rw [List.concat_eq_append, ← List.cons_append, ← List.append_assoc] at ht
      obtain ⟨rfl, rfl⟩ := List.append_singleton_inj.1 ht
      obtain ⟨b₂, b₃, h₁, ho', h₂⟩ := ih rfl
      rw [List.concat_eq_append]
      exact ⟨b₂, b₃, h₁, ho', .own h₂ ho⟩

/-- A program that has the object to itself is served. -/
theorem append_serve {α : Type} (answer : S → (o : Op) → Res o × S) (hO : ∀ t b o, O t b ⟨o, (answer b o).1⟩ (answer b o).2)
    (p : Prog Op Res α) {b₀ : S} (h : Served F O b₀ t b) :
    Served F O b₀ (t ++ (serve answer p b).2.1) (serve answer p b).2.2 := by
  induction p generalizing b t with
  | ret a => simpa [serve] using h
  | call o k ih => simpa [serve] using ih _ (h.own (hO t b o))

end Served

end Atomic
