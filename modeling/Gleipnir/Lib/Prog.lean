import Mathlib.Data.List.Basic

/-!
# Programs over a shared object

A program is a tree of calls to the atomic operations of a shared object: `ret a` has finished, `call o k` calls `o` and
goes on with the response. Nothing is said about the object. `Run p t a` says that `p` finishes with `a` when the calls
it makes and the responses it gets are the trace `t`, so a statement about all traces is one about every object.

* `run_bind`: a run of a sequence is a run of the first part followed by one of the second.
* `exists_run`: every program finishes, whatever it is told.
* `Body`: programs with a local state that may panic; the state at the panic is kept.
* `serve`: a run against a given object, which computes.
-/

namespace Atomic

/-- Programs over the operations `Op`, where `o` is answered by a value of `Res o`. -/
inductive Prog (Op : Type) (Res : Op → Type) (α : Type) : Type
  | ret (a : α) : Prog Op Res α
  | call (o : Op) (k : Res o → Prog Op Res α) : Prog Op Res α

/-- A call with its response. -/
structure Event (Op : Type) (Res : Op → Type) where
  op : Op
  res : Res op

variable {Op : Type} {Res : Op → Type} {α β γ σ : Type}

/-! ## Sequencing -/

/-- Go on with `f` where `p` finishes. -/
def Prog.bind : Prog Op Res α → (α → Prog Op Res β) → Prog Op Res β
  | .ret a, f => f a
  | .call o k, f => .call o fun r => (k r).bind f

/-- Change the result. -/
def Prog.map (f : α → β) (p : Prog Op Res α) : Prog Op Res β := p.bind fun a => .ret (f a)

/-! ## Runs -/

/-- `p` finishes with `a` along the trace `t`. -/
inductive Run : Prog Op Res α → List (Event Op Res) → α → Prop
  | ret (a : α) : Run (.ret a) [] a
  | call {o : Op} {k : Res o → Prog Op Res α} {t : List (Event Op Res)} {a : α} (r : Res o) (h : Run (k r) t a) :
      Run (.call o k) (⟨o, r⟩ :: t) a

variable {a b : α} {t : List (Event Op Res)} {p : Prog Op Res α}

theorem run_ret : Run (.ret a) t b ↔ t = [] ∧ b = a := by
  constructor
  · intro h; cases h; exact ⟨rfl, rfl⟩
  · rintro ⟨rfl, rfl⟩; exact .ret _

theorem run_call {o : Op} {k : Res o → Prog Op Res α} : Run (.call o k) t a ↔ ∃ r t', t = ⟨o, r⟩ :: t' ∧ Run (k r) t' a := by
  constructor
  · intro h
    cases h with
    | call r h => exact ⟨r, _, rfl, h⟩
  · rintro ⟨r, t', rfl, h⟩; exact .call r h

/-- A run of a sequence splits where the first part finishes. -/
theorem run_bind {f : α → Prog Op Res β} {b : β} :
    Run (p.bind f) t b ↔ ∃ t₁ a t₂, t = t₁ ++ t₂ ∧ Run p t₁ a ∧ Run (f a) t₂ b := by
  constructor
  · intro h
    induction p generalizing t with
    | ret a => exact ⟨[], a, t, rfl, .ret a, h⟩
    | call o k ih =>
      obtain ⟨r, t', rfl, h'⟩ := run_call.1 h
      obtain ⟨t₁, a, t₂, rfl, h₁, h₂⟩ := ih r h'
      exact ⟨⟨o, r⟩ :: t₁, a, t₂, rfl, .call r h₁, h₂⟩
  · rintro ⟨t₁, a, t₂, rfl, h₁, h₂⟩
    induction h₁ with
    | ret a => exact h₂
    | call r _ ih => exact .call r (ih h₂)

theorem run_map {f : α → β} {b : β} : Run (p.map f) t b ↔ ∃ a, b = f a ∧ Run p t a := by
  unfold Prog.map
  rw [run_bind]
  constructor
  · rintro ⟨t₁, a, t₂, rfl, h₁, h₂⟩
    obtain ⟨rfl, rfl⟩ := run_ret.1 h₂
    exact ⟨a, rfl, by simpa using h₁⟩
  · rintro ⟨a, rfl, h⟩
    exact ⟨t, a, [], by simp, h, .ret _⟩

/-- Every program finishes: a prefix of a run can always be completed. -/
theorem exists_run [∀ o, Nonempty (Res o)] (p : Prog Op Res α) : ∃ t a, Run p t a := by
  induction p with
  | ret a => exact ⟨[], a, .ret a⟩
  | call o k ih =>
    obtain ⟨r⟩ := ‹∀ o, Nonempty (Res o)› o
    obtain ⟨t, a, h⟩ := ih r
    exact ⟨_, a, .call r h⟩

/-! ## Bodies: local state and panics -/

/-- How a body of code ends. -/
inductive Exit (α : Type) : Type
  | done (a : α)
  | panic
  deriving DecidableEq, Repr

theorem Exit.done_ne_panic {α : Type} (a : α) : Exit.done a ≠ .panic := by
  intro h
  cases h

/-- Code with a local state: it finishes with a value or panics, and leaves a state either way. -/
def Body (σ : Type) (Op : Type) (Res : Op → Type) (α : Type) : Type := σ → Prog Op Res (Exit α × σ)

namespace Body

def pure (a : α) : Body σ Op Res α := fun s => .ret (.done a, s)

/-- Stop with a panic; what follows is not run. -/
def panic : Body σ Op Res α := fun s => .ret (.panic, s)

def bind (m : Body σ Op Res α) (f : α → Body σ Op Res β) : Body σ Op Res β := fun s =>
  (m s).bind fun x =>
    match x with
    | (.done a, s') => f a s'
    | (.panic, s') => .ret (.panic, s')

instance : Monad (Body σ Op Res) where
  pure := pure
  bind := bind

/-- Read the local state. -/
def get : Body σ Op Res σ := fun s => .ret (.done s, s)

/-- Change the local state. -/
def modify (f : σ → σ) : Body σ Op Res Unit := fun s => .ret (.done (), f s)

/-- Call an operation of the shared object. -/
def perform (o : Op) : Body σ Op Res (Res o) := fun s => .call o fun r => .ret (.done r, s)

/-- `m` started in `s` ends with `x` in `s'` along `t`. -/
def Runs (m : Body σ Op Res α) (s : σ) (t : List (Event Op Res)) (x : Exit α) (s' : σ) : Prop := Run (m s) t (x, s')

section Runs

variable {s s' : σ} {t : List (Event Op Res)}

@[simp] theorem runs_pure {a : α} {x : Exit α} :
    Runs (Pure.pure a : Body σ Op Res α) s t x s' ↔ t = [] ∧ x = .done a ∧ s' = s := by
  show Run (.ret (.done a, s)) t (x, s') ↔ _
  rw [run_ret, Prod.mk.injEq]

@[simp] theorem runs_panic {x : Exit α} :
    Runs (panic : Body σ Op Res α) s t x s' ↔ t = [] ∧ x = .panic ∧ s' = s := by
  show Run (.ret (.panic, s)) t (x, s') ↔ _
  rw [run_ret, Prod.mk.injEq]

@[simp] theorem runs_get {x : Exit σ} : Runs (get : Body σ Op Res σ) s t x s' ↔ t = [] ∧ x = .done s ∧ s' = s := by
  show Run (.ret (.done s, s)) t (x, s') ↔ _
  rw [run_ret, Prod.mk.injEq]

@[simp] theorem runs_modify {f : σ → σ} {x : Exit Unit} :
    Runs (modify f : Body σ Op Res Unit) s t x s' ↔ t = [] ∧ x = .done () ∧ s' = f s := by
  show Run (.ret (.done (), f s)) t (x, s') ↔ _
  rw [run_ret, Prod.mk.injEq]

@[simp] theorem runs_perform {o : Op} {x : Exit (Res o)} :
    Runs (perform o : Body σ Op Res (Res o)) s t x s' ↔ ∃ r, t = [⟨o, r⟩] ∧ x = .done r ∧ s' = s := by
  show Run (.call o fun r => .ret (.done r, s)) t (x, s') ↔ _
  rw [run_call]
  constructor
  · rintro ⟨r, t', rfl, h⟩
    obtain ⟨rfl, h⟩ := run_ret.1 h
    cases h
    exact ⟨r, rfl, rfl, rfl⟩
  · rintro ⟨r, rfl, rfl, rfl⟩
    exact ⟨r, [], rfl, .ret _⟩

variable {x : Exit β} {m : Body σ Op Res α} {f : α → Body σ Op Res β}

/-- A sequence ends where its second part ends, or where the first one panics. -/
theorem runs_bind :
    Runs (m >>= f) s t x s' ↔
      (∃ t₁ a s₁ t₂, t = t₁ ++ t₂ ∧ Runs m s t₁ (.done a) s₁ ∧ Runs (f a) s₁ t₂ x s') ∨
      (x = .panic ∧ Runs m s t .panic s') := by
  show Run (bind m f s) t (x, s') ↔ _
  unfold bind Runs
  rw [run_bind]
  constructor
  · rintro ⟨t₁, ⟨y, s₁⟩, t₂, rfl, h₁, h₂⟩
    cases y with
    | done a => exact .inl ⟨t₁, a, s₁, t₂, rfl, h₁, h₂⟩
    | panic =>
      obtain ⟨rfl, h⟩ := run_ret.1 h₂
      cases h
      exact .inr ⟨rfl, by simpa using h₁⟩
  · rintro (⟨t₁, a, s₁, t₂, rfl, h₁, h₂⟩ | ⟨rfl, h⟩)
    · exact ⟨t₁, (.done a, s₁), t₂, rfl, h₁, h₂⟩
    · exact ⟨t, (.panic, s'), [], by simp, h, .ret _⟩

/-- A sequence that finishes does both parts. -/
theorem runs_bind_done {b : β} :
    Runs (m >>= f) s t (.done b) s' ↔
      ∃ t₁ a s₁ t₂, t = t₁ ++ t₂ ∧ Runs m s t₁ (.done a) s₁ ∧ Runs (f a) s₁ t₂ (.done b) s' := by
  rw [runs_bind]
  simp

theorem runs_get_bind {f : σ → Body σ Op Res β} : Runs (get >>= f) s t x s' ↔ Runs (f s) s t x s' := by
  rw [runs_bind]
  simp

theorem runs_modify_bind {g : σ → σ} {f : Unit → Body σ Op Res β} :
    Runs (modify g >>= f) s t x s' ↔ Runs (f ()) (g s) t x s' := by
  rw [runs_bind]
  constructor
  · rintro (⟨t₁, a, s₁, t₂, rfl, h₁, h₂⟩ | ⟨_, h⟩)
    · obtain ⟨rfl, _, rfl⟩ := runs_modify.1 h₁
      exact h₂
    · cases (runs_modify.1 h).2.1
  · intro h
    exact .inl ⟨[], (), g s, t, rfl, runs_modify.2 ⟨rfl, rfl, rfl⟩, h⟩

theorem runs_perform_bind {o : Op} {f : Res o → Body σ Op Res β} :
    Runs (perform o >>= f) s t x s' ↔ ∃ r t', t = ⟨o, r⟩ :: t' ∧ Runs (f r) s t' x s' := by
  rw [runs_bind]
  constructor
  · rintro (⟨t₁, a, s₁, t₂, rfl, h₁, h₂⟩ | ⟨_, h⟩)
    · obtain ⟨r, rfl, hr, rfl⟩ := runs_perform.1 h₁
      cases hr
      exact ⟨a, t₂, rfl, h₂⟩
    · obtain ⟨_, _, h, _⟩ := runs_perform.1 h
      cases h
  · rintro ⟨r, t', rfl, h⟩
    exact .inl ⟨[⟨o, r⟩], r, s, t', rfl, runs_perform.2 ⟨r, rfl, rfl, rfl⟩, h⟩

end Runs

end Body

/-! ## Runs against a given object -/

/-- Run `p` against an object with states `S`: the result, the trace and the object's last state. -/
def serve {S : Type} (answer : S → (o : Op) → Res o × S) : Prog Op Res α → S → α × List (Event Op Res) × S
  | .ret a, b => (a, [], b)
  | .call o k, b =>
    let x := serve answer (k (answer b o).1) (answer b o).2
    (x.1, ⟨o, (answer b o).1⟩ :: x.2.1, x.2.2)

theorem run_serve {S : Type} (answer : S → (o : Op) → Res o × S) (p : Prog Op Res α) (b : S) :
    Run p (serve answer p b).2.1 (serve answer p b).1 := by
  induction p generalizing b with
  | ret a => exact .ret a
  | call o k ih => exact .call _ (ih _ _)

end Atomic
