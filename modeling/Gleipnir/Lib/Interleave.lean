import Gleipnir.Lib.Path
import Gleipnir.Lib.Served

/-!
# Programs that take turns on a shared object

Any number of threads, each with a state of its own, run programs over one shared object. A thread starts a program from its
state, makes the calls of the program one at a time, and takes the result as its next state; the calls of the threads
interleave in any way.

* `Upheld`: what has to be shown of a single program, told only that the others keep the invariant of the object.
* `consistent_run`: an upheld invariant holds in every state of a run.
* `path_serve`: a program that is not interrupted is a run.
-/

namespace Atomic

variable {ι σ ℓ S : Type} {Op : Type} {Res : Op → Type}

/-- A thread waits, or it is in the middle of the program `c`: it started in `s`, has made the calls `past`, and goes on
with `rest`. -/
inductive Thread (σ ℓ Op : Type) (Res : Op → Type) : Type
  | idle (s : σ)
  | busy (s : σ) (c : ℓ) (past : List (Event Op Res)) (rest : Prog Op Res σ)

/-- The state that a thread had when it was last idle. -/
def Thread.state : Thread σ ℓ Op Res → σ
  | .idle s => s
  | .busy s _ _ _ => s

/-- The state of a thread as far as it is decided: a program that has made all its calls has its result. -/
def Thread.current : Thread σ ℓ Op Res → σ
  | .idle s => s
  | .busy _ _ _ (.ret s') => s'
  | .busy s _ _ (.call _ _) => s

structure World (ι σ ℓ S Op : Type) (Res : Op → Type) where
  threads : ι → Thread σ ℓ Op Res
  shared : S

/-- The world in which every thread is idle. -/
def World.idle (states : ι → σ) (b : S) : World ι σ ℓ S Op Res := ⟨fun i => .idle (states i), b⟩

theorem World.idle_update [DecidableEq ι] (states : ι → σ) (i : ι) (s : σ) (b b' : S) :
    (World.idle (Function.update states i s) b' : World ι σ ℓ S Op Res) =
      ⟨Function.update (World.idle states b : World ι σ ℓ S Op Res).threads i (.idle s), b'⟩ := by
  unfold World.idle
  congr 1
  funext j
  by_cases hj : j = i
  · subst hj
    simp only [Function.update_self]
  · simp only [Function.update_of_ne hj]

inductive Move (ι ℓ Op : Type) (Res : Op → Type) : Type
  | start (i : ι) (c : ℓ)
  | call (i : ι) (ev : Event Op Res)
  | finish (i : ι)

/-- The steps of a world in which `c` started in `s` is the program `prog c s`, and the object serves as in `Serves`. -/
inductive WorldStep [DecidableEq ι] (prog : ℓ → σ → Prog Op Res σ) (Serves : S → (o : Op) → Res o → S → Prop) :
    World ι σ ℓ S Op Res → Move ι ℓ Op Res → World ι σ ℓ S Op Res → Prop
  | start {w : World ι σ ℓ S Op Res} {i : ι} {s : σ} (c : ℓ) (h : w.threads i = .idle s) :
      WorldStep prog Serves w (.start i c) ⟨Function.update w.threads i (.busy s c [] (prog c s)), w.shared⟩
  | call {w : World ι σ ℓ S Op Res} {i : ι} {s : σ} {c : ℓ} {past : List (Event Op Res)} {o : Op}
      {k : Res o → Prog Op Res σ} {r : Res o} {b : S} (h : w.threads i = .busy s c past (.call o k))
      (hs : Serves w.shared o r b) :
      WorldStep prog Serves w (.call i ⟨o, r⟩)
        ⟨Function.update w.threads i (.busy s c (past ++ [⟨o, r⟩]) (k r)), b⟩
  | finish {w : World ι σ ℓ S Op Res} {i : ι} {s s' : σ} {c : ℓ} {past : List (Event Op Res)}
      (h : w.threads i = .busy s c past (.ret s')) :
      WorldStep prog Serves w (.finish i) ⟨Function.update w.threads i (.idle s'), w.shared⟩

/-! ## Invariants -/

section Invariant

variable (prog : ℓ → σ → Prog Op Res σ) (Serves : S → (o : Op) → Res o → S → Prop)
variable (J : S → Prop) (I : σ → S → Prop) (C : σ → ℓ → List (Event Op Res) → S → Event Op Res → Prop)

/-- What the others do between two calls of a thread. -/
def Rely (b b' : S) : Prop := J b ∧ J b' ∧ ∃ o r, Serves b o r b'

/-- What a call of a thread does that runs `c` from `s`; it meets the condition `C`. -/
def Own (s : σ) (c : ℓ) (past : List (Event Op Res)) (b : S) (ev : Event Op Res) (b' : S) : Prop :=
  J b ∧ J b' ∧ Serves b ev.op ev.res b' ∧ C s c past b ev

/-- The program `c` started in `s` has made its calls `past` since the object was `b₀`. -/
abbrev Since (s : σ) (c : ℓ) (b₀ : S) (past : List (Event Op Res)) (b : S) : Prop :=
  Served (Rely Serves J) (Own Serves J C s c) b₀ past b

/-- `J` is an invariant of the object and `I` one between the state of an idle thread and the object, as far as a single
program is concerned and provided that its calls meet `C`. -/
structure Upheld : Prop where
  /-- The others do not break `I`. -/
  stable : ∀ {s b o r b'}, I s b → J b → J b' → Serves b o r b' → I s b'
  /-- A call that a program can make keeps `J`. -/
  serve : ∀ {s c b₀ past b ev b' v s'}, I s b₀ → Since Serves J C s c b₀ past b → J b →
    Run (prog c s) (past ++ ev :: v) s' → C s c past b ev → Serves b ev.op ev.res b' → J b'
  /-- A program that has finished leaves `I`. -/
  finish : ∀ {s c b₀ past b s'}, I s b₀ → J b₀ → Since Serves J C s c b₀ past b → J b →
    Run (prog c s) past s' → I s' b

/-- A thread and the object fit. -/
def Thread.Fits (b : S) : Thread σ ℓ Op Res → Prop
  | .idle s => I s b
  | .busy s c past rest => I s b ∧ (∃ b₀, I s b₀ ∧ J b₀ ∧ Since Serves J C s c b₀ past b) ∧
      ∀ t s', Run rest t s' → Run (prog c s) (past ++ t) s'

structure World.Consistent (w : World ι σ ℓ S Op Res) : Prop where
  shared : J w.shared
  threads : ∀ i, (w.threads i).Fits prog Serves J I C w.shared

/-- The call of a transition meets the condition. -/
def CallMeets (x : Transition (World ι σ ℓ S Op Res) (Move ι ℓ Op Res)) : Prop :=
  ∀ i ev s c past rest, x.label = .call i ev → x.pre.threads i = .busy s c past rest → C s c past x.pre.shared ev

variable {prog Serves J I C}

variable {w w' : World ι σ ℓ S Op Res} {th : Thread σ ℓ Op Res}

theorem World.Consistent.state (h : w.Consistent prog Serves J I C) (i : ι) : I (w.threads i).state w.shared := by
  have hfit := h.threads i
  cases ht : w.threads i with
  | idle s =>
    rw [ht] at hfit
    exact hfit
  | busy s c past rest =>
    rw [ht] at hfit
    exact hfit.1

/-- A move of the others leaves a thread fitting. -/
theorem Thread.Fits.foreign (hU : Upheld prog Serves J I C) {b b' : S} {o : Op} {r : Res o} (h : th.Fits prog Serves J I C b)
    (hb : J b) (hb' : J b') (hs : Serves b o r b') : th.Fits prog Serves J I C b' := by
  cases th with
  | idle s => exact hU.stable h hb hb' hs
  | busy s c past rest =>
    obtain ⟨hI, ⟨b₀, hI₀, hb₀, hsince⟩, hrest⟩ := h
    exact ⟨hU.stable hI hb hb' hs, ⟨b₀, hI₀, hb₀, hsince.foreign ⟨hb, hb', o, r, hs⟩⟩, hrest⟩

variable [DecidableEq ι]

theorem consistent_update {i : ι} {b : S} (hb : J b) (hth : th.Fits prog Serves J I C b)
    (hrest : ∀ j, (w.threads j).Fits prog Serves J I C b) :
    World.Consistent prog Serves J I C ⟨Function.update w.threads i th, b⟩ := by
  refine ⟨hb, fun j => ?_⟩
  show (Function.update w.threads i th j).Fits prog Serves J I C b
  by_cases hj : j = i
  · rwa [hj, Function.update_self]
  · rw [Function.update_of_ne hj]
    exact hrest j

variable [∀ o, Nonempty (Res o)] (hU : Upheld prog Serves J I C)
include hU

/-- **Every step of the world keeps an upheld invariant.** -/
theorem consistent_step {m : Move ι ℓ Op Res} (hC : CallMeets C ⟨w, m, w'⟩) (hstep : WorldStep prog Serves w m w')
    (h : w.Consistent prog Serves J I C) : w'.Consistent prog Serves J I C := by
  cases hstep with
  | @start i s c hi =>
    have hfit := h.threads i
    rw [hi] at hfit
    exact consistent_update h.shared ⟨hfit, ⟨w.shared, hfit, h.shared, .nil⟩, fun t s' hrun => hrun⟩ h.threads
  | @call i s c past o k r b hi hs =>
    have hfit := h.threads i
    rw [hi] at hfit
    obtain ⟨hI, ⟨b₀, hI₀, hb₀, hsince⟩, hrest⟩ := hfit
    -- some continuation of the program shows that it can make this call
    obtain ⟨v, s', hv⟩ := exists_run (k r)
    have hmeets := hC i _ s c past _ rfl hi
    have hb : J b := hU.serve hI₀ hsince h.shared (hrest _ _ (.call r hv)) hmeets hs
    have hrest' : ∀ t s', Run (k r) t s' → Run (prog c s) ((past ++ [⟨o, r⟩]) ++ t) s' := by
      intro t s' hrun
      rw [List.append_assoc]
      exact hrest _ _ (.call r hrun)
    exact consistent_update hb
      ⟨hU.stable hI h.shared hb hs, ⟨b₀, hI₀, hb₀, hsince.own ⟨h.shared, hb, hs, hmeets⟩⟩, hrest'⟩
      fun j => (h.threads j).foreign hU h.shared hb hs
  | @finish i s s' c past hi =>
    have hfit := h.threads i
    rw [hi] at hfit
    obtain ⟨-, ⟨b₀, hI₀, hb₀, hsince⟩, hrest⟩ := hfit
    have hrun : Run (prog c s) past s' := by simpa using hrest [] s' (.ret s')
    exact consistent_update h.shared (hU.finish hI₀ hb₀ hsince h.shared hrun) h.threads

/-- **An upheld invariant holds throughout a run** whose calls meet the condition. -/
theorem consistent_run {τ : List (Transition (World ι σ ℓ S Op Res) (Move ι ℓ Op Res))}
    (h : Path (WorldStep prog Serves) w τ w') (hC : ∀ x ∈ τ, CallMeets C x) (hw : w.Consistent prog Serves J I C) :
    w'.Consistent prog Serves J I C :=
  Path.invariant (C := CallMeets C) (fun _ _ _ hC hstep hw => consistent_step hU hC hstep hw) h hC hw

end Invariant

/-! ## Programs that are not interrupted -/

section Uninterrupted

variable (answer : S → (o : Op) → Res o × S)

/-- The calls of an uninterrupted program: the calls before each, the object at the time, and the call. -/
def serveLog {α : Type} : Prog Op Res α → List (Event Op Res) → S → List (List (Event Op Res) × S × Event Op Res)
  | .ret _, _, _ => []
  | .call o k, past, b =>
    (past, b, ⟨o, (answer b o).1⟩) ::
      serveLog (k (answer b o).1) (past ++ [⟨o, (answer b o).1⟩]) (answer b o).2

variable [DecidableEq ι] {prog : ℓ → σ → Prog Op Res σ} {Serves : S → (o : Op) → Res o → S → Prop}
variable {C : σ → ℓ → List (Event Op Res) → S → Event Op Res → Prop}
variable (hans : ∀ b o, Serves b o (answer b o).1 (answer b o).2)
include hans

/-- The rest of a program is a run of the world; its calls meet the condition if those of its log do. -/
theorem path_rest {s : σ} {c : ℓ} {i : ι} (p : Prog Op Res σ) : ∀ {w : World ι σ ℓ S Op Res}
    {past : List (Event Op Res)}, w.threads i = .busy s c past p →
      (∀ x ∈ serveLog answer p past w.shared, C s c x.1 x.2.1 x.2.2) →
      ∃ τ, Path (WorldStep prog Serves) w τ
          ⟨Function.update w.threads i (.idle (serve answer p w.shared).1), (serve answer p w.shared).2.2⟩ ∧
        (∀ x ∈ τ, CallMeets C x) ∧ ∃ x ∈ τ, x.label = .finish i ∧
          x.pre.threads i = .busy s c (past ++ (serve answer p w.shared).2.1) (.ret (serve answer p w.shared).1) := by
  induction p with
  | ret s' =>
    intro w past hi _
    refine ⟨_, .cons (.finish hi) (.nil _), fun x hx => ?_, _, List.mem_cons_self, rfl, by simpa [serve] using hi⟩
    obtain rfl := List.mem_singleton.1 hx
    rintro j ev s c past rest ⟨⟩
  | call o k ih =>
    intro w past hi hlog
    obtain ⟨hhead, htail⟩ := List.forall_mem_cons.1 hlog
    obtain ⟨τ, hτ, hmeets, x, hx, hfinish⟩ := ih (answer w.shared o).1
      (w := ⟨Function.update w.threads i (.busy s c (past ++ [⟨o, (answer w.shared o).1⟩]) (k (answer w.shared o).1)),
        (answer w.shared o).2⟩) (Function.update_self i _ w.threads) htail
    rw [Function.update_idem] at hτ
    refine ⟨_, .cons (.call hi (hans w.shared o)) hτ, fun x hx => ?_, x, List.mem_cons_of_mem _ hx, by simpa [serve] using hfinish⟩
    rcases List.mem_cons.1 hx with rfl | hx
    · intro j ev s' c' past' rest' hlabel hj
      cases hlabel
      rw [show (⟨w, _, _⟩ : Transition _ _).pre.threads i = _ from hi] at hj
      cases hj
      exact hhead
    · exact hmeets x hx

/-- **A program that is not interrupted** takes an idle thread to its result, with a last move that finishes it. -/
theorem path_serve {s : σ} {i : ι} (c : ℓ) {w : World ι σ ℓ S Op Res} (hi : w.threads i = .idle s)
    (hlog : ∀ x ∈ serveLog answer (prog c s) [] w.shared, C s c x.1 x.2.1 x.2.2) :
    ∃ τ, Path (WorldStep prog Serves) w τ ⟨Function.update w.threads i (.idle (serve answer (prog c s) w.shared).1),
        (serve answer (prog c s) w.shared).2.2⟩ ∧ (∀ x ∈ τ, CallMeets C x) ∧ ∃ x ∈ τ, x.label = .finish i ∧
          x.pre.threads i = .busy s c (serve answer (prog c s) w.shared).2.1 (.ret (serve answer (prog c s) w.shared).1) := by
  obtain ⟨τ, hτ, hmeets, x, hx, hfinish⟩ := path_rest answer hans (prog c s) (w := ⟨Function.update w.threads i (.busy s c [] (prog c s)),
    w.shared⟩) (Function.update_self i _ w.threads) hlog
  rw [Function.update_idem] at hτ
  refine ⟨_, .cons (.start c hi) hτ, fun x hx => ?_, x, List.mem_cons_of_mem _ hx, by simpa using hfinish⟩
  rcases List.mem_cons.1 hx with rfl | hx
  · rintro j ev s c past rest ⟨⟩
  · exact hmeets x hx

end Uninterrupted

end Atomic
