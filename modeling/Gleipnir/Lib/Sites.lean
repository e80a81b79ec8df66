import Gleipnir.Lib.Interleave

/-!
# Programs that send messages

Any number of sites, each with a thread and an object of its own. A call of a program may send messages. What was sent is
delivered to any site at any later time, any number of times or never; delivery changes the object of the site.

* `Guarantees`: what has to be shown of a single site, told only that the messages it receives are good: its invariants stay,
  and it sends good messages.
* `guaranteed_run`: then the invariants hold at every site in every state of a run.
* `path_site_serve`: a program that is not interrupted is a run.
-/

namespace Atomic

variable {ι σ ℓ S M : Type} {Op : Type} {Res : Op → Type}

/-- A thread and the object that it has for itself. -/
structure Site (σ ℓ S Op : Type) (Res : Op → Type) where
  thread : Thread σ ℓ Op Res
  object : S

structure Sites (ι σ ℓ S M Op : Type) (Res : Op → Type) where
  site : ι → Site σ ℓ S Op Res
  /-- All messages that were ever sent. -/
  sent : List M

/-- The sites at the beginning: every thread is idle and nothing was sent. -/
def Sites.idle (states : ι → σ) (b : S) : Sites ι σ ℓ S M Op Res := ⟨fun i => ⟨.idle (states i), b⟩, []⟩

inductive SiteMove (ι ℓ M Op : Type) (Res : Op → Type) : Type
  | start (i : ι) (c : ℓ)
  | call (i : ι) (ev : Event Op Res)
  | finish (i : ι)
  | deliver (i : ι) (m : M)

/-- The steps of sites at which `c` started in `s` is the program `prog c s`. An object serves as in `Serves`, which also says
what is sent, and takes a message in by `receive`. -/
inductive SiteStep [DecidableEq ι] (prog : ℓ → σ → Prog Op Res σ) (Serves : S → (o : Op) → Res o → S → List M → Prop)
    (receive : M → S → S) : Sites ι σ ℓ S M Op Res → SiteMove ι ℓ M Op Res → Sites ι σ ℓ S M Op Res → Prop
  | start {w : Sites ι σ ℓ S M Op Res} {i : ι} {s : σ} (c : ℓ) (h : (w.site i).thread = .idle s) :
      SiteStep prog Serves receive w (.start i c)
        ⟨Function.update w.site i ⟨.busy s c [] (prog c s), (w.site i).object⟩, w.sent⟩
  | call {w : Sites ι σ ℓ S M Op Res} {i : ι} {s : σ} {c : ℓ} {past : List (Event Op Res)} {o : Op}
      {k : Res o → Prog Op Res σ} {r : Res o} {b : S} {ms : List M} (h : (w.site i).thread = .busy s c past (.call o k))
      (hs : Serves (w.site i).object o r b ms) :
      SiteStep prog Serves receive w (.call i ⟨o, r⟩)
        ⟨Function.update w.site i ⟨.busy s c (past ++ [⟨o, r⟩]) (k r), b⟩, w.sent ++ ms⟩
  | finish {w : Sites ι σ ℓ S M Op Res} {i : ι} {s s' : σ} {c : ℓ} {past : List (Event Op Res)}
      (h : (w.site i).thread = .busy s c past (.ret s')) :
      SiteStep prog Serves receive w (.finish i) ⟨Function.update w.site i ⟨.idle s', (w.site i).object⟩, w.sent⟩
  | deliver {w : Sites ι σ ℓ S M Op Res} (i : ι) {m : M} (h : m ∈ w.sent) :
      SiteStep prog Serves receive w (.deliver i m)
        ⟨Function.update w.site i ⟨(w.site i).thread, receive m (w.site i).object⟩, w.sent⟩

/-! ## Guarantees -/

section Guarantees

variable (prog : ℓ → σ → Prog Op Res σ) (Serves : S → (o : Op) → Res o → S → List M → Prop) (receive : M → S → S)
variable (Good : M → Prop) (J : ι → S → Prop) (I : ι → σ → Prop)

/-- A good message comes in. -/
def TakenIn (i : ι) (b b' : S) : Prop := J i b ∧ ∃ m, Good m ∧ b' = receive m b

/-- A call of the program at the site. -/
def MadeCall (i : ι) (_ : List (Event Op Res)) (b : S) (ev : Event Op Res) (b' : S) : Prop :=
  J i b ∧ ∃ ms, Serves b ev.op ev.res b' ms

/-- The calls `past` of a program were served at the site, while good messages came in. -/
abbrev ServedAt (i : ι) : S → List (Event Op Res) → S → Prop :=
  Served (TakenIn receive Good J i) (MadeCall Serves J i)

/-- `J` is an invariant of the object of a site and `I` one of its idle thread, as long as the messages that come in are good;
and then those that go out are good. -/
structure Guarantees : Prop where
  deliver : ∀ {i b m}, J i b → Good m → J i (receive m b)
  serve : ∀ {i s c b₀ past b ev b' ms v s'}, I i s → ServedAt Serves receive Good J i b₀ past b → J i b →
    Run (prog c s) (past ++ ev :: v) s' → Serves b ev.op ev.res b' ms → J i b' ∧ ∀ m ∈ ms, Good m
  finish : ∀ {i s c b₀ past b s'}, I i s → ServedAt Serves receive Good J i b₀ past b → J i b →
    Run (prog c s) past s' → I i s'

/-- A thread is idle with its invariant, or in the middle of a program that it started with it. -/
def Site.Fits (i : ι) (x : Site σ ℓ S Op Res) : Prop :=
  match x.thread with
  | .idle s => I i s
  | .busy s c past rest => I i s ∧ (∃ b₀, ServedAt Serves receive Good J i b₀ past x.object) ∧
      ∀ t s', Run rest t s' → Run (prog c s) (past ++ t) s'

structure Sites.Sound (w : Sites ι σ ℓ S M Op Res) : Prop where
  sent : ∀ m ∈ w.sent, Good m
  object : ∀ i, J i (w.site i).object
  fits : ∀ i, (w.site i).Fits prog Serves receive Good J I i

variable {prog Serves receive Good J I}

section Fits

variable {w : Sites ι σ ℓ S M Op Res} {i : ι} {s : σ}

theorem Sites.Sound.idle (h : w.Sound prog Serves receive Good J I) (hi : (w.site i).thread = .idle s) : I i s := by
  have hfit := h.fits i
  unfold Site.Fits at hfit
  rwa [hi] at hfit

theorem Sites.Sound.busy (h : w.Sound prog Serves receive Good J I) {c : ℓ} {past : List (Event Op Res)} {rest : Prog Op Res σ}
    (hi : (w.site i).thread = .busy s c past rest) :
    I i s ∧ (∃ b₀, ServedAt Serves receive Good J i b₀ past (w.site i).object) ∧
      ∀ t s', Run rest t s' → Run (prog c s) (past ++ t) s' := by
  have hfit := h.fits i
  unfold Site.Fits at hfit
  rwa [hi] at hfit

/-- The invariant of a thread holds of the state that it had when it was last idle. -/
theorem Sites.Sound.state (h : w.Sound prog Serves receive Good J I) (i : ι) : I i (w.site i).thread.state := by
  cases ht : (w.site i).thread with
  | idle s => exact h.idle ht
  | busy s c past rest => exact (h.busy ht).1

end Fits

variable [DecidableEq ι]

variable {w w' : Sites ι σ ℓ S M Op Res} {x : Site σ ℓ S Op Res}

/-- One site changes, and messages may be added. -/
theorem guaranteed_update (h : w.Sound prog Serves receive Good J I) {i : ι} {ms : List M} (hms : ∀ m ∈ ms, Good m)
    (hobject : J i x.object) (hfits : x.Fits prog Serves receive Good J I i) :
    Sites.Sound prog Serves receive Good J I ⟨Function.update w.site i x, w.sent ++ ms⟩ := by
  refine ⟨fun m hm => ?_, fun j => ?_, fun j => ?_⟩
  · rcases List.mem_append.1 hm with hm | hm
    · exact h.sent m hm
    · exact hms m hm
  · show J j (Function.update w.site i x j).object
    by_cases hj : j = i
    · rwa [hj, Function.update_self]
    · rw [Function.update_of_ne hj]
      exact h.object j
  · show (Function.update w.site i x j).Fits prog Serves receive Good J I j
    by_cases hj : j = i
    · rwa [hj, Function.update_self]
    · rw [Function.update_of_ne hj]
      exact h.fits j

theorem guaranteed_update_quiet (h : w.Sound prog Serves receive Good J I) {i : ι} (hobject : J i x.object)
    (hfits : x.Fits prog Serves receive Good J I i) :
    Sites.Sound prog Serves receive Good J I ⟨Function.update w.site i x, w.sent⟩ := by
  have hnone : ∀ m ∈ ([] : List M), Good m := fun m hm => absurd hm List.not_mem_nil
  simpa using guaranteed_update h hnone hobject hfits

variable [∀ o, Nonempty (Res o)] (hG : Guarantees prog Serves receive Good J I)
include hG

/-- **Every step keeps what the sites guarantee.** -/
theorem guaranteed_step {l : SiteMove ι ℓ M Op Res} (hstep : SiteStep prog Serves receive w l w')
    (h : w.Sound prog Serves receive Good J I) : w'.Sound prog Serves receive Good J I := by
  cases hstep with
  | start c hi => exact guaranteed_update_quiet h (h.object _) ⟨h.idle hi, ⟨_, .nil⟩, fun t s' hrun => hrun⟩
  | @call i s c past o k r b ms hi hs =>
    obtain ⟨hI, ⟨b₀, hserved⟩, hrest⟩ := h.busy hi
    -- some continuation of the program shows that it can make this call
    obtain ⟨v, s', hv⟩ := exists_run (k r)
    obtain ⟨hJ, hms⟩ := hG.serve hI hserved (h.object i) (hrest _ _ (.call r hv)) hs
    refine guaranteed_update h hms hJ ⟨hI, ⟨b₀, hserved.own ⟨h.object i, ms, hs⟩⟩, fun t s' hrun => ?_⟩
    rw [List.append_assoc]
    exact hrest _ _ (.call r hrun)
  | @finish i s s' c past hi =>
    obtain ⟨hI, ⟨b₀, hserved⟩, hrest⟩ := h.busy hi
    have hrun : Run (prog c s) past s' := by simpa using hrest [] s' (.ret s')
    exact guaranteed_update_quiet h (h.object i) (hG.finish hI hserved (h.object i) hrun)
  | @deliver i m hm =>
    have hgood := h.sent m hm
    refine guaranteed_update_quiet h (hG.deliver (h.object i) hgood) ?_
    unfold Site.Fits
    dsimp only
    cases ht : (w.site i).thread with
    | idle s => exact h.idle ht
    | busy s c past rest =>
      obtain ⟨hI, ⟨b₀, hserved⟩, hrest⟩ := h.busy ht
      exact ⟨hI, ⟨b₀, hserved.foreign ⟨h.object i, m, hgood, rfl⟩⟩, hrest⟩

/-- **What the sites guarantee holds throughout a run.** -/
theorem guaranteed_run {τ : List (Transition (Sites ι σ ℓ S M Op Res) (SiteMove ι ℓ M Op Res))}
    (h : Path (SiteStep prog Serves receive) w τ w') (hw : w.Sound prog Serves receive Good J I) :
    w'.Sound prog Serves receive Good J I :=
  h.preserves (fun _ _ _ hstep hinv => guaranteed_step hG hstep hinv) hw

end Guarantees

/-! ## Uninterrupted programs -/

section Uninterrupted

variable (answer : S → (o : Op) → Res o × S × List M)

/-- Answer a call, and add what is sent to what was sent before. -/
def sending (x : S × List M) (o : Op) : Res o × S × List M :=
  ((answer x.1 o).1, (answer x.1 o).2.1, x.2 ++ (answer x.1 o).2.2)

variable [DecidableEq ι] {prog : ℓ → σ → Prog Op Res σ} {Serves : S → (o : Op) → Res o → S → List M → Prop}
variable (receive : M → S → S)

/-- Messages that were sent are delivered to a site one after the other. -/
theorem path_deliveries (i : ι) (ms : List M) : ∀ {w : Sites ι σ ℓ S M Op Res}, (∀ m ∈ ms, m ∈ w.sent) →
    ∃ τ, Path (SiteStep prog Serves receive) w τ ⟨Function.update w.site i
      ⟨(w.site i).thread, ms.foldl (fun b m => receive m b) (w.site i).object⟩, w.sent⟩ := by
  induction ms with
  | nil =>
    intro w _
    refine ⟨[], ?_⟩
    have hsame : Function.update w.site i ⟨(w.site i).thread, (w.site i).object⟩ = w.site := Function.update_eq_self i w.site
    rw [List.foldl_nil, hsame]
    exact .nil w
  | cons m ms ih =>
    intro w h
    obtain ⟨hm, hms⟩ := List.forall_mem_cons.1 h
    obtain ⟨τ, hτ⟩ := ih (w := ⟨Function.update w.site i ⟨(w.site i).thread, receive m (w.site i).object⟩, w.sent⟩) hms
    simp only [Function.update_self, Function.update_idem] at hτ
    exact ⟨_, .cons (.deliver i hm) hτ⟩

variable (hans : ∀ b o, Serves b o (answer b o).1 (answer b o).2.1 (answer b o).2.2)
include hans

/-- The rest of a program at a site. -/
theorem path_site_rest {s : σ} {c : ℓ} {i : ι} (p : Prog Op Res σ) : ∀ {w : Sites ι σ ℓ S M Op Res}
    {past : List (Event Op Res)}, (w.site i).thread = .busy s c past p →
      ∃ τ, Path (SiteStep prog Serves receive) w τ ⟨Function.update w.site i
        ⟨.idle (serve (sending answer) p ((w.site i).object, w.sent)).1,
          (serve (sending answer) p ((w.site i).object, w.sent)).2.2.1⟩,
        (serve (sending answer) p ((w.site i).object, w.sent)).2.2.2⟩ := by
  induction p with
  | ret s' =>
    intro w past hi
    exact ⟨_, .cons (.finish hi) (.nil _)⟩
  | call o k ih =>
    intro w past hi
    have hbusy : (Function.update w.site i ⟨.busy s c (past ++ [⟨o, (answer (w.site i).object o).1⟩])
        (k (answer (w.site i).object o).1), (answer (w.site i).object o).2.1⟩ i).thread =
        .busy s c (past ++ [⟨o, (answer (w.site i).object o).1⟩]) (k (answer (w.site i).object o).1) := by
      rw [Function.update_self]
    obtain ⟨τ, hτ⟩ := ih (answer (w.site i).object o).1 (w := ⟨_, w.sent ++ (answer (w.site i).object o).2.2⟩) hbusy
    simp only [Function.update_self, Function.update_idem] at hτ
    exact ⟨_, .cons (.call hi (hans _ o)) hτ⟩

/-- **A program that is not interrupted** takes an idle site to its result. -/
theorem path_site_serve {s : σ} {i : ι} (c : ℓ) {w : Sites ι σ ℓ S M Op Res} (hi : (w.site i).thread = .idle s) :
    ∃ τ, Path (SiteStep prog Serves receive) w τ ⟨Function.update w.site i
      ⟨.idle (serve (sending answer) (prog c s) ((w.site i).object, w.sent)).1,
        (serve (sending answer) (prog c s) ((w.site i).object, w.sent)).2.2.1⟩,
      (serve (sending answer) (prog c s) ((w.site i).object, w.sent)).2.2.2⟩ := by
  have hbusy : (Function.update w.site i ⟨.busy s c [] (prog c s), (w.site i).object⟩ i).thread = .busy s c [] (prog c s) := by
    rw [Function.update_self]
  obtain ⟨τ, hτ⟩ := path_site_rest answer receive hans (prog c s)
    (w := ⟨Function.update w.site i ⟨.busy s c [] (prog c s), (w.site i).object⟩, w.sent⟩) hbusy
  simp only [Function.update_self, Function.update_idem] at hτ
  exact ⟨_, .cons (.start c hi) hτ⟩

end Uninterrupted

end Atomic
