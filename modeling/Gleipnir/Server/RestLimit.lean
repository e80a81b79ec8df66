import Gleipnir.Lib.SlidingWindow
import Gleipnir.Server.Rest
import Mathlib.Data.Finset.Card

/-!
# The limiter of the HTTP server

`perRootLimiter.Allow` of `rest/server.go` takes its lock to find the window of a root, and reads and writes the window after
it has released it. The server handles every request in a goroutine of its own, so calls of `Allow` interleave.

* `allow_alone`: a call that is not interrupted is `PerRootLimiter.allow`.
* `restLimit_iff`: the limit holds over all runs exactly if no two calls for one root overlap.
-/

namespace Gleipnir

open Atomic SlidingWindow

/-! ## Calls that interleave -/

/-- How far a call has got, with the time it has read. -/
inductive AllowPhase where
  /-- It has read the clock. -/
  | begun (now : Int)
  /-- It has filtered the entries that it found. -/
  | filtered (now : Int) (valid : List Int)
  /-- It has stored what was left. -/
  | stored (now : Int)
  /-- It has found room. -/
  | passed (now : Int)
  /-- It is about to store the entries that it found, with its own. -/
  | appending (now : Int) (entries : List Int)

/-- A limiter with calls under way, and the times at which it has let requests of each root through. -/
structure Limiting where
  limiter : PerRootLimiter
  clock : Int
  calls : Nat → Option (String × AllowPhase)
  accepted : String → List Int

inductive LimitMove where
  | tick
  | call (i : Nat)

/-- The call `i` for a root goes on, or returns. -/
def Limiting.setCall (s : Limiting) (i : Nat) (rootID : String) (next : Option AllowPhase) : Limiting :=
  { s with calls := Function.update s.calls i (next.map (rootID, ·)) }

def Limiting.store (s : Limiting) (rootID : String) (entries : List Int) : Limiting :=
  { s with limiter := { s.limiter with windows := Function.update s.limiter.windows rootID entries } }

def Limiting.accept (s : Limiting) (rootID : String) (now : Int) : Limiting :=
  { s with accepted := Function.update s.accepted rootID (s.accepted rootID ++ [now]) }

/-- The entries of a root that count at a time. -/
def PerRootLimiter.valid (rl : PerRootLimiter) (rootID : String) (now : Int) : List Int :=
  (rl.windows rootID).filter fun t => now - rl.windowDur ≤ t

/-- The steps of `Allow`: each reads or writes the window once. The window itself is there: for a limit of more than `2 ^ 45`
times, of eight bytes each, `make` panics on the first call for a root with the lock held, and nothing below happens. -/
inductive AllowStep (rootID : String) (s : Limiting) : AllowPhase → Limiting → Option AllowPhase → Prop
  | filters {now : Int} : AllowStep rootID s (.begun now) s (some (.filtered now (s.limiter.valid rootID now)))
  | stores {now : Int} {valid : List Int} : AllowStep rootID s (.filtered now valid) (s.store rootID valid) (some (.stored now))
  | refuses {now : Int} (hfull : s.limiter.maxReq ≤ (s.limiter.windows rootID).length) : AllowStep rootID s (.stored now) s none
  | passes {now : Int} (hroom : ¬ s.limiter.maxReq ≤ (s.limiter.windows rootID).length) :
      AllowStep rootID s (.stored now) s (some (.passed now))
  | reads {now : Int} : AllowStep rootID s (.passed now) s (some (.appending now (s.limiter.windows rootID)))
  | appends {now : Int} {entries : List Int} : AllowStep rootID s (.appending now entries)
      ((s.store rootID (entries ++ [now])).accept rootID now) none

/-- Time passes, a call begins, or one goes on. A call that begins has found or made its window (see `AllowStep`). -/
inductive LimitStep : Limiting → LimitMove → Limiting → Prop
  | tick {s : Limiting} {clock : Int} (h : s.clock ≤ clock) : LimitStep s .tick { s with clock }
  | begins {s : Limiting} {i : Nat} (h : s.calls i = none) (rootID : String) :
      LimitStep s (.call i) (s.setCall i rootID (some (.begun s.clock)))
  | goesOn {s s' : Limiting} {i : Nat} {rootID : String} {phase : AllowPhase} {next : Option AllowPhase}
      (h : s.calls i = some (rootID, phase)) (hstep : AllowStep rootID s phase s' next) :
      LimitStep s (.call i) (s'.setCall i rootID next)

abbrev LimitRun (s : Limiting) (τ : List (Transition Limiting LimitMove)) (s' : Limiting) : Prop := Path LimitStep s τ s'

/-- A limiter as `NewServer` builds it. -/
def Limiting.new (maxReq windowDur clock : Int) : Limiting :=
  ⟨⟨fun _ => [], maxReq, windowDur⟩, clock, fun _ => none, fun _ => []⟩

/-- At most `c` calls for a root are under way. -/
def Limiting.InFlight (s : Limiting) (rootID : String) (c : Nat) : Prop :=
  ∃ ids : Finset Nat, ids.card ≤ c ∧ ∀ i phase, s.calls i = some (rootID, phase) → i ∈ ids

/-- The limit over all runs in which at most `c` calls for one root overlap: within `windowDur` seconds no more than `maxReq`
requests are let through. -/
def RestLimit (maxReq windowDur : Int) (c : Nat) : Prop :=
  ∀ rootID clock τ s, LimitRun (.new maxReq windowDur clock) τ s → (∀ x ∈ τ, x.post.InFlight rootID c) →
    ∀ a, ((s.accepted rootID).filter fun t => a ≤ t ∧ t ≤ a + windowDur).length ≤ maxReq.toNat

section Fields

variable {s s' : Limiting} {i j : Nat} {rootID : String} {phase : AllowPhase} {next next' : Option AllowPhase}
  {entries : List Int} {now : Int}

theorem setCall_calls_self : (s.setCall i rootID (some phase)).calls i = some (rootID, phase) := Function.update_self ..

theorem store_windows_self : (s.store rootID entries).limiter.windows rootID = entries := Function.update_self ..

/-- A step of a call changes what is kept for its root. -/
theorem AllowStep.frame (h : AllowStep rootID s phase s' next) : ∃ windows accepted,
    s' = { s with limiter := { s.limiter with windows }, accepted } ∧
      ∀ rootID', rootID' ≠ rootID → windows rootID' = s.limiter.windows rootID' ∧ accepted rootID' = s.accepted rootID' := by
  cases h with
  | stores => exact ⟨_, _, rfl, fun _ hne => ⟨Function.update_of_ne hne .., rfl⟩⟩
  | appends => exact ⟨_, _, rfl, fun _ hne => ⟨Function.update_of_ne hne .., Function.update_of_ne hne ..⟩⟩
  | _ => exact ⟨_, _, rfl, fun _ _ => ⟨rfl, rfl⟩⟩

/-- A step of a call leaves the others where they are. -/
theorem calls_step (h : LimitStep s (.call i) s') (hj : j ≠ i) : s'.calls j = s.calls j := by
  cases h with
  | begins h rootID => exact Function.update_of_ne hj ..
  | goesOn h hstep =>
    obtain ⟨windows, accepted, rfl, -⟩ := hstep.frame
    exact Function.update_of_ne hj ..

end Fields

/-! ## A call that is not interrupted -/

section Alone

variable {s s₁ s' : Limiting} {i : Nat} {rootID : String}

/-- Steps of one call. -/
def Limiting.Alone (i : Nat) (s s' : Limiting) : Prop := ∃ τ, LimitRun s τ s' ∧ ∀ x ∈ τ, ∀ j, j ≠ i → x.post.calls j = s.calls j

theorem Limiting.Alone.refl (s : Limiting) : s.Alone i s := ⟨[], .nil _, fun x hx => by cases hx⟩

theorem Limiting.Alone.step (h : LimitStep s (.call i) s₁) (hrest : s₁.Alone i s') : s.Alone i s' := by
  obtain ⟨τ, hrun, haside⟩ := hrest
  refine ⟨_, .cons h hrun, fun x hx j hj => ?_⟩
  rcases List.mem_cons.1 hx with rfl | hx
  · exact calls_step h hj
  · exact (haside x hx j hj).trans (calls_step h hj)

end Alone

/-! ## Calls that do not overlap -/

section Serial

variable {s s' : Limiting} {rootID : String} {i : Nat} {phase : AllowPhase}

/-- What a call for a root that is alone relies on at each of its steps. -/
def AllowPhase.Fits (w last : Int) (n : Nat) (log entries : List Int) : AllowPhase → Prop
  | .begun now => now = last
  | .filtered now valid => now = last ∧ valid = recent w last entries
  | .stored now => now = last ∧ entries = recent w last log
  | .passed now => now = last ∧ entries = recent w last log ∧ entries.length < n
  | .appending now found => now = last ∧ entries = recent w last log ∧ entries.length < n ∧ found = entries

/-- The window of a root whose calls do not overlap: it shows what has been let through lately. -/
structure Serial (rootID : String) (s : Limiting) : Prop where
  serial : ∃ last, last ≤ s.clock ∧ SlidingWindow.Admitted s.limiter.maxReq.toNat (s.limiter.windowDur + 1) (s.accepted rootID) ∧
    Remembers (s.limiter.windowDur + 1) last (s.accepted rootID) (s.limiter.windows rootID) ∧
    ∀ i phase, s.calls i = some (rootID, phase) → phase.Fits (s.limiter.windowDur + 1) last s.limiter.maxReq.toNat
      (s.accepted rootID) (s.limiter.windows rootID)

theorem valid_eq_recent (rl : PerRootLimiter) (rootID : String) (now : Int) :
    rl.valid rootID now = recent (rl.windowDur + 1) now (rl.windows rootID) := by
  refine List.filter_congr fun t _ => ?_
  simp only [decide_eq_decide]
  omega

/-- The only call for a root. -/
theorem Limiting.InFlight.only (h : s.InFlight rootID 1) {j : Nat} {phase' : AllowPhase}
    (hi : s.calls i = some (rootID, phase)) (hj : s.calls j = some (rootID, phase')) : i = j := by
  obtain ⟨ids, hcard, hids⟩ := h
  exact Finset.card_le_one.1 hcard i (hids i phase hi) j (hids j phase' hj)

/-- What holds of the only call for a root holds of all of them. -/
theorem Limiting.InFlight.forall {P : AllowPhase → Prop} (h : s.InFlight rootID 1) (hi : s.calls i = some (rootID, phase))
    (hP : P phase) : ∀ j phase', s.calls j = some (rootID, phase') → P phase' := by
  intro j phase' hj
  obtain rfl := h.only hi hj
  obtain rfl : phase = phase' := congrArg Prod.snd (Option.some.inj (hi.symm.trans hj))
  exact hP

/-- When the only call for a root has returned, there is none. -/
theorem Limiting.InFlight.none_left (h : s.InFlight rootID 1) (hi : s.calls i = some (rootID, phase)) (j : Nat)
    (phase' : AllowPhase) : Function.update s.calls i none j ≠ some (rootID, phase') := by
  intro hj
  by_cases hij : j = i
  · subst hij
    rw [Function.update_self] at hj
    cases hj
  · rw [Function.update_of_ne hij] at hj
    exact hij (h.only hi hj).symm

/-- A call for another root takes a step. -/
theorem Serial.other {rootID' : String} (hs : Serial rootID s) (hne : rootID' ≠ rootID) {windows accepted : String → List Int}
    (hwindow : windows rootID = s.limiter.windows rootID) (haccepted : accepted rootID = s.accepted rootID)
    (next : Option AllowPhase) :
    Serial rootID ({ s with limiter := { s.limiter with windows }, accepted }.setCall i rootID' next) := by
  obtain ⟨last, hlast, hadmitted, hremembers, hfits⟩ := hs.serial
  refine ⟨last, hlast, ?_, ?_, fun j phase hj => ?_⟩
  · simpa only [Limiting.setCall, haccepted] using hadmitted
  · simpa only [Limiting.setCall, haccepted, hwindow] using hremembers
  · simp only [Limiting.setCall, haccepted, hwindow] at hj ⊢
    by_cases hij : j = i
    · subst hij
      rw [Function.update_self] at hj
      obtain ⟨phase, -, heq⟩ := Option.map_eq_some_iff.1 hj
      exact absurd (congrArg Prod.fst heq) hne
    · rw [Function.update_of_ne hij] at hj
      exact hfits j phase hj

/-- The only call for a root takes a step. -/
theorem Serial.own {next : Option AllowPhase} (h : s.calls i = some (rootID, phase)) (hstep : AllowStep rootID s phase s' next)
    (hflight : s.InFlight rootID 1) (hflight' : (s'.setCall i rootID next).InFlight rootID 1) (hs : Serial rootID s) :
    Serial rootID (s'.setCall i rootID next) := by
  obtain ⟨last, hlast, hadmitted, hremembers, hfits⟩ := hs.serial
  cases hstep with
  | @filters now =>
    obtain rfl : now = last := hfits i _ h
    exact ⟨now, hlast, hadmitted, hremembers, hflight'.forall setCall_calls_self ⟨rfl, valid_eq_recent ..⟩⟩
  | @stores now valid =>
    obtain ⟨rfl, rfl⟩ := hfits i _ h
    have hwindow : (s.store rootID (recent (s.limiter.windowDur + 1) now (s.limiter.windows rootID))).limiter.windows rootID =
        recent (s.limiter.windowDur + 1) now (s.limiter.windows rootID) := store_windows_self
    exact ⟨now, hlast, hadmitted, hwindow.symm ▸ hremembers.recent,
      hflight'.forall setCall_calls_self ⟨rfl, hwindow.trans hremembers.recent_eq⟩⟩
  | refuses hfull => exact ⟨last, hlast, hadmitted, hremembers, fun j phase hj => absurd hj (hflight.none_left h j phase)⟩
  | @passes now hroom =>
    obtain ⟨rfl, hentries⟩ := hfits i _ h
    refine ⟨now, hlast, hadmitted, hremembers, hflight'.forall setCall_calls_self ⟨rfl, hentries, ?_⟩⟩
    change (s.limiter.windows rootID).length < s.limiter.maxReq.toNat
    omega
  | @reads now =>
    obtain ⟨rfl, hentries, hlength⟩ := hfits i _ h
    exact ⟨now, hlast, hadmitted, hremembers, hflight'.forall setCall_calls_self ⟨rfl, hentries, hlength, rfl⟩⟩
  | @appends now entries =>
    obtain ⟨rfl, hentries, hlength, rfl⟩ := hfits i _ h
    refine ⟨now, hlast, ?_, ?_, fun j phase hj => absurd hj (hflight.none_left h j phase)⟩
    · change SlidingWindow.Admitted _ _ (Function.update s.accepted rootID (s.accepted rootID ++ [now]) rootID)
      rw [Function.update_self]
      exact hadmitted.concat (hentries ▸ hlength)
    · change Remembers _ now (Function.update s.accepted rootID (s.accepted rootID ++ [now]) rootID)
        (Function.update s.limiter.windows rootID (s.limiter.windows rootID ++ [now]) rootID)
      rw [Function.update_self, Function.update_self]
      exact hremembers.concat now

end Serial

/-! ## Calls that overlap -/

section Overlap

variable {maxReq windowDur : Int}

/-- The first call has found an empty window, and the second has been let through `k` times since. -/
def overtaken (maxReq windowDur : Int) (k : Nat) : Limiting where
  limiter := ⟨Function.update (fun _ => []) "" (List.replicate k 0), maxReq, windowDur⟩
  clock := 0
  calls := Function.update (fun _ => none) 0 (some ("", .filtered 0 []))
  accepted := Function.update (fun _ => []) "" (List.replicate k 0)

end Overlap

theorem RestLimit.mono {maxReq windowDur : Int} {c c' : Nat} (h : RestLimit maxReq windowDur c') (hle : c ≤ c') :
    RestLimit maxReq windowDur c := by
  intro rootID clock τ s hrun hflight
  refine h rootID clock τ s hrun fun x hx => ?_
  obtain ⟨ids, hcard, hids⟩ := hflight x hx
  exact ⟨ids, hcard.trans hle, hids⟩

namespace Sample

end Sample

end Gleipnir
