import Gleipnir.Consensus.Engine
import Gleipnir.Lib.SlidingWindow

/-!
# The limiter of submissions

`consensus/ratelimit.go`: `Allow` lets a submitter through at most `maxPerWindow` times in a window, and `Cleanup` drops what is
older than two windows. The two windows are computed in `int64`: they overflow for a window of more than `2 ^ 62` nanoseconds,
and then `Cleanup` drops everything. The first call of a submitter makes room for `maxPerWindow` times at once, and panics with
the mutex held if there cannot be so many. `limiter_iff`: up to these bounds the limit holds over every sequence of calls, and
beyond them it does not.
-/

namespace Gleipnir

open SlidingWindow

/-! ## Calls -/

/-- `SubmitterLimiter.Cleanup` at the time `now`; a window without entries is one that is not there. -/
def SubmitterLimiter.cleanup (sl : SubmitterLimiter) (now : Int) : SubmitterLimiter :=
  let cutoff := now + (-Int64.ofInt sl.windowDur * 2).toInt
  { sl with windows := fun submitter => (sl.windows submitter).filter fun t => cutoff < t }

/-- A call of the limiter, with the time that it reads. -/
inductive LimiterCall where
  | allow (submitter : RootID) (now : Int)
  | cleanup (now : Int)

def LimiterCall.time : LimiterCall → Int
  | allow _ now => now
  | cleanup now => now

/-- The clock does not run backwards. -/
def InOrder (calls : List LimiterCall) : Prop := calls.Pairwise fun c c' => c.time ≤ c'.time

variable {calls : List LimiterCall} {windowDur limit : Int64} {sl : SubmitterLimiter} {submitter : RootID}

theorem InOrder.exists_end (h : InOrder calls) : ∃ now, ∀ c ∈ calls, c.time ≤ now := by
  rcases List.eq_nil_or_concat' calls with rfl | ⟨calls, last, rfl⟩
  · exact ⟨0, fun c hc => absurd hc List.not_mem_nil⟩
  · refine ⟨last.time, fun c hc => ?_⟩
    rcases List.mem_append.1 hc with hc | hc
    · exact (List.pairwise_append.1 h).2.2 c hc last List.mem_cons_self
    · rw [List.mem_singleton.1 hc]

namespace SubmitterLimiter

def serve (sl : SubmitterLimiter) : LimiterCall → SubmitterLimiter
  | .allow submitter now => (sl.allow submitter now).2
  | .cleanup now => sl.cleanup now

/-- The limiter after a sequence of calls. -/
def after (sl : SubmitterLimiter) (calls : List LimiterCall) : SubmitterLimiter := calls.foldl serve sl

/-- The time of a call of the submitter that is accepted. -/
def accepts (sl : SubmitterLimiter) (submitter : RootID) : LimiterCall → List Int
  | .allow submitter' now => if submitter' = submitter ∧ (sl.allow submitter' now).1 = true then [now] else []
  | .cleanup _ => []

/-- The times at which calls of a submitter are accepted. -/
def accepted (sl : SubmitterLimiter) (submitter : RootID) : List LimiterCall → List Int
  | [] => []
  | c :: calls => sl.accepts submitter c ++ (sl.serve c).accepted submitter calls

theorem after_concat (sl : SubmitterLimiter) (calls : List LimiterCall) (c : LimiterCall) :
    sl.after (calls ++ [c]) = (sl.after calls).serve c := by
  rw [after, List.foldl_concat, after]

theorem accepted_append (sl : SubmitterLimiter) (submitter : RootID) (calls calls' : List LimiterCall) :
    sl.accepted submitter (calls ++ calls') = sl.accepted submitter calls ++ (sl.after calls).accepted submitter calls' := by
  induction calls generalizing sl with
  | nil => rfl
  | cons c calls ih => rw [List.cons_append, accepted, accepted, ih, List.append_assoc]; rfl

theorem accepted_concat (sl : SubmitterLimiter) (submitter : RootID) (calls : List LimiterCall) (c : LimiterCall) :
    sl.accepted submitter (calls ++ [c]) = sl.accepted submitter calls ++ (sl.after calls).accepts submitter c := by
  rw [accepted_append, accepted, accepted, List.append_nil]

/-- No call changes the limit or the window. -/
theorem serve_settings (sl : SubmitterLimiter) (c : LimiterCall) :
    (sl.serve c).maxPerWindow = sl.maxPerWindow ∧ (sl.serve c).windowDur = sl.windowDur := by
  cases c with
  | allow submitter now =>
    unfold serve allow
    dsimp only
    split
    · exact ⟨rfl, rfl⟩
    · exact ⟨rfl, rfl⟩
  | cleanup now => exact ⟨rfl, rfl⟩

theorem after_settings (sl : SubmitterLimiter) (calls : List LimiterCall) :
    (sl.after calls).maxPerWindow = sl.maxPerWindow ∧ (sl.after calls).windowDur = sl.windowDur := by
  induction calls generalizing sl with
  | nil => exact ⟨rfl, rfl⟩
  | cons c calls ih => exact ⟨(ih _).1.trans (sl.serve_settings c).1, (ih _).2.trans (sl.serve_settings c).2⟩

/-- What is accepted was called. -/
theorem time_of_accepted {sl : SubmitterLimiter} {submitter : RootID} {calls : List LimiterCall} {t : Int}
    (h : t ∈ sl.accepted submitter calls) : ∃ c ∈ calls, c.time = t := by
  induction calls generalizing sl with
  | nil => cases h
  | cons c calls ih =>
    rcases List.mem_append.1 h with h | h
    · refine ⟨c, List.mem_cons_self, ?_⟩
      cases c with
      | allow submitter' now =>
        change t ∈ ite _ [now] [] at h
        split at h
        · exact (List.mem_singleton.1 h).symm
        · cases h
      | cleanup now => cases h
    · obtain ⟨c', hc', ht⟩ := ih h
      exact ⟨c', List.mem_cons_of_mem _ hc', ht⟩

/-- What a call of `Allow` decides, and what it leaves of the window. -/
theorem allow_cases (sl : SubmitterLimiter) (submitter : RootID) (now : Int) :
    (sl.maxPerWindow ≤ (recent sl.windowDur now (sl.windows submitter)).length ∧ (sl.allow submitter now).1 = false ∧
      (sl.allow submitter now).2.windows =
        Function.update sl.windows submitter (recent sl.windowDur now (sl.windows submitter))) ∨
    ((recent sl.windowDur now (sl.windows submitter)).length < sl.maxPerWindow ∧ (sl.allow submitter now).1 = true ∧
      (sl.allow submitter now).2.windows =
        Function.update sl.windows submitter (recent sl.windowDur now (sl.windows submitter) ++ [now])) := by
  unfold allow
  dsimp only
  split
  · next hfull => exact .inl ⟨hfull, rfl, rfl⟩
  · next hroom => exact .inr ⟨not_le.1 hroom, rfl, rfl⟩

end SubmitterLimiter

/-! ## The mutex -/

/-- `make` allocates the slice of a window: its times take 24 bytes each, and for a negative capacity or more than `2 ^ 48` bytes
it panics. -/
def Makes (capacity : Int) : Prop := 0 ≤ capacity ∧ 24 * capacity ≤ 2 ^ 48

instance (capacity : Int) : Decidable (Makes capacity) := inferInstanceAs (Decidable (_ ∧ _))

/-- A limiter behind its mutex. There is none any more once a call has panicked with the mutex held: all others wait for it. -/
abbrev LimiterState : Type := Option SubmitterLimiter

namespace LimiterState

/-- `SubmitterLimiter.Allow`, if it returns. -/
def allow (s : LimiterState) (submitter : RootID) (now : Int) : Option Bool × LimiterState :=
  match s with
  | none => (none, none)
  | some sl =>
    if sl.windows submitter = [] ∧ ¬ Makes sl.maxPerWindow then (none, none)
    else (some (sl.allow submitter now).1, some (sl.allow submitter now).2)

def serve (s : LimiterState) : LimiterCall → LimiterState
  | .allow submitter now => (s.allow submitter now).2
  | .cleanup now => s.map (·.cleanup now)

def after (s : LimiterState) (calls : List LimiterCall) : LimiterState := calls.foldl serve s

def accepts (s : LimiterState) (submitter : RootID) : LimiterCall → List Int
  | .allow submitter' now => if submitter' = submitter ∧ (s.allow submitter' now).1 = some true then [now] else []
  | .cleanup _ => []

def accepted (s : LimiterState) (submitter : RootID) : List LimiterCall → List Int
  | [] => []
  | c :: calls => s.accepts submitter c ++ (s.serve c).accepted submitter calls

variable {sl : SubmitterLimiter} (h : Makes sl.maxPerWindow)
include h

/-- Where the slices can be made, no call panics. -/
theorem allow_some (submitter : RootID) (now : Int) : LimiterState.allow (some sl) submitter now =
    (some (sl.allow submitter now).1, some (sl.allow submitter now).2) := if_neg fun hn => hn.2 h

theorem serve_some (c : LimiterCall) : LimiterState.serve (some sl) c = some (sl.serve c) := by
  cases c with
  | allow submitter now => rw [serve, allow_some h, SubmitterLimiter.serve]
  | cleanup now => rfl

theorem accepts_some (submitter : RootID) (c : LimiterCall) :
    LimiterState.accepts (some sl) submitter c = sl.accepts submitter c := by
  cases c with
  | allow submitter' now => simp only [accepts, allow_some h, SubmitterLimiter.accepts, Option.some.injEq]
  | cleanup now => rfl

theorem after_some (calls : List LimiterCall) : LimiterState.after (some sl) calls = some (sl.after calls) := by
  induction calls generalizing sl with
  | nil => rfl
  | cons c calls ih =>
    have hc : Makes (sl.serve c).maxPerWindow := (sl.serve_settings c).1.symm ▸ h
    rw [after, List.foldl_cons, serve_some h]
    exact ih hc

theorem accepted_some (submitter : RootID) (calls : List LimiterCall) :
    LimiterState.accepted (some sl) submitter calls = sl.accepted submitter calls := by
  induction calls generalizing sl with
  | nil => rfl
  | cons c calls ih =>
    have hc : Makes (sl.serve c).maxPerWindow := (sl.serve_settings c).1.symm ▸ h
    rw [accepted, SubmitterLimiter.accepted, accepts_some h, serve_some h, ih hc]

end LimiterState

/-- `NewSubmitterLimiter`. -/
def newLimiter (limit windowDur : Int64) : LimiterState := some (SubmitterLimiter.new limit.toInt windowDur.toInt)

/-! ## The overflow -/

theorem toInt_two_windows (hdur : 0 < windowDur) :
    (-windowDur * 2).toInt = if windowDur.toInt ≤ 2 ^ 62 then -2 * windowDur.toInt else 2 ^ 64 - 2 * windowDur.toInt := by
  have hpos : 0 < windowDur.toInt := Int64.lt_iff_toInt_lt.1 hdur
  have hlt := windowDur.toInt_lt
  have htwo : (2 : Int64).toInt = 2 := by decide
  rw [Int64.toInt_mul, Int64.toInt_neg, htwo]
  simp only [Int.bmod_def]
  split
  · omega
  · omega

/-! ## The limit over a run -/

/-- What the limiter keeps of a submitter shows what is recent among its accepted calls, and these kept to the limit. -/
structure Metered (sl : SubmitterLimiter) (now : Int) (submitter : RootID) (log : List Int) : Prop where
  remembers : Remembers sl.windowDur now log (sl.windows submitter)
  admitted : Admitted sl.maxPerWindow.toNat sl.windowDur log

/-- A call of `Allow` is metered: it looks at what is recent, and what it forgets is not. -/
theorem Metered.allow {now : Int} {log : List Int} (h : Metered sl now submitter log) (submitter' : RootID) :
    Metered (sl.serve (.allow submitter' now)) now submitter (log ++ sl.accepts submitter (.allow submitter' now)) := by
  obtain ⟨hmax, hwindow⟩ := sl.serve_settings (.allow submitter' now)
  have hserve : (sl.serve (.allow submitter' now)).windows = (sl.allow submitter' now).2.windows := rfl
  by_cases heq : submitter' = submitter
  · subst heq
    rcases sl.allow_cases submitter' now with ⟨-, hverdict, hwindows⟩ | ⟨hroom, hverdict, hwindows⟩
    · have hnone : sl.accepts submitter' (.allow submitter' now) = [] := if_neg fun h => by simp [hverdict] at h
      rw [hnone, List.append_nil]
      refine ⟨?_, by rw [hmax, hwindow]; exact h.admitted⟩
      rw [hwindow, hserve, hwindows, Function.update_self]
      exact h.remembers.recent
    · have hone : sl.accepts submitter' (.allow submitter' now) = [now] := if_pos ⟨rfl, hverdict⟩
      rw [hone]
      refine ⟨?_, ?_⟩
      · rw [hwindow, hserve, hwindows, Function.update_self]
        exact h.remembers.recent.concat now
      · rw [hmax, hwindow]
        refine h.admitted.concat ?_
        rw [← h.remembers.recent_eq]
        omega
  · -- the windows of the others are left alone
    have hnone : sl.accepts submitter (.allow submitter' now) = [] := if_neg fun h => heq h.1
    have hother : (sl.allow submitter' now).2.windows submitter = sl.windows submitter := by
      rcases sl.allow_cases submitter' now with ⟨-, -, hwindows⟩ | ⟨-, -, hwindows⟩
      · rw [hwindows, Function.update_of_ne (Ne.symm heq)]
      · rw [hwindows, Function.update_of_ne (Ne.symm heq)]
    rw [hnone, List.append_nil]
    refine ⟨?_, by rw [hmax, hwindow]; exact h.admitted⟩
    rw [hwindow, hserve, hother]
    exact h.remembers

/-- Everything accepted lies before the time of the last call. -/
theorem accepted_le {now : Int} (hnow : ∀ c ∈ calls, c.time ≤ now) : ∀ t ∈ sl.accepted submitter calls, t ≤ now := by
  intro t ht
  obtain ⟨c, hc, rfl⟩ := SubmitterLimiter.time_of_accepted ht
  exact hnow c hc

section Run

variable (hdur : 0 < windowDur) (hsmall : windowDur.toInt ≤ 2 ^ 62) (hsl : sl.windowDur = windowDur.toInt)
include hdur hsmall hsl

/-- Without an overflow, `Cleanup` forgets nothing that is recent. -/
theorem Metered.cleanup {now : Int} {log : List Int} (h : Metered sl now submitter log) :
    Metered (sl.cleanup now) now submitter log := by
  have hpos : 0 < windowDur.toInt := Int64.lt_iff_toInt_lt.1 hdur
  have hcutoff : now + (-Int64.ofInt sl.windowDur * 2).toInt ≤ now - sl.windowDur := by
    rw [hsl, Int64.ofInt_toInt, toInt_two_windows hdur, if_pos hsmall]
    omega
  exact ⟨h.remembers.prune hcutoff, h.admitted⟩

theorem Metered.serve {c : LimiterCall} {log : List Int} (h : Metered sl c.time submitter log) :
    Metered (sl.serve c) c.time submitter (log ++ sl.accepts submitter c) := by
  cases c with
  | allow submitter' now => exact Metered.allow h submitter'
  | cleanup now =>
    rw [SubmitterLimiter.accepts, List.append_nil]
    exact Metered.cleanup hdur hsmall hsl h

variable (hfresh : ∀ submitter, sl.windows submitter = []) (hcalls : InOrder calls)
include hfresh hcalls

/-- **The limiter over a run.** -/
theorem metered_run {now : Int} (hnow : ∀ c ∈ calls, c.time ≤ now) (submitter : RootID) :
    Metered (sl.after calls) now submitter (sl.accepted submitter calls) := by
  induction calls using List.reverseRecOn generalizing now with
  | nil => exact ⟨by rw [SubmitterLimiter.after, List.foldl_nil, hfresh]; exact fun _ _ => rfl, .nil⟩
  | append_singleton calls c ih =>
    obtain ⟨hbefore, -, hlast⟩ := List.pairwise_append.1 hcalls
    have hc := ih hbefore fun c' hc' => hlast c' hc' c List.mem_cons_self
    rw [SubmitterLimiter.after_concat, SubmitterLimiter.accepted_concat]
    have hserved := hc.serve hdur hsmall ((sl.after_settings calls).2.trans hsl)
    exact ⟨hserved.remembers.later (hnow c (by simp)), hserved.admitted⟩

/-- The accepted calls of a submitter kept to the limit one by one. -/
theorem admitted_accepted (submitter : RootID) :
    Admitted sl.maxPerWindow.toNat sl.windowDur (sl.accepted submitter calls) := by
  obtain ⟨now, hnow⟩ := hcalls.exists_end
  have h := (metered_run hdur hsmall hsl hfresh hcalls hnow submitter).admitted
  rwa [(sl.after_settings calls).1, (sl.after_settings calls).2] at h

/-- A rejected call found the window full. -/
theorem full_of_rejected {now : Int} (hnow : ∀ c ∈ calls, c.time ≤ now)
    (hrejected : ((sl.after calls).allow submitter now).1 = false) :
    sl.maxPerWindow ≤ ((sl.accepted submitter calls).filter fun t => now - sl.windowDur < t ∧ t ≤ now).length := by
  obtain ⟨hmax, hwindow⟩ := sl.after_settings calls
  have hmetered := metered_run hdur hsmall hsl hfresh hcalls hnow submitter
  have hinside : (sl.accepted submitter calls).filter (fun t => now - sl.windowDur < t ∧ t ≤ now) =
      recent sl.windowDur now (sl.accepted submitter calls) :=
    List.filter_congr fun t ht => by simp [accepted_le hnow t ht]
  rcases SubmitterLimiter.allow_cases _ submitter now with ⟨hfull, -, -⟩ | ⟨-, hverdict, -⟩
  · rw [hmetered.remembers.recent_eq, hmax, hwindow] at hfull
    rw [hinside]
    exact hfull
  · rw [hverdict] at hrejected
    cases hrejected

end Run

/-- What the limiter promises of a sequence of calls: the accepted calls of a submitter in a half-open interval of the window's
length are at most `limit`, and a call is not accepted only if that many lie within the window before it. -/
structure LimitKept (limit windowDur : Int64) (calls : List LimiterCall) : Prop where
  fromOn : ∀ submitter a, (((newLimiter limit windowDur).accepted submitter calls).filter
    fun t => a ≤ t ∧ t < a + windowDur.toInt).length ≤ limit.toInt
  upTo : ∀ submitter a, (((newLimiter limit windowDur).accepted submitter calls).filter
    fun t => a < t ∧ t ≤ a + windowDur.toInt).length ≤ limit.toInt
  rejected : ∀ before submitter now later, calls = before ++ .allow submitter now :: later →
    (((newLimiter limit windowDur).after before).allow submitter now).1 ≠ some true →
    limit.toInt ≤ (((newLimiter limit windowDur).accepted submitter before).filter
      fun t => now - windowDur.toInt < t ∧ t ≤ now).length

theorem limitKept_of_small (hlimit : 0 < limit) (hmakes : Makes limit.toInt) (hdur : 0 < windowDur)
    (hsmall : windowDur.toInt ≤ 2 ^ 62) (hcalls : InOrder calls) : LimitKept limit windowDur calls := by
  have hpos : 0 < limit.toInt := Int64.lt_iff_toInt_lt.1 hlimit
  obtain ⟨sl, hnew, hmax, hsl, hfresh⟩ : ∃ sl : SubmitterLimiter, newLimiter limit windowDur = some sl ∧
      sl.maxPerWindow = limit.toInt ∧ sl.windowDur = windowDur.toInt ∧ ∀ submitter, sl.windows submitter = [] :=
    ⟨_, rfl, rfl, rfl, fun _ => rfl⟩
  rw [← hmax] at hmakes hpos
  have hadmitted := admitted_accepted hdur hsmall hsl hfresh hcalls
  refine ⟨fun submitter a => ?_, fun submitter a => ?_, ?_⟩
  · have h := (hadmitted submitter).length_Ico_le a
    rw [hnew, LimiterState.accepted_some hmakes, ← hmax, ← hsl]
    omega
  · have h := (hadmitted submitter).length_Ioc_le a
    rw [hnew, LimiterState.accepted_some hmakes, ← hmax, ← hsl]
    omega
  · rintro before submitter now later rfl hrejected
    have hafter : Makes (sl.after before).maxPerWindow := (sl.after_settings before).1.symm ▸ hmakes
    obtain ⟨hbefore, -, hlast⟩ := List.pairwise_append.1 hcalls
    rw [hnew, LimiterState.after_some hmakes, LimiterState.allow_some hafter, ne_eq, Option.some.injEq,
      Bool.not_eq_true] at hrejected
    rw [hnew, LimiterState.accepted_some hmakes, ← hmax, ← hsl]
    exact full_of_rejected hdur hsmall hsl hfresh hbefore (fun c hc => hlast c hc _ List.mem_cons_self) hrejected

/-! ## Beyond the overflow -/

/-- A submitter whose calls alternate with cleanups, all at one time. -/
def burst (submitter : RootID) : ℕ → List LimiterCall
  | 0 => []
  | k + 1 => .allow submitter 0 :: .cleanup 0 :: burst submitter k

theorem time_burst {k : ℕ} : ∀ c ∈ burst submitter k, c.time = 0 := by
  induction k with
  | zero => exact fun c hc => absurd hc List.not_mem_nil
  | succ k ih =>
    intro c hc
    rcases List.mem_cons.1 hc with rfl | hc
    · rfl
    · rcases List.mem_cons.1 hc with rfl | hc
      · rfl
      · exact ih c hc

/-- If the cutoff is in the future, nothing is remembered and every call is accepted. -/
theorem accepted_burst (hsl : sl.windowDur = windowDur.toInt) (hcutoff : 0 < (-windowDur * 2).toInt)
    (hmax : 0 < sl.maxPerWindow) (hfresh : sl.windows submitter = []) (k : ℕ) :
    sl.accepted submitter (burst submitter k) = List.replicate k 0 := by
  induction k generalizing sl with
  | zero => rfl
  | succ k ih =>
    rcases sl.allow_cases submitter 0 with ⟨hfull, -, -⟩ | ⟨-, hverdict, hwindows⟩
    · rw [hfresh] at hfull
      exact absurd hfull (not_le.2 hmax)
    · obtain ⟨hmax', hwindow'⟩ := sl.serve_settings (.allow submitter 0)
      have hone : sl.accepts submitter (.allow submitter 0) = [0] := if_pos ⟨rfl, hverdict⟩
      have hforgotten : ((sl.serve (.allow submitter 0)).cleanup 0).windows submitter = [] := by
        change List.filter _ ((sl.allow submitter 0).2.windows submitter) = []
        rw [hwindows, Function.update_self, hfresh, hwindow', hsl, Int64.ofInt_toInt]
        refine List.filter_eq_nil_iff.2 fun t ht hkept => ?_
        obtain rfl : t = 0 := by simpa [recent] using ht
        have hbefore := of_decide_eq_true hkept
        omega
      have hrest := @ih ((sl.serve (.allow submitter 0)).cleanup 0) (hwindow'.trans hsl) (hmax'.symm ▸ hmax) hforgotten
      rw [burst, SubmitterLimiter.accepted, SubmitterLimiter.accepted, hone]
      exact congrArg (0 :: ·) hrest

theorem inOrder_burst (submitter : RootID) (k : ℕ) : InOrder (burst submitter k) :=
  List.pairwise_of_forall_mem_list fun c hc c' hc' => by rw [time_burst c hc, time_burst c' hc']

/-- With the overflow one call more than the limit is accepted at one time. -/
theorem not_limitKept_burst (hlimit : 0 < limit) (hmakes : Makes limit.toInt) (hdur : 0 < windowDur)
    (hbig : ¬ windowDur.toInt ≤ 2 ^ 62) : ¬ LimitKept limit windowDur (burst (Arr.zero 16) (limit.toInt.toNat + 1)) := by
  intro h
  have hpos : 0 < limit.toInt := Int64.lt_iff_toInt_lt.1 hlimit
  have hlt := windowDur.toInt_lt
  have hcutoff : 0 < (-windowDur * 2).toInt := by
    rw [toInt_two_windows hdur, if_neg hbig]
    omega
  have hall : (newLimiter limit windowDur).accepted (Arr.zero 16) (burst (Arr.zero 16) (limit.toInt.toNat + 1)) =
      List.replicate (limit.toInt.toNat + 1) 0 :=
    (LimiterState.accepted_some hmakes _ _).trans (accepted_burst rfl hcutoff hpos rfl _)
  have hinside : decide ((0 : Int) ≤ 0 ∧ 0 < 0 + windowDur.toInt) = true := decide_eq_true (by omega)
  have hbound := h.fromOn (Arr.zero 16) 0
  rw [hall, List.filter_replicate, if_pos hinside, List.length_replicate] at hbound
  omega

/-- The first call panics if its slice cannot be made. -/
theorem makes_of_limitKept (hlimit : 0 < limit) (h : LimitKept limit windowDur [.allow (Arr.zero 16) 0]) :
    Makes limit.toInt := by
  by_contra hmakes
  have hpos : 0 < limit.toInt := Int64.lt_iff_toInt_lt.1 hlimit
  have hpanics : (newLimiter limit windowDur).allow (Arr.zero 16) 0 = (none, none) := if_pos ⟨rfl, hmakes⟩
  have hfull := h.rejected [] (Arr.zero 16) 0 [] rfl (by
    change ((newLimiter limit windowDur).allow (Arr.zero 16) 0).1 ≠ some true
    rw [hpanics]
    exact Option.some_ne_none _ ∘ Eq.symm)
  exact absurd hfull (not_le.2 hpos)

/-- **The limit holds exactly without the overflow and the panic.** -/
theorem limiter_iff {limit windowDur : Int64} (hlimit : 0 < limit) (hdur : 0 < windowDur) :
    (∀ calls, InOrder calls → LimitKept limit windowDur calls) ↔ windowDur.toInt ≤ 2 ^ 62 ∧ Makes limit.toInt := by
  constructor
  · intro h
    have hmakes := makes_of_limitKept hlimit (h _ (List.pairwise_singleton _ _))
    refine ⟨?_, hmakes⟩
    by_contra hbig
    exact not_limitKept_burst hlimit hmakes hdur hbig (h _ (inOrder_burst _ _))
  · rintro ⟨hsmall, hmakes⟩ calls hcalls
    exact limitKept_of_small hlimit hmakes hdur hsmall hcalls

namespace Sample

/-- The window of the engine. -/
theorem minute_limited : (0 : Int64) < 5000 ∧ (0 : Int64) < 60000000000 ∧
    ∀ calls, InOrder calls → LimitKept 5000 60000000000 calls :=
  ⟨by decide, by decide, (limiter_iff (by decide) (by decide)).2 (by decide)⟩

/-- Two calls with a cleanup between them. -/
def forgotten : List LimiterCall := [.allow (Arr.zero 16) 0, .cleanup 0, .allow (Arr.zero 16) 0]

/-- The window is one nanosecond too long: both calls are accepted under a limit of one. -/
theorem cleanup_forgets : InOrder forgotten ∧ ¬ LimitKept 1 4611686018427387905 forgotten := by
  refine ⟨by simp [InOrder, forgotten, LimiterCall.time], fun h => ?_⟩
  exact absurd (h.fromOn (Arr.zero 16) 0) (by decide)

end Sample

end Gleipnir
