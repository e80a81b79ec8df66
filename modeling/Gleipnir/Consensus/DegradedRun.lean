import Gleipnir.Consensus.Degraded
import Gleipnir.Lib.Latch

/-!
# The degraded-mode handler over a run

`CheckDegradedTransition` keeps a counter of normal cycles. The handler is a latch (`after_new`): a cycle with too few
validators sets it, normal cycles release it, and the counter does not overflow. So the mode after any sequence of calls can be
read off the calls (`degraded_iff`).
-/

namespace Gleipnir

open Latch Latch.Policy

/-! ## Calls -/

/-- `nonNegative`. -/
def nonNegative (n : Int64) : UInt64 := if n < 0 then 0 else n.toUInt64

theorem toNat_nonNegative (n : Int64) : (nonNegative n).toNat = n.toInt.toNat := by
  unfold nonNegative
  split
  · next h =>
    have hneg : n.toInt < 0 := Int64.lt_iff_toInt_lt.1 h
    rw [UInt64.toNat_zero]
    omega
  · next h => exact Int64.toNat_toUInt64_of_le (Int64.not_lt.1 h)

/-- The arguments of a call of `CheckDegradedTransition`. -/
structure DegradedCheck where
  currentValidators : Int64
  quorumReached : Bool
  deriving DecidableEq

namespace DegradedCheck

/-- The call was made with fewer validators than the minimum; a negative count is none at all. -/
def Below (c : DegradedCheck) (minValidators : UInt64) : Prop := max 0 c.currentValidators.toInt < minValidators.toNat

/-- The call was made with enough validators and a quorum. -/
def Normal (c : DegradedCheck) (minValidators : UInt64) : Prop :=
  minValidators.toNat ≤ max 0 c.currentValidators.toInt ∧ c.quorumReached = true

variable {c : DegradedCheck} {minValidators : UInt64}

theorem below_iff : c.Below minValidators ↔ nonNegative c.currentValidators < minValidators := by
  rw [UInt64.lt_iff_toNat_lt, toNat_nonNegative, Below]
  omega

theorem normal_iff : c.Normal minValidators ↔ minValidators ≤ nonNegative c.currentValidators ∧ c.quorumReached = true := by
  rw [UInt64.le_iff_toNat_le, toNat_nonNegative, Normal]
  refine and_congr_left fun _ => ?_
  omega

end DegradedCheck

namespace DegradedMode

/-- `IsDegraded`. -/
def isDegraded (d : DegradedMode) : Bool := d.inDegraded

/-- A call of `CheckDegradedTransition`, with a count of either sign. -/
def check (d : DegradedMode) (c : DegradedCheck) : DegradedMode × Bool × Bool :=
  d.checkDegradedTransition (nonNegative c.currentValidators).toNat c.quorumReached

/-- The handler after a sequence of calls. -/
def after (d : DegradedMode) (calls : List DegradedCheck) : DegradedMode := calls.foldl (fun d c => (d.check c).1) d

theorem after_concat (d : DegradedMode) (calls : List DegradedCheck) (c : DegradedCheck) :
    d.after (calls ++ [c]) = ((d.after calls).check c).1 := by
  rw [after, List.foldl_concat, after]

/-! ## The latch -/

/-- Too few validators set the mode, `graceCycles` normal cycles in a row release it. -/
def rule (minValidators graceCycles : UInt64) : Policy DegradedCheck where
  sets c := nonNegative c.currentValidators < minValidators
  releases c := minValidators ≤ nonNegative c.currentValidators ∧ c.quorumReached = true
  delay := graceCycles.toNat
  apart c h := by
    have hfew := of_decide_eq_true h
    exact decide_eq_false fun hnormal => UInt64.not_le.2 hfew hnormal.1

/-- The handler in a state of the latch. -/
def ofState (minValidators graceCycles : UInt64) (s : State) : DegradedMode :=
  ⟨minValidators, graceCycles, UInt64.ofNat s.streak, s.on⟩

/-- A call is a step of the latch: the counter stays below the grace period, so that it cannot overflow. -/
theorem check_ofState {minValidators graceCycles : UInt64} {s : State} (h : s.streak < (rule minValidators graceCycles).row)
    (c : DegradedCheck) : ((ofState minValidators graceCycles s).check c).1 =
      ofState minValidators graceCycles ((rule minValidators graceCycles).step s c) := by
  have hlt : s.streak + 1 < 2 ^ 64 := by
    have hgrace := graceCycles.toNat_lt
    change s.streak < max 1 graceCycles.toNat at h
    omega
  have hsucc : UInt64.ofNat s.streak + 1 = UInt64.ofNat (s.streak + 1) := (UInt64.ofNat_add s.streak 1).symm
  have hgrace : graceCycles ≤ UInt64.ofNat (s.streak + 1) ↔ graceCycles.toNat ≤ s.streak + 1 := by
    rw [UInt64.le_iff_toNat_le, UInt64.toNat_ofNat_of_lt' hlt]
  cases hon : s.on with
  | false =>
    by_cases hfew : nonNegative c.currentValidators < minValidators
    · rw [step_set hon (decide_eq_true hfew)]
      simp [check, checkDegradedTransition, ofState, hon, hfew]
    · rw [step_idle hon (decide_eq_false hfew)]
      simp [check, checkDegradedTransition, ofState, hon, hfew]
  | true =>
    by_cases hnormal : minValidators ≤ nonNegative c.currentValidators ∧ c.quorumReached = true
    · have hreleases : (rule minValidators graceCycles).releases c = true := decide_eq_true hnormal
      rcases Nat.lt_or_ge (s.streak + 1) graceCycles.toNat with hdelay | hdelay
      · rw [step_counted hon hreleases hdelay]
        simp [check, checkDegradedTransition, ofState, hon, hnormal, hsucc, hgrace, hdelay.not_ge, -UInt64.ofNat_add]
      · rw [step_released hon hreleases hdelay]
        simp [check, checkDegradedTransition, ofState, hon, hnormal, hsucc, hgrace, hdelay, -UInt64.ofNat_add]
    · rw [step_refused hon (decide_eq_false hnormal)]
      simp [check, checkDegradedTransition, ofState, hon, hnormal]

/-- The handler is the latch. -/
theorem after_new (minValidators graceCycles : UInt64) (calls : List DegradedCheck) :
    (new minValidators graceCycles).after calls =
      ofState minValidators graceCycles ((rule minValidators graceCycles).run calls) := by
  induction calls using List.reverseRecOn with
  | nil => rfl
  | append_singleton calls c ih =>
    rw [after_concat, ih, Policy.run_concat]
    exact check_ofState ((rule minValidators graceCycles).counts_run calls).short c

/-- The first flag is set on the calls that change the mode. -/
theorem check_transitioned (d : DegradedMode) (c : DegradedCheck) :
    (d.check c).2.1 = true ↔ (d.check c).1.isDegraded ≠ d.isDegraded := by
  unfold check checkDegradedTransition isDegraded
  cases hd : d.inDegraded with
  | false =>
    simp only [Bool.not_false, if_true]
    split
    · simp
    · simp [hd]
  | true =>
    simp only [Bool.not_true, Bool.false_eq_true, if_false]
    split
    · split
      · simp
      · simp
    · simp

/-- **The mode after a sequence of calls.** It is degraded exactly if some call had too few validators, and no `max 1 graceCycles`
calls in a row after that call were all normal; and a call says so when it changes the mode. -/
theorem degraded_iff (minValidators graceCycles : UInt64) (calls : List DegradedCheck) :
    (((new minValidators graceCycles).after calls).isDegraded = true ↔
      ∃ before c later, calls = before ++ c :: later ∧ c.Below minValidators ∧
        ¬ ∃ row, row <:+: later ∧ row.length = max 1 graceCycles.toNat ∧ ∀ c ∈ row, c.Normal minValidators) ∧
    ∀ c, (((new minValidators graceCycles).after calls).check c).2.1 = true ↔
      ((new minValidators graceCycles).after (calls ++ [c])).isDegraded ≠
        ((new minValidators graceCycles).after calls).isDegraded := by
  refine ⟨?_, fun c => ?_⟩
  · rw [after_new]
    refine Policy.on_run_iff.trans ?_
    simp only [Policy.Holds, HasRow, Policy.row, rule, decide_eq_true_eq, DegradedCheck.below_iff, DegradedCheck.normal_iff]
  · rw [after_concat]
    exact check_transitioned _ c

/-- Two normal cycles are not enough for a grace period of three, and a third one is. -/
example : (((new 4 3).after [⟨3, true⟩, ⟨4, true⟩, ⟨5, true⟩]).isDegraded,
    ((new 4 3).after [⟨3, true⟩, ⟨4, true⟩, ⟨5, true⟩, ⟨4, true⟩]).isDegraded) = (true, false) := by decide

end DegradedMode

end Gleipnir
